import Wsrv.XmlBalance

/-!
# Numbers in a GPX document

`GPXParser::parse` catches the exceptions of the pull parser and returns false.
The attributes of a point and its elevation go through `std::stod`, which throws
others, and takes a text that only begins with a numeral.  What is converted
depends on the tags that came before.  `parse` reports malformed documents
exactly when `stod` takes each of these texts, and the reader accepts none but
balanced documents whose numbers are numerals to the end.
-/

namespace Wsrv.GPXParser

open Effect XmlPullParser

/-! ## The texts that are converted -/

/-- An event, and the parser that delivers it. -/
abbrev Event := Option TokenType × XmlPullParser

/-- The element that a text belongs to; the events before come last first. -/
def innermostElement : List Event → Str
  | [] => []
  | (some .START_TAG, r) :: _ => r.localName
  | (some .END_TAG, _) :: _ => []
  | _ :: past => innermostElement past

/-- The last tag of the name is a start tag. -/
def standsIn (name : Str) : List Event → Bool
  | [] => false
  | (some .START_TAG, r) :: past => decide (r.localName = name) || standsIn name past
  | (some .END_TAG, r) :: past => decide (r.localName ≠ name) && standsIn name past
  | _ :: past => standsIn name past

/-- The coordinates of a point, and the text of its elevation. -/
def numbers (past : List Event) : Event → List Str
  | (some .START_TAG, r) =>
    if r.localName = str "wpt" ∨ r.localName = str "trkpt" then
      [getAttribute r (str "lat"), getAttribute r (str "lon")]
    else []
  | (some .TEXT, r) =>
    if innermostElement past = str "ele" ∧
        (standsIn (str "wpt") past = true ∨ standsIn (str "trkpt") past = true) then [r.text]
    else []
  | _ => []

variable (L : GpxLibrary)

def isNumber (s : Str) : Bool := (L.stod s).isSome

/-- Each number of the events has the property. -/
def allNumbers (p : Str → Bool) : List Event → List Event → Bool
  | _, [] => true
  | past, e :: events => (numbers past e).all p && allNumbers p (e :: past) events

/-- What the calls of `next` deliver before `END_DOCUMENT` or an exception. -/
def delivered : Nat → XmlPullParser → List Event
  | 0, _ => []
  | n + 1, s =>
    match next s with
    | (.error _, _) => []
    | (.ok event, s') =>
      if event = some .END_DOCUMENT then [] else (event, s') :: delivered n s'

def events (event : Option TokenType) (doc : Str) : List Event :=
  delivered (2 * doc.length + 3) (unread event doc false)

/-! ## One event -/

variable {L}

/-- The variables of `parse` say where the events before have led. -/
structure Recalls (past : List Event) (st : Scan L) : Prop where
  element : st.currentElement = innermostElement past
  waypoint : st.inWaypoint = standsIn (str "wpt") past
  trkpoint : st.inTrkpoint = standsIn (str "trkpt") past

/-- The event throws, or `parse` goes on. -/
def Step (past : List Event) (e : Event) (r : Option (Scan L)) : Prop :=
  match r with
  | none => (numbers past e).all (isNumber L) = false
  | some st' => (numbers past e).all (isNumber L) = true ∧ Recalls (e :: past) st'

/-- The turns of the loop for some events; `none` where `std::stod` throws. -/
def run (st : Scan L) (l : List Event) : Option (Scan L) := l.foldlM (fun st e => handle e.1 e.2 st) st

theorem run_cons (st : Scan L) (e : Event) (l : List Event) :
    run st (e :: l) = (handle e.1 e.2 st).bind fun st' => run st' l := rfl

/-- How `parse` ends when the reader comes to `r`. -/
def ending (r : Except XmlStop (List (Delim Tag))) (st : Scan L) : Outcome L :=
  match r with
  | .ok _ => .returned true st.gpx
  | .error (.fatal _ _ _) => .returned false st.gpx
  | .error .undefined => .undefined

def outcome (r : Except XmlStop (List (Delim Tag))) : Option (Scan L) → Outcome L
  | none => .conversionError
  | some st => ending r st

/-- The rest of a turn of the loop, and the turns behind it. -/
def goOn (n : Nat) (s : XmlPullParser) (st : Scan L) : Option (Outcome L) :=
  match next s with
  | (.ok event, s') => parseLoop n event s' st
  | (.error (.fatal _ _ _), _) => some (.returned false st.gpx)
  | (.error .undefined, _) => some .undefined

theorem parseLoop_turn (n : Nat) {event : Option TokenType} (hevent : event ≠ some .END_DOCUMENT)
    (s : XmlPullParser) (st : Scan L) :
    parseLoop (n + 1) event s st =
      match handle event s st with
      | none => some .conversionError
      | some st' => goOn n s st' := by
  rw [parseLoop, if_neg hevent]
  rfl

/-- By induction on the calls of `next`. -/
theorem goOn_run (n : Nat) (tags : List (Delim Tag)) {s : XmlPullParser} {st : Scan L}
    {r : Except XmlStop (List (Delim Tag))} (hread : readAll n tags s = some r) :
    goOn n s st = some (outcome r (run st (delivered n s))) := by
  induction n generalizing tags s st with
  | zero => cases hread
  | succ n ih =>
    rw [readAll] at hread
    unfold goOn
    rw [delivered]
    rcases hnext : next s with ⟨e | event, s'⟩
    · rw [hnext] at hread
      obtain rfl := Option.some.inj hread
      cases e <;> rfl
    rw [hnext] at hread
    simp only at hread ⊢
    by_cases hend : event = some .END_DOCUMENT
    · rw [if_pos hend] at hread ⊢
      obtain rfl := Option.some.inj hread
      rw [parseLoop, if_pos hend]
      rfl
    · rw [if_neg hend] at hread ⊢
      rw [parseLoop_turn n hend, run_cons]
      cases handle event s' st with
      | none => rfl
      | some st' => exact ih _ hread

/-- The value that `event_` happens to hold stands for an event without a name. -/
theorem handle_unread (event : Option TokenType) (doc : Str) (gpx : GPX L) :
    handle event (unread event doc false) ({ gpx := gpx } : Scan L) = some { gpx := gpx } := by
  match event with
  | none => rfl
  | some event => cases event <;> rfl

/-- **`parse` is a run over the events** that the reader delivers. -/
theorem parse_run {event : Option TokenType} (doc : Str) (gpx : GPX L)
    (hevent : event ≠ some .END_DOCUMENT) {r : Except XmlStop (List (Delim Tag))}
    (hread : reading event doc false = some r) :
    parse event doc gpx = some (outcome r (run { gpx := gpx } (events event doc))) := by
  have hparse : parse event doc gpx =
      parseLoop (2 * doc.length + 3 + 1) event (unread event doc false) { gpx := gpx } := rfl
  rw [hparse, parseLoop_turn _ hevent, handle_unread]
  exact goOn_run _ [] hread

/-! ## What `parse` reports -/

/-- `parse` returns, and false when the document is not balanced or a number is malformed. -/
structure Reports (event : Option TokenType) (doc : Str) (gpx : GPX L) : Prop where
  returns : ∃ result gpx', parse event doc gpx = some (.returned result gpx')
  xml : ¬ Accepted event doc false → ∃ gpx', parse event doc gpx = some (.returned false gpx')
  numbers : allNumbers isNumberText [] (events event doc) = false →
    ∃ gpx', parse event doc gpx = some (.returned false gpx')

/-- What `parse` returns, if it does. -/
def Outcome.result : Outcome L → Option Bool
  | .returned result _ => some result
  | _ => none

end Wsrv.GPXParser
