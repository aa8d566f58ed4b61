import Wsrv.GpxNumbers

/-!
# The structure of a GPX document

`GPXParser::parse` keeps five flags and four values between the events, and a
text goes to the owner that the flags say.  For a tree with its way points and
tracks the events are known, and so is what a run over them stores
(`run_gpxTree`).  Descriptions are not stored.  `in_track` falls at the end of
a segment, and it is up while the points of the first segment are read: a name
of a track is lost behind its first segment, and a name of a point there takes
its place.
-/

namespace Wsrv.GPXParser

open XmlPullParser (wholeNumbers)

/-! ## Trees -/

/-- The elements that hold a text. -/
inductive Field
  | name | desc | ele | time
  deriving DecidableEq

def Field.tag : Field → Str
  | name => str "name"
  | desc => str "desc"
  | ele => str "ele"
  | time => str "time"

/-- The elements among some texts and elements. -/
def elements {α : Type} (l : List (Str ⊕ α)) : List α := l.filterMap Sum.getRight?

/-- The text of a field of this kind. -/
def textOf (k : Field) (c : Field × Str) : Option Str := if c.1 = k then some c.2 else none

variable (L : GpxLibrary)

/-- A text that is a number. -/
structure Number where
  text : Str
  isNumber : (L.stod text).isSome = true

/-- A `wpt` or a `trkpt`: each field comes once at most, in any order, and an elevation and a time
are there. -/
structure PointTree where
  lat : Number L
  lon : Number L
  children : List (Str ⊕ Field × Str)
  once : ∀ k, ((elements children).filterMap (textOf k)).length ≤ 1
  ele : ∀ t, (Field.ele, t) ∈ elements children → t ≠ [] ∧ (L.stod t).isSome = true
  time : ∀ t, (Field.time, t) ∈ elements children → t ≠ []

structure SegmentTree where
  children : List (Str ⊕ PointTree L)

inductive TrackChild
  | name (t : Str)
  | segment (s : SegmentTree L)

variable {L}

def TrackChild.name? : TrackChild L → Option Str
  | name t => some t
  | segment _ => none

def TrackChild.segment? : TrackChild L → Option (SegmentTree L)
  | name _ => none
  | segment s => some s

variable (L)

/-- The name may stand before, between and behind the segments. -/
structure TrackTree where
  children : List (Str ⊕ TrackChild L)
  once : ((elements children).filterMap TrackChild.name?).length ≤ 1

inductive GpxChild
  | wpt (p : PointTree L)
  | trk (t : TrackTree L)

structure GpxTree where
  creator : Str
  children : List (Str ⊕ GpxChild L)

variable {L}

/-! ## What a tree means -/

def Number.value (n : Number L) : L.Double := (L.stod n.text).get n.isNumber

namespace PointTree

variable (p : PointTree L)

/-- The text of the direct child of this kind. -/
def field (k : Field) : Option Str := ((elements p.children).filterMap (textOf k)).head?

def wayPoint : WayPoint L where
  lat := p.lat.value
  lon := p.lon.value
  time := (p.field .time).map (parseDateTime (L := L))
  ele := (p.field .ele).bind L.stod
  name := (p.field .name).getD []
  desc := (p.field .desc).getD []

def trackPoint : TrackPoint L where
  lat := p.lat.value
  lon := p.lon.value
  time := (p.field .time).map (parseDateTime (L := L))
  ele := (p.field .ele).bind L.stod

end PointTree

namespace SegmentTree

variable (s : SegmentTree L)

def points : List (PointTree L) := elements s.children

def value : TrackSegment L where
  points := s.points.map PointTree.trackPoint

end SegmentTree

namespace TrackTree

variable (t : TrackTree L)

def segments : List (SegmentTree L) := (elements t.children).filterMap TrackChild.segment?

def name : Str := ((elements t.children).filterMap TrackChild.name?).head?.getD []

def value : Track L where
  name := t.name
  segments := t.segments.map SegmentTree.value

end TrackTree

namespace GpxTree

variable (d : GpxTree L)

def waypoints : List (PointTree L) := (elements d.children).filterMap fun
  | .wpt p => some p
  | .trk _ => none

def tracks : List (TrackTree L) := (elements d.children).filterMap fun
  | .wpt _ => none
  | .trk t => some t

/-- The document behind what `gpx` holds. -/
def value (gpx : GPX L) : GPX L where
  creator := d.creator
  waypoints := gpx.waypoints ++ d.waypoints.map PointTree.wayPoint
  tracks := gpx.tracks ++ d.tracks.map TrackTree.value

end GpxTree

/-! ## Events -/

inductive GpxEvent
  | startTag (name : Str) (attrs : List (Str × Str))
  | text (t : Str)
  | endTag (name : Str)

/-- No event for an empty text. -/
def texts (t : Str) : List GpxEvent := if t = [] then [] else [.text t]

def element (name : Str) (attrs : List (Str × Str)) (inner : List GpxEvent) : List GpxEvent :=
  .startTag name attrs :: (inner ++ [.endTag name])

def mixed {α : Type} (events : α → List GpxEvent) (l : List (Str ⊕ α)) : List GpxEvent :=
  l.flatMap (Sum.elim texts events)

def fieldEvents (c : Field × Str) : List GpxEvent := element c.1.tag [] (texts c.2)

def PointTree.events (tag : Str) (p : PointTree L) : List GpxEvent :=
  element tag [(str "lat", p.lat.text), (str "lon", p.lon.text)] (mixed fieldEvents p.children)

def SegmentTree.events (s : SegmentTree L) : List GpxEvent :=
  element (str "trkseg") [] (mixed (PointTree.events (str "trkpt")) s.children)

def TrackChild.events : TrackChild L → List GpxEvent
  | name t => fieldEvents (.name, t)
  | segment s => s.events

def TrackTree.events (t : TrackTree L) : List GpxEvent :=
  element (str "trk") [] (mixed TrackChild.events t.children)

def GpxChild.events : GpxChild L → List GpxEvent
  | wpt p => p.events (str "wpt")
  | trk t => t.events

def GpxTree.events (d : GpxTree L) : List GpxEvent :=
  element (str "gpx") [(str "creator", d.creator)] (mixed GpxChild.events d.children)

/-- What the reader shows at an event. -/
def Shows : GpxEvent → Event → Prop
  | .startTag name attrs, (event, r) =>
    event = some .START_TAG ∧ r.localName = name ∧ ∀ a ∈ attrs, getAttribute r a.1 = a.2
  | .text t, (event, r) => event = some .TEXT ∧ r.text = t
  | .endTag name, (event, r) => event = some .END_TAG ∧ r.localName = name

/-! ## Runs -/

/-- A text would go nowhere. -/
def Quiet (st : Scan L) : Prop := ∀ k : Field, k ≠ .desc → st.currentElement ≠ k.tag

/-- The events lead from `P` to `Q`, whatever reader shows them. -/
def Reads (l : List GpxEvent) (P Q : Scan L → Prop) : Prop :=
  ∀ st, Quiet st → P st → ∀ evs, List.Forall₂ Shows l evs →
    ∃ st', run st evs = some st' ∧ Quiet st' ∧ Q st'

theorem run_append (st : Scan L) (l l' : List Event) :
    run st (l ++ l') = (run st l).bind fun st' => run st' l' := List.foldlM_append

theorem Quiet.text {st : Scan L} (h : Quiet st) (r : XmlPullParser) : text r st = some st := by
  unfold GPXParser.text
  simp only
  have hele : st.currentElement ≠ str "ele" := h .ele nofun
  have htime : st.currentElement ≠ str "time" := h .time nofun
  have hname : st.currentElement ≠ str "name" := h .name nofun
  rw [if_neg hele, if_neg htime, if_neg hname]

namespace Reads

variable {l l' : List GpxEvent} {P Q R : Scan L → Prop}

theorem nil : Reads [] P P := by
  rintro st hq hst evs h
  cases h
  exact ⟨st, rfl, hq, hst⟩

theorem append (h : Reads l P Q) (h' : Reads l' Q R) : Reads (l ++ l') P R := by
  intro st hq hst evs hevs
  have h₁ := List.forall₂_take l.length hevs
  have h₂ := List.forall₂_drop l.length hevs
  rw [List.take_left] at h₁
  rw [List.drop_left] at h₂
  obtain ⟨st₁, hrun₁, hq₁, hst₁⟩ := h st hq hst _ h₁
  obtain ⟨st₂, hrun₂, hq₂, hst₂⟩ := h' st₁ hq₁ hst₁ _ h₂
  refine ⟨st₂, ?_, hq₂, hst₂⟩
  rw [← List.take_append_drop l.length evs, run_append, hrun₁]
  exact hrun₂

/-- A text between elements. -/
theorem texts (t : Str) : Reads (texts t) P P := by
  unfold GPXParser.texts
  split
  · exact nil
  · intro st hq hst evs hevs
    obtain ⟨⟨event, r⟩, _, ⟨rfl, -⟩, hnil, rfl⟩ := List.forall₂_cons_left_iff.mp hevs
    obtain rfl := List.forall₂_nil_left_iff.mp hnil
    exact ⟨st, congrArg (Option.bind · _) (hq.text r), hq, hst⟩

/-- Elements between texts: each does `f` to what `P` tells. -/
theorem mixed {α σ : Type} {events : α → List GpxEvent} {f : σ → α → σ} {P : σ → Scan L → Prop}
    {l : List (Str ⊕ α)} (h : ∀ a ∈ elements l, ∀ x, Reads (events a) (P x) (P (f x a))) (x : σ) :
    Reads (mixed events l) (P x) (P ((elements l).foldl f x)) := by
  induction l generalizing x with
  | nil => exact nil
  | cons c l ih =>
    cases c with
    | inl t => exact (texts t).append (ih h x)
    | inr a =>
      have ha : a ∈ elements (.inr a :: l) := List.mem_cons_self
      exact (h a ha x).append (ih (fun b hb => h b (List.mem_cons_of_mem a hb)) _)

/-- An element: its start tag, what is in it, its end tag. -/
theorem element {name : Str} {attrs : List (Str × Str)} {inner : List GpxEvent}
    {P' Q' : Scan L → Prop} (hname : ∀ k : Field, k ≠ .desc → name ≠ k.tag)
    (hstart : ∀ st r, P st → r.localName = name → (∀ a ∈ attrs, getAttribute r a.1 = a.2) →
      ∃ st', startTag r st = some st' ∧ st'.currentElement = name ∧ P' st')
    (hinner : Reads inner P' Q')
    (hend : ∀ st r, Q' st → r.localName = name → Q (endTag r st)) :
    Reads (element name attrs inner) P Q := by
  rintro st - hst evs hevs
  obtain ⟨⟨event, r⟩, evs', ⟨rfl, hlocal, hattrs⟩, hevs', rfl⟩ := List.forall₂_cons_left_iff.mp hevs
  obtain ⟨st₁, hrun₁, hcurrent, hst₁⟩ := hstart st r hst hlocal hattrs
  have hquiet : Quiet st₁ := fun k hk => hcurrent ▸ hname k hk
  have htail : Reads [.endTag name] Q' Q := by
    rintro st₂ - hst₂ evs₂ hevs₂
    obtain ⟨⟨event, r⟩, _, ⟨rfl, hlocal⟩, hnil, rfl⟩ := List.forall₂_cons_left_iff.mp hevs₂
    obtain rfl := List.forall₂_nil_left_iff.mp hnil
    refine ⟨endTag r st₂, rfl, fun k _ => ?_, hend st₂ r hst₂ hlocal⟩
    cases k <;> exact nofun
  obtain ⟨st₂, hrun₂, hq₂, hst₂⟩ := (hinner.append htail) st₁ hquiet hst₁ evs' hevs'
  refine ⟨st₂, ?_, hq₂, hst₂⟩
  exact (congrArg (Option.bind · _) hrun₁).trans hrun₂

/-- An element that holds a text. -/
theorem field {k : Field} {t : Str} (hP : ∀ st x, P st → P { st with currentElement := x })
    (hQ : ∀ st x, Q st → Q { st with currentElement := x }) (hnone : t = [] → ∀ st, P st → Q st)
    (htext : t ≠ [] → ∀ st r, P st → st.currentElement = k.tag → r.text = t →
      ∃ st', text r st = some st' ∧ Q st') : Reads (fieldEvents (k, t)) P Q := by
  rintro st - hst evs hevs
  obtain ⟨⟨event, r⟩, evs', ⟨rfl, hlocal, -⟩, hevs', rfl⟩ := List.forall₂_cons_left_iff.mp hevs
  have hstart : handle (some .START_TAG) r st = some { st with currentElement := k.tag } := by
    change startTag r st = _
    unfold startTag
    simp only [hlocal]
    cases k <;> rfl
  have hend (st : Scan L) (hst : Q st) (evs : List Event)
      (hevs : List.Forall₂ Shows [.endTag k.tag] evs) :
      ∃ st', run st evs = some st' ∧ Quiet st' ∧ Q st' := by
    obtain ⟨⟨event, r⟩, _, ⟨rfl, hlocal⟩, hnil, rfl⟩ := List.forall₂_cons_left_iff.mp hevs
    obtain rfl := List.forall₂_nil_left_iff.mp hnil
    refine ⟨{ st with currentElement := [] }, ?_, fun k _ => by cases k <;> exact nofun, hQ st [] hst⟩
    change some (endTag r st) = _
    unfold endTag
    simp only [hlocal]
    cases k <;> rfl
  have hst₁ := hP st k.tag hst
  have hrest : ∃ st', run { st with currentElement := k.tag } evs' = some st' ∧ Quiet st' ∧ Q st' := by
    unfold GPXParser.texts at hevs'
    by_cases ht : t = []
    · rw [if_pos ht] at hevs'
      exact hend _ (hnone ht _ hst₁) evs' hevs'
    · rw [if_neg ht] at hevs'
      obtain ⟨⟨event, r'⟩, evs₂, ⟨rfl, hshown⟩, hevs₂, rfl⟩ := List.forall₂_cons_left_iff.mp hevs'
      obtain ⟨st₂, hrun, hst₂⟩ := htext ht _ r' hst₁ rfl hshown
      obtain ⟨st₃, hrun₃, hst₃⟩ := hend st₂ hst₂ evs₂ hevs₂
      exact ⟨st₃, (congrArg (Option.bind · _) hrun).trans hrun₃, hst₃⟩
  obtain ⟨st', hrun, hst'⟩ := hrest
  exact ⟨st', (congrArg (Option.bind · _) hstart).trans hrun, hst'⟩

end Reads

/-! ## Fields -/

theorem foldl_keeps {α σ ν : Type} {set : σ → α → σ} {g : σ → ν} (h : ∀ x c, g (set x c) = g x)
    (l : List α) (x : σ) : g (l.foldl set x) = g x := by
  induction l generalizing x with
  | nil => rfl
  | cons c l ih => exact (ih _).trans (h x c)

/-- What is stored in `g` comes from the one field of its kind. -/
theorem foldl_field {σ ν : Type} {set : σ → Field × Str → σ} {g : σ → ν} (k : Field) {upd : Str → ν}
    (hnone : ∀ x k, set x (k, []) = x) (hset : ∀ x t, t ≠ [] → g (set x (k, t)) = upd t)
    (hother : ∀ x k' t, k' ≠ k → t ≠ [] → g (set x (k', t)) = g x) {l : List (Field × Str)}
    (honce : (l.filterMap (textOf k)).length ≤ 1) (x : σ) :
    g (l.foldl set x) = ((l.filterMap (textOf k)).head?.filter (· ≠ [])).elim (g x) upd := by
  induction l generalizing x with
  | nil => rfl
  | cons c l ih =>
    obtain ⟨k', t⟩ := c
    by_cases hk : k' = k
    · subst hk
      have htext : textOf k' (k', t) = some t := if_pos rfl
      rw [List.filterMap_cons_some htext] at honce ⊢
      have hnil : l.filterMap (textOf k') = [] := by
        refine List.eq_nil_of_length_eq_zero ?_
        rw [List.length_cons] at honce
        omega
      have hrest := ih (by rw [hnil]; exact Nat.zero_le _) (set x (k', t))
      rw [hnil] at hrest
      rw [List.foldl_cons, hrest, List.head?_cons]
      by_cases ht : t = []
      · rw [ht, hnone]
        rfl
      · rw [Option.filter_some, if_pos (decide_eq_true ht)]
        exact hset x t ht
    · have htext : textOf k (k', t) = none := if_neg hk
      rw [List.filterMap_cons_none htext] at honce ⊢
      rw [List.foldl_cons, ih honce]
      by_cases ht : t = []
      · rw [ht, hnone]
      · rw [hother x k' t hk ht]

/-! ## Way points -/

/-- What a field does to a way point. -/
def setWpt (w : WayPoint L) (c : Field × Str) : WayPoint L :=
  if c.2 = [] then w
  else
    match c.1 with
    | .name => { w with name := c.2 }
    | .desc => w
    | .ele => { w with ele := L.stod c.2 }
    | .time => { w with time := some (parseDateTime (L := L) c.2) }

theorem setWpt_nil (w : WayPoint L) (k : Field) : setWpt w (k, []) = w := if_pos rfl

structure InWaypoint (gpx : GPX L) (w : WayPoint L) (st : Scan L) : Prop where
  gpx : st.gpx = gpx
  wpt : st.currentWpt = w
  flag : st.inWaypoint = true

/-- The elevation of a point is a number. -/
def Convertible (L : GpxLibrary) (c : Field × Str) : Prop :=
  c.1 = .ele → (L.stod c.2).isSome = true

theorem reads_wptField (gpx : GPX L) {c : Field × Str} (hc : Convertible L c) (w : WayPoint L) :
    Reads (fieldEvents c) (InWaypoint gpx w) (InWaypoint gpx (setWpt w c)) := by
  obtain ⟨k, t⟩ := c
  refine .field (fun _ _ h => { h with }) (fun _ _ h => { h with }) (fun ht _ h => ?_)
    fun ht st r h hcurrent hshown => ?_
  · rwa [setWpt, if_pos ht]
  · rw [setWpt, if_neg ht]
    unfold text
    simp only [hcurrent, hshown, h.flag, if_true]
    cases k with
    | name => exact ⟨_, rfl, h.gpx, congrArg (fun w => { w with name := t }) h.wpt, rfl⟩
    | desc => exact ⟨st, rfl, h⟩
    | ele =>
      obtain ⟨ele, hele⟩ := Option.isSome_iff_exists.mp (hc rfl)
      refine ⟨_, congrArg (Option.map _) hele, h.gpx, ?_, rfl⟩
      simp only [hele]
      exact congrArg (fun w => { w with ele := some ele }) h.wpt
    | time =>
      exact ⟨_, rfl, h.gpx, congrArg (fun w => { w with time := some (parseDateTime (L := L) t) }) h.wpt, rfl⟩

attribute [ext] WayPoint TrackPoint Track GPX

theorem filter_getD (o : Option Str) : (o.filter (· ≠ [])).elim [] id = o.getD [] := by
  cases o with
  | none => rfl
  | some t =>
    by_cases ht : t = []
    · rw [ht]
      rfl
    · rw [Option.filter_some, if_pos (decide_eq_true ht)]
      rfl

namespace PointTree

variable (p : PointTree L)

theorem mem_of_field {k : Field} {t : Str} (h : p.field k = some t) : (k, t) ∈ elements p.children := by
  obtain ⟨c, hc, ht⟩ := List.mem_filterMap.mp (List.mem_of_mem_head? h)
  unfold textOf at ht
  split at ht
  · next hk =>
    obtain rfl : c = (k, t) := Prod.ext hk (Option.some.inj ht)
    exact hc
  · cases ht

/-- What is stored of a number. -/
theorem filter_bind {β : Type} {k : Field} (hk : ∀ t, (k, t) ∈ elements p.children → t ≠ [])
    (f : Str → Option β) : ((p.field k).filter (· ≠ [])).elim none f = (p.field k).bind f := by
  cases hfield : p.field k with
  | none => rfl
  | some t =>
    rw [Option.filter_some, if_pos (decide_eq_true (hk t (p.mem_of_field hfield)))]
    rfl

theorem filter_map {β : Type} {k : Field} (hk : ∀ t, (k, t) ∈ elements p.children → t ≠ [])
    (f : Str → β) :
    ((p.field k).filter (· ≠ [])).elim none (fun t => some (f t)) = (p.field k).map f :=
  (p.filter_bind hk _).trans (Option.map_eq_bind ..).symm

/-- What is stored of a way point: all but its description. -/
theorem foldl_setWpt : (elements p.children).foldl setWpt { lat := p.lat.value, lon := p.lon.value } =
    { p.wayPoint with desc := [] } := by
  have hkeep {ν : Type} {g : WayPoint L → ν} (h : ∀ w (c : Field × Str), g (setWpt w c) = g w) :=
    foldl_keeps h (elements p.children) ({ lat := p.lat.value, lon := p.lon.value } : WayPoint L)
  have hfield {ν : Type} {g : WayPoint L → ν} (k : Field) {upd : Str → ν}
      (hset : ∀ w t, t ≠ [] → g (setWpt w (k, t)) = upd t)
      (hother : ∀ w k' t, k' ≠ k → t ≠ [] → g (setWpt w (k', t)) = g w) :=
    foldl_field k setWpt_nil hset hother (p.once k) { lat := p.lat.value, lon := p.lon.value }
  ext1
  · exact hkeep fun w c => by unfold setWpt; (repeat' split) <;> rfl
  · exact hkeep fun w c => by unfold setWpt; (repeat' split) <;> rfl
  · refine (hfield .time (fun w t ht => ?_) fun w k t hk ht => ?_).trans (p.filter_map p.time _)
    · rw [setWpt, if_neg ht]
    · rw [setWpt, if_neg ht]
      cases k <;> first | rfl | exact absurd rfl hk
  · refine (hfield .ele (fun w t ht => ?_) fun w k t hk ht => ?_).trans
      (p.filter_bind (fun t ht => (p.ele t ht).1) _)
    · rw [setWpt, if_neg ht]
    · rw [setWpt, if_neg ht]
      cases k <;> first | rfl | exact absurd rfl hk
  · refine (hfield .name (fun w t ht => ?_) fun w k t hk ht => ?_).trans (filter_getD _)
    · rw [setWpt, if_neg ht]
      rfl
    · rw [setWpt, if_neg ht]
      cases k <;> first | rfl | exact absurd rfl hk
  · exact hkeep fun w c => by unfold setWpt; (repeat' split) <;> rfl

end PointTree

/-- Between the elements of the document. -/
structure AtTop (gpx : GPX L) (st : Scan L) : Prop where
  gpx : st.gpx = gpx
  flag : st.inWaypoint = false

theorem number_stod (n : Number L) : L.stod n.text = some n.value := (Option.some_get n.isNumber).symm

theorem PointTree.stod_attributes (p : PointTree L) {r : XmlPullParser}
    (h : ∀ a ∈ [(str "lat", p.lat.text), (str "lon", p.lon.text)], getAttribute r a.1 = a.2) :
    L.stod (getAttribute r (str "lat")) = some p.lat.value ∧
      L.stod (getAttribute r (str "lon")) = some p.lon.value := by
  have hlat : getAttribute r (str "lat") = p.lat.text := h _ List.mem_cons_self
  have hlon : getAttribute r (str "lon") = p.lon.text :=
    h _ (List.mem_cons_of_mem _ List.mem_cons_self)
  rw [hlat, hlon]
  exact ⟨number_stod p.lat, number_stod p.lon⟩

/-- What is stored of a way point. -/
def addWaypoint (gpx : GPX L) (p : PointTree L) : GPX L :=
  { gpx with waypoints := gpx.waypoints ++ [{ p.wayPoint with desc := [] }] }

theorem reads_wpt (p : PointTree L) (gpx : GPX L) :
    Reads (p.events (str "wpt")) (AtTop gpx) (AtTop (addWaypoint gpx p)) := by
  have hfields := Reads.mixed (l := p.children) (fun c hc w => reads_wptField gpx
    (fun hk => (p.ele c.2 (by rwa [← hk])).2) w) { lat := p.lat.value, lon := p.lon.value }
  rw [p.foldl_setWpt] at hfields
  refine .element (fun k _ => by cases k <;> decide) (fun st r h hlocal hattrs => ?_) hfields
    fun st r h hlocal => ?_
  · obtain ⟨hlat, hlon⟩ := p.stod_attributes hattrs
    refine ⟨{ st with
      currentElement := str "wpt"
      inWaypoint := true
      currentWpt := { lat := p.lat.value, lon := p.lon.value } }, ?_, rfl, h.gpx, rfl, rfl⟩
    unfold startTag
    simp only [hlocal, hlat, hlon]
    rfl
  · unfold endTag
    simp only [hlocal]
    exact ⟨by rw [addWaypoint, ← h.gpx, ← h.wpt]; rfl, rfl⟩

/-! ## Tracks -/

/-- What a field does to a track point; a name goes to the track while `in_track` is up. -/
def setTrkpt (b : Bool) (x : Track L × TrackPoint L) (c : Field × Str) : Track L × TrackPoint L :=
  if c.2 = [] then x
  else
    match c.1 with
    | .name => if b then ({ x.1 with name := c.2 }, x.2) else x
    | .desc => x
    | .ele => (x.1, { x.2 with ele := L.stod c.2 })
    | .time => (x.1, { x.2 with time := some (parseDateTime (L := L) c.2) })

theorem setTrkpt_nil (b : Bool) (x : Track L × TrackPoint L) (k : Field) :
    setTrkpt b x (k, []) = x := if_pos rfl

/-- In a track, whose `in_track` is `b`. -/
structure InTrack (gpx : GPX L) (b : Bool) (t : Track L) (st : Scan L) : Prop where
  gpx : st.gpx = gpx
  track : st.currentTrack = t
  flag : st.inTrack = b
  waypoint : st.inWaypoint = false

structure InSegment (gpx : GPX L) (b : Bool) (x : Track L × TrackSegment L) (st : Scan L) : Prop where
  inTrack : InTrack gpx b x.1 st
  segment : st.currentSeg = x.2

structure InTrackPoint (gpx : GPX L) (b : Bool) (seg : TrackSegment L) (x : Track L × TrackPoint L)
    (st : Scan L) : Prop where
  inSegment : InSegment gpx b (x.1, seg) st
  point : st.currentPt = x.2
  flag : st.inTrkpoint = true

theorem InTrack.element {gpx : GPX L} {b : Bool} {t : Track L} {st : Scan L} (h : InTrack gpx b t st)
    (x : Str) : InTrack gpx b t { st with currentElement := x } := { h with }

theorem InTrackPoint.element {gpx : GPX L} {b : Bool} {seg : TrackSegment L}
    {x : Track L × TrackPoint L} {st : Scan L} (h : InTrackPoint gpx b seg x st) (y : Str) :
    InTrackPoint gpx b seg x { st with currentElement := y } :=
  ⟨⟨h.inSegment.inTrack.element y, h.inSegment.segment⟩, h.point, h.flag⟩

theorem reads_trkptField (gpx : GPX L) (b : Bool) (seg : TrackSegment L) {c : Field × Str}
    (hc : Convertible L c) (x : Track L × TrackPoint L) :
    Reads (fieldEvents c) (InTrackPoint gpx b seg x) (InTrackPoint gpx b seg (setTrkpt b x c)) := by
  obtain ⟨k, t⟩ := c
  refine .field (fun _ y h => h.element y) (fun _ y h => h.element y) (fun ht _ h => ?_)
    fun ht st r h hcurrent hshown => ?_
  · rwa [setTrkpt, if_pos ht]
  · rw [setTrkpt, if_neg ht]
    obtain ⟨⟨⟨rfl, htrack, rfl, hway⟩, hseg⟩, hpt, hflag⟩ := h
    unfold text
    simp only [hcurrent, hshown, hflag, hway, Bool.false_eq_true, if_false, if_true]
    cases k with
    | name =>
      by_cases hb : st.inTrack = true
      · rw [if_pos hb, if_pos hb]
        have hnamed := congrArg (fun x : Track L => { x with name := t }) htrack
        exact ⟨_, rfl, ⟨⟨rfl, hnamed, rfl, rfl⟩, hseg⟩, hpt, rfl⟩
      · rw [if_neg hb, if_neg hb]
        exact ⟨st, rfl, ⟨⟨rfl, htrack, rfl, hway⟩, hseg⟩, hpt, hflag⟩
    | desc => exact ⟨st, rfl, ⟨⟨rfl, htrack, rfl, hway⟩, hseg⟩, hpt, hflag⟩
    | ele =>
      obtain ⟨ele, hele⟩ := Option.isSome_iff_exists.mp (hc rfl)
      refine ⟨_, congrArg (Option.map _) hele, ⟨⟨rfl, htrack, rfl, rfl⟩, hseg⟩, ?_, rfl⟩
      simp only [hele]
      exact congrArg (fun x => { x with ele := some ele }) hpt
    | time =>
      have htimed := congrArg
        (fun x : TrackPoint L => { x with time := some (parseDateTime (L := L) t) }) hpt
      exact ⟨_, rfl, ⟨⟨rfl, htrack, rfl, rfl⟩, hseg⟩, htimed, rfl⟩

namespace PointTree

variable (p : PointTree L)

/-- The name that the track has behind the point. -/
def heard (b : Bool) (name : Str) : Str :=
  if b then ((p.field .name).filter (· ≠ [])).getD name else name

/-- What is stored of a track point. -/
theorem foldl_setTrkpt (b : Bool) (t : Track L) :
    (elements p.children).foldl (setTrkpt b) (t, { lat := p.lat.value, lon := p.lon.value }) =
      ({ t with name := p.heard b t.name }, p.trackPoint) := by
  have hkeep {ν : Type} {g : Track L × TrackPoint L → ν}
      (h : ∀ x (c : Field × Str), g (setTrkpt b x c) = g x) :=
    foldl_keeps h (elements p.children) (t, { lat := p.lat.value, lon := p.lon.value })
  have hfield {ν : Type} {g : Track L × TrackPoint L → ν} (k : Field) {upd : Str → ν}
      (hset : ∀ x s, s ≠ [] → g (setTrkpt b x (k, s)) = upd s)
      (hother : ∀ x k' s, k' ≠ k → s ≠ [] → g (setTrkpt b x (k', s)) = g x) :=
    foldl_field k (setTrkpt_nil b) hset hother (p.once k) (t, { lat := p.lat.value, lon := p.lon.value })
  refine Prod.ext (Track.ext ?_ ?_) (TrackPoint.ext ?_ ?_ ?_ ?_)
  · cases b with
    | false =>
      refine hkeep (g := fun x => x.1.name) fun x c => ?_
      unfold setTrkpt
      (repeat' split) <;> first | rfl | contradiction
    | true =>
      have hname : ((elements p.children).foldl (setTrkpt true)
          (t, { lat := p.lat.value, lon := p.lon.value })).1.name =
            ((p.field .name).filter (· ≠ [])).elim t.name id := by
        refine hfield (g := fun x => x.1.name) .name (fun x s hs => ?_) fun x k s hk hs => ?_
        · rw [setTrkpt, if_neg hs]
          rfl
        · rw [setTrkpt, if_neg hs]
          cases k <;> first | rfl | exact absurd rfl hk
      refine hname.trans ?_
      change _ = ((p.field .name).filter (· ≠ [])).getD t.name
      cases (p.field .name).filter (· ≠ []) <;> rfl
  · refine hkeep (g := fun x => x.1.segments) fun x c => ?_
    unfold setTrkpt
    (repeat' split) <;> rfl
  · refine hkeep (g := fun x => x.2.lat) fun x c => ?_
    unfold setTrkpt
    (repeat' split) <;> rfl
  · refine hkeep (g := fun x => x.2.lon) fun x c => ?_
    unfold setTrkpt
    (repeat' split) <;> rfl
  · refine (hfield (g := fun x => x.2.time) .time (fun x s hs => ?_) fun x k s hk hs => ?_).trans
      (p.filter_map p.time _)
    · rw [setTrkpt, if_neg hs]
    · rw [setTrkpt, if_neg hs]
      cases k <;> cases b <;> first | rfl | exact absurd rfl hk
  · refine (hfield (g := fun x => x.2.ele) .ele (fun x s hs => ?_) fun x k s hk hs => ?_).trans
      (p.filter_bind (fun t ht => (p.ele t ht).1) _)
    · rw [setTrkpt, if_neg hs]
    · rw [setTrkpt, if_neg hs]
      cases k <;> cases b <;> first | rfl | exact absurd rfl hk

end PointTree

/-- What a point adds to its track and its segment. -/
def addPoint (b : Bool) (x : Track L × TrackSegment L) (p : PointTree L) : Track L × TrackSegment L :=
  ({ x.1 with name := p.heard b x.1.name }, { points := x.2.points ++ [p.trackPoint] })

theorem reads_trkpt (p : PointTree L) (gpx : GPX L) (b : Bool) (x : Track L × TrackSegment L) :
    Reads (p.events (str "trkpt")) (InSegment gpx b x) (InSegment gpx b (addPoint b x p)) := by
  have hfields := Reads.mixed (l := p.children) (fun c hc y => reads_trkptField gpx b x.2
    (fun hk => (p.ele c.2 (by rwa [← hk])).2) y)
    (x.1, { lat := p.lat.value, lon := p.lon.value })
  rw [p.foldl_setTrkpt] at hfields
  refine .element (fun k _ => by cases k <;> decide) (fun st r h hlocal hattrs => ?_) hfields
    fun st r h hlocal => ?_
  · obtain ⟨hlat, hlon⟩ := p.stod_attributes hattrs
    refine ⟨{ st with
      currentElement := str "trkpt"
      inTrkpoint := true
      currentPt := { lat := p.lat.value, lon := p.lon.value } }, ?_, rfl,
      ⟨⟨h.inTrack.gpx, h.inTrack.track, h.inTrack.flag, h.inTrack.waypoint⟩, h.segment⟩, rfl, rfl⟩
    unfold startTag
    simp only [hlocal, hlat, hlon]
    rfl
  · have htrack := h.inSegment.inTrack
    unfold endTag
    simp only [hlocal]
    refine ⟨⟨htrack.gpx, htrack.track, htrack.flag, htrack.waypoint⟩, ?_⟩
    have hsegment : st.currentSeg = x.2 := h.inSegment.segment
    have hpoint : st.currentPt = p.trackPoint := h.point
    change ({ points := st.currentSeg.points ++ [st.currentPt] } : TrackSegment L) = _
    rw [hsegment, hpoint, addPoint]

namespace SegmentTree

variable (s : SegmentTree L)

/-- The name that the track has behind the segment. -/
def heard (b : Bool) (name : Str) : Str := s.points.foldl (fun name p => p.heard b name) name

theorem foldl_addPoint (b : Bool) (t : Track L) : s.points.foldl (addPoint b) (t, {}) =
    ({ t with name := s.heard b t.name }, s.value) := by
  have hpoints (l : List (PointTree L)) (x : Track L × TrackSegment L) : l.foldl (addPoint b) x =
      ({ x.1 with name := l.foldl (fun name p => p.heard b name) x.1.name },
        { points := x.2.points ++ l.map PointTree.trackPoint }) := by
    induction l generalizing x with
    | nil => rw [List.map_nil, List.append_nil]; rfl
    | cons p l ih =>
      rw [List.foldl_cons, ih, List.map_cons, List.foldl_cons, addPoint, List.append_assoc]
      rfl
  exact hpoints _ _

end SegmentTree

theorem reads_trkseg (s : SegmentTree L) {gpx : GPX L} {b : Bool} (t : Track L) :
    Reads s.events (InTrack gpx b t) (InTrack gpx false
      { name := s.heard b t.name, segments := t.segments ++ [s.value] }) := by
  have hpoints := Reads.mixed (l := s.children) (fun p _ x => reads_trkpt p gpx b x) (t, {})
  rw [← SegmentTree.points, s.foldl_addPoint] at hpoints
  refine .element (fun k _ => by cases k <;> decide) (fun st r h hlocal _ => ?_) hpoints
    fun st r h hlocal => ?_
  · refine ⟨{ st with currentElement := str "trkseg", inTrkseg := true, currentSeg := {} }, ?_, rfl,
      ⟨h.gpx, h.track, h.flag, h.waypoint⟩, rfl⟩
    unfold startTag
    simp only [hlocal]
    rfl
  · have htrack := h.inTrack
    unfold endTag
    simp only [hlocal]
    refine ⟨htrack.gpx, ?_, rfl, htrack.waypoint⟩
    have hcurrent : st.currentTrack = { t with name := s.heard b t.name } := htrack.track
    have hsegment : st.currentSeg = s.value := h.segment
    change ({ st.currentTrack with segments := st.currentTrack.segments ++ [st.currentSeg] } : Track L) = _
    rw [hcurrent, hsegment]

/-- What a child adds to its track, whose `in_track` is the flag. -/
def addChild (x : Track L × Bool) : TrackChild L → Track L × Bool
  | .name t => (if t = [] ∨ x.2 = false then x.1 else { x.1 with name := t }, x.2)
  | .segment s =>
    ({ name := s.heard x.2 x.1.name, segments := x.1.segments ++ [s.value] }, false)

theorem reads_trackName (t : Str) {gpx : GPX L} (x : Track L × Bool) :
    Reads (fieldEvents (.name, t)) (InTrack gpx x.2 x.1)
      (InTrack gpx x.2 (addChild x (.name t)).1) := by
  refine .field (fun _ y h => h.element y) (fun _ y h => h.element y) (fun ht _ h => ?_)
    fun ht st r h hcurrent hshown => ?_
  · rwa [addChild, if_pos (.inl ht)]
  · have htext : text r st = if st.inTrack = true then
        some { st with currentTrack := { st.currentTrack with name := t } } else some st := by
      rw [← hshown]
      unfold text
      simp only [hcurrent, h.waypoint]
      rfl
    cases hflag : st.inTrack with
    | false =>
      have hadd : (addChild x (.name t)).1 = x.1 := if_pos (.inr (h.flag.symm.trans hflag))
      rw [hadd]
      exact ⟨st, htext.trans (if_neg (by rw [hflag]; exact Bool.false_ne_true)), h⟩
    | true =>
      have hx : ¬ (t = [] ∨ x.2 = false) := by
        rw [← h.flag, hflag]
        simp [ht]
      have hadd : (addChild x (.name t)).1 = { x.1 with name := t } := if_neg hx
      rw [hadd]
      refine ⟨_, htext.trans (if_pos hflag), h.gpx, ?_, h.flag, h.waypoint⟩
      exact congrArg (fun x : Track L => { x with name := t }) h.track

theorem reads_trackChild (c : TrackChild L) {gpx : GPX L} (x : Track L × Bool) :
    Reads c.events (InTrack gpx x.2 x.1) (InTrack gpx (addChild x c).2 (addChild x c).1) := by
  cases c with
  | name t => exact reads_trackName t x
  | segment s => exact reads_trkseg s x.1

/-- What is stored of a track. -/
def TrackTree.stored (t : TrackTree L) : Track L := ((elements t.children).foldl addChild ({}, true)).1

def addTrack (gpx : GPX L) (t : TrackTree L) : GPX L := { gpx with tracks := gpx.tracks ++ [t.stored] }

theorem reads_trk (t : TrackTree L) (gpx : GPX L) :
    Reads t.events (AtTop gpx) (AtTop (addTrack gpx t)) := by
  have hchildren := Reads.mixed (l := t.children) (P := fun x => InTrack gpx x.2 x.1)
    (fun c _ x => reads_trackChild c x) ({}, true)
  refine .element (fun k _ => by cases k <;> decide) (fun st r h hlocal _ => ?_) hchildren
    fun st r h hlocal => ?_
  · refine ⟨{ st with currentElement := str "trk", inTrack := true, currentTrack := {} }, ?_, rfl,
      h.gpx, rfl, rfl, h.flag⟩
    unfold startTag
    simp only [hlocal]
    rfl
  · unfold endTag
    simp only [hlocal]
    refine ⟨?_, h.waypoint⟩
    have htrack : st.currentTrack = t.stored := h.track
    change ({ st.gpx with tracks := st.gpx.tracks ++ [st.currentTrack] } : GPX L) = _
    rw [htrack, h.gpx, addTrack]

/-! ## Documents -/

def addGpxChild (gpx : GPX L) : GpxChild L → GPX L
  | .wpt p => addWaypoint gpx p
  | .trk t => addTrack gpx t

/-- What is stored of a document. -/
def GpxTree.stored (d : GpxTree L) (gpx : GPX L) : GPX L where
  creator := d.creator
  waypoints := gpx.waypoints ++ d.waypoints.map fun p => { p.wayPoint with desc := [] }
  tracks := gpx.tracks ++ d.tracks.map TrackTree.stored

theorem GpxTree.foldl_addGpxChild (d : GpxTree L) (gpx : GPX L) :
    (elements d.children).foldl addGpxChild { gpx with creator := d.creator } = d.stored gpx := by
  unfold GpxTree.stored waypoints tracks
  generalize elements d.children = l
  induction l generalizing gpx with
  | nil =>
    simp only [List.filterMap_nil, List.map_nil, List.append_nil]
    rfl
  | cons c l ih =>
    cases c with
    | wpt p =>
      have hrest := ih (addWaypoint gpx p)
      simp only [addWaypoint, List.append_assoc] at hrest
      exact hrest
    | trk t =>
      have hrest := ih (addTrack gpx t)
      simp only [addTrack, List.append_assoc] at hrest
      exact hrest

/-- **What a run over the events of a tree stores.** -/
theorem run_gpxTree (d : GpxTree L) (gpx : GPX L) {evs : List Event}
    (h : List.Forall₂ Shows d.events evs) :
    (run { gpx := gpx } evs).map Scan.gpx = some (d.stored gpx) := by
  have hchild (c : GpxChild L) (x : GPX L) : Reads c.events (AtTop x) (AtTop (addGpxChild x c)) := by
    cases c with
    | wpt p => exact reads_wpt p x
    | trk t => exact reads_trk t x
  have hchildren := Reads.mixed (l := d.children) (P := AtTop) (fun c _ => hchild c)
    { gpx with creator := d.creator }
  rw [d.foldl_addGpxChild] at hchildren
  have hreads : Reads d.events (AtTop gpx) (AtTop (d.stored gpx)) := by
    refine .element (fun k _ => by cases k <;> decide) (fun st r h hlocal hattrs => ?_) hchildren
      fun st r h hlocal => ?_
    · have hcreator : getAttribute r (str "creator") = d.creator := hattrs _ List.mem_cons_self
      refine ⟨{ st with
        currentElement := str "gpx"
        gpx := { st.gpx with creator := d.creator } }, ?_, rfl, by rw [h.gpx], h.flag⟩
      unfold startTag
      simp only [hlocal, hcreator]
      rfl
    · unfold endTag
      simp only [hlocal]
      exact ⟨h.gpx, h.flag⟩
  obtain ⟨st, hrun, -, hst⟩ := hreads { gpx := gpx } (fun k _ => by cases k <;> exact nofun) ⟨rfl, rfl⟩ evs h
  rw [hrun, Option.map_some, hst.gpx]

/-! ## What is kept -/

/-- The name of a point that is not empty. -/
def PointTree.named (p : PointTree L) : Option Str := (p.field .name).filter (· ≠ [])

theorem SegmentTree.heard_true (s : SegmentTree L) (name : Str) :
    s.heard true name = (s.points.filterMap PointTree.named).getLast?.getD name := by
  unfold SegmentTree.heard
  generalize s.points = l
  induction l generalizing name with
  | nil => rfl
  | cons p l ih =>
    rw [List.foldl_cons, ih]
    have hheard : p.heard true name = p.named.getD name := rfl
    rw [hheard]
    cases hnamed : p.named with
    | none => rw [List.filterMap_cons_none hnamed, Option.getD_none]
    | some x => rw [List.filterMap_cons_some hnamed, List.getLast?_cons, Option.getD_some, Option.getD_some]

theorem SegmentTree.heard_false (s : SegmentTree L) (name : Str) : s.heard false name = name :=
  foldl_keeps (g := fun x : Str => x) (fun _ _ => rfl) s.points name

/-- Behind the first segment only segments are stored. -/
theorem foldl_addChild_false (l : List (TrackChild L)) (t : Track L) :
    (l.foldl addChild (t, false)).1 =
      { t with segments := t.segments ++ (l.filterMap TrackChild.segment?).map SegmentTree.value } := by
  induction l generalizing t with
  | nil => rw [List.filterMap_nil, List.map_nil, List.append_nil]; rfl
  | cons c l ih =>
    cases c with
    | name x =>
      have hadd : addChild (t, false) (.name x) = (t, false) := Prod.ext (if_pos (.inr rfl)) rfl
      rw [List.foldl_cons, hadd, ih]
      rfl
    | segment s =>
      have hadd : addChild (t, false) (.segment s) =
          ({ t with segments := t.segments ++ [s.value] }, false) := by
        rw [addChild, s.heard_false]
      rw [List.foldl_cons, hadd, ih, List.append_assoc]
      rfl

/-- The children before the first segment. -/
def before (l : List (TrackChild L)) : List (TrackChild L) := l.takeWhile fun c => c.segment?.isNone

/-- The name that is stored for a track. -/
theorem foldl_addChild_true (l : List (TrackChild L)) (honce : (l.filterMap TrackChild.name?).length ≤ 1)
    (t : Track L) :
    (l.foldl addChild (t, true)).1 = {
      name :=
        match l.filterMap TrackChild.segment? with
        | [] => ((l.filterMap TrackChild.name?).head?.filter (· ≠ [])).getD t.name
        | s :: _ => s.heard true ((((before l).filterMap TrackChild.name?).head?.filter (· ≠ [])).getD t.name)
      segments := t.segments ++ (l.filterMap TrackChild.segment?).map SegmentTree.value } := by
  induction l generalizing t with
  | nil => exact Track.ext rfl (List.append_nil _).symm
  | cons c l ih =>
    cases c with
    | name x =>
      have hnames : l.filterMap TrackChild.name? = [] := by
        refine List.eq_nil_of_length_eq_zero ?_
        have hlength : (l.filterMap TrackChild.name?).length + 1 ≤ 1 := honce
        omega
      have hadd : addChild (t, true) (.name x) =
          ({ t with name := (Option.filter (· ≠ []) (some x)).getD t.name }, true) := by
        by_cases hx : x = []
        · rw [addChild, if_pos (.inl hx), hx]
          rfl
        · rw [addChild, if_neg (by simp [hx]), Option.filter_some, if_pos (decide_eq_true hx)]
          rfl
      have hbefore : (before l).filterMap TrackChild.name? = [] := by
        refine List.filterMap_eq_nil_iff.mpr fun c hc => ?_
        exact List.filterMap_eq_nil_iff.mp hnames c (List.takeWhile_subset _ hc)
      rw [List.foldl_cons, hadd, ih (by rw [hnames]; exact Nat.zero_le _), hnames, hbefore]
      refine Track.ext ?_ rfl
      change _ = (match l.filterMap TrackChild.segment? with
        | [] => ((x :: l.filterMap TrackChild.name?).head?.filter (· ≠ [])).getD t.name
        | s :: _ => s.heard true
          (((x :: (before l).filterMap TrackChild.name?).head?.filter (· ≠ [])).getD t.name))
      rw [hnames, hbefore]
      rfl
    | segment s =>
      have hadd : addChild (t, true) (.segment s) =
          ({ name := s.heard true t.name, segments := t.segments ++ [s.value] }, false) := rfl
      rw [List.foldl_cons, hadd, foldl_addChild_false]
      exact Track.ext rfl (List.append_assoc ..)

/-- The name of the track is the last name in its first segment, or stands before it. -/
def TrackTree.KeepsName (t : TrackTree L) : Prop :=
  match t.segments with
  | [] => True
  | s :: _ =>
    match (s.points.filterMap PointTree.named).getLast? with
    | some name => t.name = name
    | none => t.name = [] ∨ .name t.name ∈ before (elements t.children)

theorem filter_getD_nil (o : Option Str) : (o.filter (· ≠ [])).getD [] = o.getD [] := by
  refine Eq.trans ?_ (filter_getD o)
  cases o.filter (· ≠ []) <;> rfl

theorem TrackTree.stored_eq_iff (t : TrackTree L) : t.stored = t.value ↔ t.KeepsName := by
  have hstored := foldl_addChild_true (elements t.children) t.once {}
  have hsegments : t.stored.segments = t.value.segments := by
    have hsegments := congrArg Track.segments hstored
    exact hsegments
  have hname : t.stored.name = match t.segments with
      | [] => (((elements t.children).filterMap TrackChild.name?).head?.filter (· ≠ [])).getD []
      | s :: _ => s.heard true
        ((((before (elements t.children)).filterMap TrackChild.name?).head?.filter (· ≠ [])).getD []) := by
    have hname := congrArg Track.name hstored
    exact hname
  have hiff : t.stored = t.value ↔ t.stored.name = t.name :=
    ⟨fun h => congrArg Track.name h, fun h => Track.ext h hsegments⟩
  rw [hiff, hname, KeepsName]
  cases t.segments with
  | nil => exact ⟨fun _ => trivial, fun _ => filter_getD_nil _⟩
  | cons s _ =>
    simp only [s.heard_true, filter_getD_nil]
    cases (s.points.filterMap PointTree.named).getLast? with
    | some x => exact eq_comm
    | none =>
      rw [Option.getD_none]
      cases hbefore : ((before (elements t.children)).filterMap TrackChild.name?).head? with
      | none =>
        have hnil := List.head?_eq_none_iff.mp hbefore
        refine ⟨fun h => .inl h.symm, fun h => (h.resolve_right fun hmem => ?_).symm⟩
        cases List.filterMap_eq_nil_iff.mp hnil _ hmem
      | some x =>
        obtain ⟨c, hc, hx⟩ := List.mem_filterMap.mp (List.mem_of_mem_head? hbefore)
        have hmem : x ∈ (elements t.children).filterMap TrackChild.name? :=
          List.mem_filterMap.mpr ⟨c, List.takeWhile_subset _ hc, hx⟩
        have hx' : x = t.name := by
          unfold TrackTree.name
          have honce := t.once
          generalize (elements t.children).filterMap TrackChild.name? = names at hmem honce
          match names, hmem, honce with
          | [y], hmem, _ => exact List.mem_singleton.mp hmem
        have hchild : c = .name t.name := by
          cases c with
          | name y => rw [← hx', ← Option.some.inj hx]
          | segment _ => cases hx
        exact ⟨fun _ => .inr (hchild ▸ hc), fun _ => hx'⟩

/-- **The structure is kept**: the run over the events of the tree stores the tree. -/
def Yields (d : GpxTree L) (gpx : GPX L) : Prop :=
  ∀ evs, List.Forall₂ Shows d.events evs → (run { gpx := gpx } evs).map Scan.gpx = some (d.value gpx)

/-- No way point has a description, and each track keeps its name. -/
structure Plain (d : GpxTree L) : Prop where
  desc : ∀ p ∈ d.waypoints, p.wayPoint.desc = []
  name : ∀ t ∈ d.tracks, t.KeepsName

theorem GpxTree.stored_eq_iff (d : GpxTree L) (gpx : GPX L) :
    d.stored gpx = d.value gpx ↔ Plain d := by
  have hway (p : PointTree L) : ({ p.wayPoint with desc := [] } : WayPoint L) = p.wayPoint ↔
      p.wayPoint.desc = [] :=
    ⟨fun h => (congrArg WayPoint.desc h).symm, fun h => WayPoint.ext rfl rfl rfl rfl rfl h.symm⟩
  constructor
  · intro h
    have hwaypoints := List.append_cancel_left (congrArg GPX.waypoints h)
    have htracks := List.append_cancel_left (congrArg GPX.tracks h)
    exact ⟨fun p hp => (hway p).mp (List.map_inj_left.mp hwaypoints p hp),
      fun t ht => t.stored_eq_iff.mp (List.map_inj_left.mp htracks t ht)⟩
  · intro h
    refine GPX.ext rfl (congrArg (gpx.waypoints ++ ·) ?_) (congrArg (gpx.tracks ++ ·) ?_)
    · exact List.map_inj_left.mpr fun p hp => (hway p).mpr (h.desc p hp)
    · exact List.map_inj_left.mpr fun t ht => t.stored_eq_iff.mpr (h.name t ht)

/-! ## Readers -/

/-- Some readers show the events. -/
def Shown (l : List GpxEvent) : Prop := ∃ evs, List.Forall₂ Shows l evs

namespace Shown

variable {l l' : List GpxEvent}

theorem cons {e : GpxEvent} (ev : Event) (h : Shows e ev) (hl : Shown l) : Shown (e :: l) := by
  obtain ⟨evs, hevs⟩ := hl
  exact ⟨ev :: evs, .cons h hevs⟩

theorem append (h : Shown l) (h' : Shown l') : Shown (l ++ l') := by
  obtain ⟨evs, hevs⟩ := h
  induction hevs with
  | nil => exact h'
  | cons hshow _ ih => exact ih.cons _ hshow

theorem texts (t : Str) : Shown (texts t) := by
  unfold GPXParser.texts
  split
  · exact ⟨[], .nil⟩
  · exact cons (some .TEXT, { XmlPullParser.ofStream [] with text := t }) ⟨rfl, rfl⟩ ⟨[], .nil⟩

theorem element {attrs : List (Str × Str)} {d : Dictionary} (hd : ∀ a ∈ attrs, d[a.1]?.getD [] = a.2)
    (name : Str) (hl : Shown l) : Shown (element name attrs l) := by
  refine cons (some .START_TAG, { XmlPullParser.ofStream [] with localName := name, attributes := d })
    ⟨rfl, rfl, hd⟩ (hl.append ?_)
  exact cons (some .END_TAG, { XmlPullParser.ofStream [] with localName := name }) ⟨rfl, rfl⟩
    ⟨[], .nil⟩

theorem mixed {α : Type} {events : α → List GpxEvent} (h : ∀ a, Shown (events a)) (l : List (Str ⊕ α)) :
    Shown (mixed events l) := by
  induction l with
  | nil => exact ⟨[], .nil⟩
  | cons c l ih =>
    cases c with
    | inl t => exact (texts t).append ih
    | inr a => exact (h a).append ih

theorem bare (name : Str) (hl : Shown l) : Shown (GPXParser.element name [] l) :=
  element (d := ∅) (fun _ h => absurd h List.not_mem_nil) name hl

theorem field (c : Field × Str) : Shown (fieldEvents c) := bare _ (texts _)

theorem point (tag : Str) (p : PointTree L) : Shown (p.events tag) := by
  refine element (d := ((∅ : Dictionary).insert (str "lat") p.lat.text).insert (str "lon") p.lon.text)
    (fun a ha => ?_) tag (mixed field _)
  have hlat : str "lon" ≠ str "lat" := by decide
  rcases List.mem_cons.mp ha with rfl | ha
  · rw [Std.ExtTreeMap.getElem?_insert, if_neg (by simpa using hlat),
      Std.ExtTreeMap.getElem?_insert_self]
    rfl
  · obtain rfl := List.mem_singleton.mp ha
    rw [Std.ExtTreeMap.getElem?_insert_self]
    rfl

theorem tree (d : GpxTree L) : Shown d.events := by
  refine element (d := (∅ : Dictionary).insert (str "creator") d.creator) (fun a ha => ?_) _
    (mixed (fun c => ?_) _)
  · obtain rfl := List.mem_singleton.mp ha
    rw [Std.ExtTreeMap.getElem?_insert_self]
    rfl
  · cases c with
    | wpt p => exact point _ p
    | trk t =>
      refine bare _ (mixed (fun c => ?_) _)
      cases c with
      | name t => exact field _
      | segment s => exact bare _ (mixed (point _) _)

end Shown

/-- **The structure is kept exactly for plain trees.** -/
theorem yields_iff (d : GpxTree L) (gpx : GPX L) : Yields d gpx ↔ Plain d := by
  rw [← d.stored_eq_iff gpx]
  constructor
  · intro h
    obtain ⟨evs, hevs⟩ := Shown.tree d
    exact Option.some.inj ((run_gpxTree d gpx hevs).symm.trans (h evs hevs))
  · intro h evs hevs
    rw [run_gpxTree d gpx hevs, h]

/-- A track with an empty segment and its name behind it. -/
def lateName : GpxTree wholeNumbers where
  creator := []
  children := [.inr (.trk ⟨[.inr (.segment ⟨[]⟩), .inr (.name (str "n"))], by decide⟩)]

theorem late_name_lost : ¬ Yields lateName {} := by
  intro h
  obtain ⟨evs, hevs⟩ := Shown.tree lateName
  have hstored := Option.some.inj ((run_gpxTree lateName {} hevs).symm.trans (h evs hevs))
  have hnames := congrArg (fun g : GPX wholeNumbers => g.tracks.map Track.name) hstored
  exact absurd hnames (by decide +kernel)

end Wsrv.GPXParser
