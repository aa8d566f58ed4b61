import Wsrv.RouteMatch
import Wsrv.Util

/-!
# Routes as lists of segments

A pattern of literals and of parameters without an expression of their own says
which segments a path may have: one for every element, except that an optional
parameter may be left out.  `matches_iff` takes the way from the text of the
pattern over its elements and its regular expression to that statement, and says
which of the possible choices the captures are those of.
-/

namespace Wsrv.Route

open Ecma (Node Place compile runs runsAll)

/-! ## Patterns and choices -/

/-- A word of letters, digits, `-` and `_`. -/
structure Name where
  text : Str
  ne_nil : text ≠ []
  chars : ∀ c ∈ text, isNameChar c

inductive PathElement
  | literal (w : Name)
  | param (name : Name) (optional : Bool)

namespace PathElement

/-- The segment of the pattern. -/
def text : PathElement → Str
  | literal w => w.text
  | param name optional => str "\x7b" ++ name.text ++ str "\x7d" ++ if optional then str "?" else []

def name? : PathElement → Option Str
  | literal _ => none
  | param name _ => some name.text

end PathElement

/-- The elements of a pattern `/s1/.../sn`; no two parameters have the same name. -/
structure Pattern where
  elements : List PathElement
  distinct : (elements.filterMap PathElement.name?).Nodup

def Pattern.text (p : Pattern) : Str := str "/" ++ join (str "/") (p.elements.map PathElement.text)

/-- A segment of a path. -/
def IsSegment (s : Str) : Prop := s ≠ [] ∧ '/'.toUInt8 ∉ s

/-- The segments, each closed by a slash. -/
def closed (segs : List Str) : Str := segs.flatMap (· ++ ['/'.toUInt8])

/-- The segments are given out to the elements in order: exactly one to a literal, which is equal to
it, and to a mandatory parameter, and at most one to an optional parameter. -/
inductive Chooses : List PathElement → List Str → List (Option Str) → Prop
  | nil : Chooses [] [] []
  | literal {es segs cs} (w : Name) (h : Chooses es segs cs) :
      Chooses (.literal w :: es) (w.text :: segs) (some w.text :: cs)
  | param {es segs cs} (name : Name) (optional : Bool) (s : Str) (h : Chooses es segs cs) :
      Chooses (.param name optional :: es) (s :: segs) (some s :: cs)
  | skip {es segs cs} (name : Name) (h : Chooses es segs cs) :
      Chooses (.param name true :: es) segs (none :: cs)

/-- Of two choices the first fills the first element in which they differ. -/
def FillsFirst : List (Option Str) → List (Option Str) → Prop
  | some _ :: cs, some _ :: cs' | none :: cs, none :: cs' => FillsFirst cs cs'
  | none :: _, some _ :: _ => False
  | _, _ => True

/-- The choice that fills the leftmost optional elements first. -/
def Leftmost (es : List PathElement) (segs : List Str) (cs : List (Option Str)) : Prop :=
  Chooses es segs cs ∧ ∀ cs', Chooses es segs cs' → FillsFirst cs cs'

/-- The parameters that were given a segment. -/
def captured : List PathElement → List (Option Str) → List (Str × Str)
  | .param name _ :: es, some s :: cs => (name.text, s) :: captured es cs
  | _ :: es, _ :: cs => captured es cs
  | _, _ => []

/-! ## The elements of a pattern -/

/-- What `parse` makes of the elements, where the parameters are numbered from `k` on. -/
def routeElements (k : Nat) : List PathElement → List RouteElement
  | [] => []
  | .literal w :: es => ⟨[], w.text, false, -1⟩ :: routeElements k es
  | .param name optional :: es => ⟨name.text, [], optional, k⟩ :: routeElements (k + 1) es

theorem isNameChar_plain {c : UInt8} (h : isNameChar c) :
    c ≠ '{'.toUInt8 ∧ c ≠ '}'.toUInt8 ∧ c ≠ '/'.toUInt8 ∧ c ≠ ':'.toUInt8 ∧ c ≠ '?'.toUInt8 := by
  refine ⟨?_, ?_, ?_, ?_, ?_⟩ <;> rintro rfl <;> exact absurd h (by decide)

theorem parseLoop_literal {w : Str} (hw : ∀ c ∈ w, c ≠ '{'.toUInt8 ∧ c ≠ '/'.toUInt8) {s : Str}
    (hs : s ≠ [])
    (pat : Str) (k : Nat) (acc : List RouteElement) :
    parseLoop (w ++ s) ⟨.element, [], pat, false, k, acc⟩ =
      parseLoop s ⟨.element, [], pat ++ w, false, k, acc⟩ := by
  induction w generalizing pat with
  | nil => rw [List.nil_append, List.append_nil]
  | cons c w ih =>
    obtain ⟨hopen, hslash⟩ := hw c List.mem_cons_self
    have hmore : (w ++ s).isEmpty = false := by simp [hs]
    have hstep : parseStep false c ⟨.element, [], pat, false, k, acc⟩ =
        some ⟨.element, [], pat ++ [c], false, k, acc⟩ := by
      simp [parseStep, elementStep, hopen, hslash]
    rw [List.cons_append, parseLoop_cons, hmore, hstep, Option.bind_some,
      ih (fun c hc => hw c (List.mem_cons_of_mem _ hc)), List.append_assoc, List.singleton_append]

theorem parseLoop_name {name : Str} (hname : ∀ c ∈ name, isNameChar c) (s read : Str) (k : Nat)
    (acc : List RouteElement) :
    parseLoop (name ++ s) ⟨.param, read, [], false, k, acc⟩ =
      parseLoop s ⟨.param, read ++ name, [], false, k, acc⟩ := by
  induction name generalizing read with
  | nil => rw [List.nil_append, List.append_nil]
  | cons c name ih =>
    have hc := hname c List.mem_cons_self
    obtain ⟨-, hclose, -, hcolon, -⟩ := isNameChar_plain hc
    have hstep : ∀ last, parseStep last c ⟨.param, read, [], false, k, acc⟩ =
        some ⟨.param, read ++ [c], [], false, k, acc⟩ := by
      intro last
      simp only [parseStep, paramStep, hclose, hcolon, if_false]
      exact if_pos hc
    rw [List.cons_append, parseLoop_cons, hstep, Option.bind_some,
      ih (fun c hc => hname c (List.mem_cons_of_mem _ hc)), List.append_assoc, List.singleton_append]

/-- **`parse` reads the elements of a pattern.** -/
theorem parseLoop_elements_eq (es : List PathElement) (k : Nat) (acc : List RouteElement) :
    (parseLoop (es.flatMap fun e => e.text ++ ['/'.toUInt8])
        ⟨.element, [], [], false, k, acc⟩).map ParseState.elements =
      some (acc ++ routeElements (k + 1) es) := by
  induction es generalizing k acc with
  | nil => simp [parseLoop, routeElements]
  | cons e es ih =>
    rw [List.flatMap_cons, List.append_assoc, List.singleton_append]
    cases e with
    | literal w =>
      -- the last slash of the pattern ends the literal in another branch than the others
      have hend : ∀ last, (parseStep last '/'.toUInt8 ⟨.element, [], w.text, false, k, acc⟩).map
          ParseState.elements = some (acc ++ [⟨[], w.text, false, -1⟩]) := fun last => by
        cases last <;> rfl
      have hplain : ∀ c ∈ w.text, c ≠ '{'.toUInt8 ∧ c ≠ '/'.toUInt8 := fun c hc =>
        ⟨(isNameChar_plain (w.chars c hc)).1, (isNameChar_plain (w.chars c hc)).2.2.1⟩
      rw [PathElement.text, parseLoop_literal hplain (List.cons_ne_nil _ _), List.nil_append,
        parseLoop_cons]
      cases es with
      | nil => exact hend true
      | cons e es =>
        have hstep : parseStep false '/'.toUInt8 ⟨.element, [], w.text, false, k, acc⟩ =
            some ⟨.element, [], [], false, k, acc ++ [⟨[], w.text, false, -1⟩]⟩ := rfl
        have hmore : ((e :: es).flatMap fun e => e.text ++ ['/'.toUInt8]).isEmpty = false := by simp
        rw [hmore, hstep, Option.bind_some, ih, routeElements, List.append_assoc,
          List.singleton_append]
    | param name optional =>
      have hopen (s : Str) : parseLoop ('{'.toUInt8 :: s) ⟨.element, [], [], false, k, acc⟩ =
          parseLoop s ⟨.param, [], [], false, k, acc⟩ := rfl
      have hclose (s : Str) (opt : Bool) :
          parseLoop (str "\x7d" ++ (if opt then str "?" else []) ++ '/'.toUInt8 :: s)
              ⟨.param, name.text, [], false, k, acc⟩ =
            parseLoop ('/'.toUInt8 :: s) ⟨.token, name.text, [], opt, k, acc⟩ := by
        cases opt <;> rfl
      have hend (s : Str) : parseLoop ('/'.toUInt8 :: s) ⟨.token, name.text, [], optional, k, acc⟩ =
          parseLoop s ⟨.element, [], [], false, k + 1,
            acc ++ [⟨name.text, [], optional, (k + 1 : Nat)⟩]⟩ := by
        rw [parseLoop_cons, parseStep, tokenStep, if_pos (.inl rfl)]
        simp only [name.ne_nil, if_false]
        rfl
      have htext : (PathElement.param name optional).text =
          '{'.toUInt8 :: (name.text ++ (str "\x7d" ++ if optional then str "?" else [])) := by
        rw [PathElement.text, List.append_assoc, List.append_assoc]
        rfl
      rw [htext, List.cons_append, hopen, List.append_assoc, parseLoop_name name.chars,
        List.nil_append, hclose, hend, ih, routeElements, List.append_assoc, List.singleton_append]

theorem PathElement.text_last (e : PathElement) :
    e.text ≠ [] ∧ e.text.getLast? ≠ some '/'.toUInt8 := by
  cases e with
  | literal w =>
    refine ⟨w.ne_nil, fun h => ?_⟩
    exact (isNameChar_plain (w.chars _ (List.mem_of_getLast? h))).2.2.1 rfl
  | param name optional =>
    cases optional with
    | false =>
      refine ⟨by simp [text, str], ?_⟩
      rw [text, if_neg (by decide), List.append_nil, List.getLast?_append_of_ne_nil _ (by decide)]
      decide
    | true =>
      refine ⟨by simp [text, str], ?_⟩
      rw [text, if_pos rfl, List.getLast?_append_of_ne_nil _ (by decide)]
      decide

theorem join_last {es : List PathElement} (hne : es ≠ []) :
    join (str "/") (es.map PathElement.text) ≠ [] ∧
      (join (str "/") (es.map PathElement.text)).getLast? ≠ some '/'.toUInt8 := by
  induction es with
  | nil => exact absurd rfl hne
  | cons e es ih =>
    cases es with
    | nil => exact e.text_last
    | cons e' es =>
      obtain ⟨hnil, hlast⟩ := ih (List.cons_ne_nil _ _)
      rw [List.map_cons, List.map_cons, join, List.append_assoc, ← List.map_cons]
      · refine ⟨by simp [e.text_last.1], ?_⟩
        rwa [List.getLast?_append_of_ne_nil _ (List.append_ne_nil_of_right_ne_nil _ hnil), List.getLast?_append_of_ne_nil _ hnil]
      · simp

/-- The segments between slashes, and one more slash. -/
theorem join_closed {segs : List Str} (hne : segs ≠ []) :
    join (str "/") segs ++ ['/'.toUInt8] = closed segs := by
  induction segs with
  | nil => exact absurd rfl hne
  | cons s segs ih =>
    cases segs with
    | nil => simp [join, closed]
    | cons s' segs =>
      rw [closed, List.flatMap_cons, ← closed, ← ih (List.cons_ne_nil _ _), join]
      · simp [str]
      · simp

theorem closePattern_text (p : Pattern) :
    closePattern p.text = str "/" ++ p.elements.flatMap fun e => e.text ++ ['/'.toUInt8] := by
  have hjoin (es : List PathElement) (hne : es ≠ []) :
      join (str "/") (es.map PathElement.text) ++ ['/'.toUInt8] =
        es.flatMap fun e => e.text ++ ['/'.toUInt8] := by
    rw [join_closed (by simpa using hne), closed, List.flatMap_map]
  by_cases hne : p.elements = []
  · simp [Pattern.text, hne, join, closePattern, str]
  · have hlast : p.text.getLast? ≠ some '/'.toUInt8 := by
      obtain ⟨hnil, hlast⟩ := join_last hne
      rwa [Pattern.text, List.getLast?_append_of_ne_nil _ hnil]
    rw [closePattern, if_neg hlast, Pattern.text, List.append_assoc, hjoin _ hne]

theorem numberCaptures_elements (n k : Nat) (es : List PathElement) :
    (numberCaptures n (routeElements k es)).1 = routeElements n es := by
  induction es generalizing n k with
  | nil => rfl
  | cons e es ih =>
    cases e with
    | literal w =>
      rw [routeElements, numberCaptures, if_neg (by simp), routeElements, ← ih n k]
    | param name optional =>
      rw [routeElements, numberCaptures, if_pos (by simpa using name.ne_nil), routeElements,
        ← ih (n + 1) (k + 1)]

/-- The route of a pattern. -/
def Pattern.route (p : Pattern) : RouteImpl :=
  ⟨routeElements 1 p.elements, closePattern p.text, (makeRegexFromPattern (routeElements 1 p.elements)).2⟩

/-- **The constructor makes the route of a pattern**, where assertions are enabled. -/
theorem new_pattern (p : Pattern) : RouteImpl.new false p.text = some p.route := by
  have homit : omitLeading (closePattern p.text) =
      p.elements.flatMap fun e => e.text ++ ['/'.toUInt8] := by
    rw [closePattern_text]
    rfl
  have hparse : parse (closePattern p.text) = some (routeElements 1 p.elements) := by
    rw [parse, homit]
    exact parseLoop_elements_eq p.elements 0 []
  simp only [RouteImpl.new, hparse, Bool.false_eq_true, if_false, Option.map_some, Pattern.route,
    makeRegexFromPattern, numberCaptures_elements]

/-! ## The expression of a pattern -/

/-- What a literal comes to. -/
def wordNode (w : Str) : Node UInt8 := (w.map fun a => .char (· == a)).foldl .seq .empty

/-- `[^\/]` -/
def segmentClass : UInt8 → Bool := Ecma.ClassScan.toClass
  ⟨.plain, true, fun _ => false, .single '/'.toUInt8, false⟩

/-- What the expression of a parameter comes to. -/
def segmentNode : Node UInt8 := .seq .empty (.rep 1 none true (.char segmentClass))

theorem segmentClass_eq (c : UInt8) : segmentClass c = (c != '/'.toUInt8) := by
  have hclass : segmentClass c = ((false || c == '/'.toUInt8 || (false && c == '-'.toUInt8)) != true) :=
    rfl
  rw [hclass, bne, bne]
  cases c == '/'.toUInt8 <;> rfl

theorem compile_segment : compile (str "[^\\/]+") = some segmentNode := rfl

theorem tokenOf_name {c : UInt8} (h : isNameChar c) : Ecma.tokenOf c = .char (· == c) := by
  have hne : ∀ d ∈ str "\\()[\x7b*+?|^$.", c ≠ d := by
    have hspecial : ∀ d ∈ str "\\()[\x7b*+?|^$.", ¬ isNameChar d := by decide +kernel
    rintro d hd rfl
    exact hspecial c hd h
  unfold Ecma.tokenOf
  iterate 12 rw [if_neg (hne _ (by decide))]

theorem scan_word {w : Str} (hw : ∀ c ∈ w, isNameChar c) :
    compile w = some (wordNode w) ∧ Ecma.groupCount w = 0 :=
  Ecma.compile_chars fun c hc => tokenOf_name (hw c hc)

/-- The elements of the route with what their sub-patterns come to. -/
def compiledElements (k : Nat) : List PathElement → List (RouteElement × Node UInt8)
  | [] => []
  | .literal w :: es => (⟨[], w.text, false, -1⟩, wordNode w.text) :: compiledElements k es
  | .param name optional :: es =>
    (⟨name.text, [], optional, k⟩, segmentNode) :: compiledElements (k + 1) es

theorem compiledElements_fst (k : Nat) (es : List PathElement) :
    (compiledElements k es).map Prod.fst = routeElements k es := by
  induction es generalizing k with
  | nil => rfl
  | cons e es ih => cases e <;> simp [compiledElements, routeElements, ih]

theorem compiledElements_compiled (k : Nat) (es : List PathElement) :
    Compiled (compiledElements k es) := by
  induction es generalizing k with
  | nil => exact fun _ h => nomatch h
  | cons e es ih =>
    cases e with
    | literal w =>
      refine List.forall_mem_cons.mpr ⟨?_, ih k⟩
      rw [subPattern, if_neg w.ne_nil]
      exact (scan_word w.chars).1
    | param name optional => exact List.forall_mem_cons.mpr ⟨compile_segment, ih (k + 1)⟩

/-- **The expression of a pattern.** -/
theorem compile_route (p : Pattern) :
    compile p.route.rx = some (routeNode (compiledElements 1 p.elements)) := by
  rw [Pattern.route, ← compiledElements_fst 1 p.elements]
  exact compile_makeRegex (compiledElements_compiled 1 p.elements)

/-! ## Choices in the order of the matcher -/

/-- The choices in the order in which the matcher comes to them. -/
def choices : List PathElement → List Str → List (List (Option Str))
  | [], [] => [[]]
  | [], _ :: _ => []
  | .literal w :: es, s :: segs => if s = w.text then (choices es segs).map (some s :: ·) else []
  | .literal _ :: _, [] => []
  | .param _ optional :: es, s :: segs =>
    (choices es segs).map (some s :: ·) ++
      if optional then (choices es (s :: segs)).map (none :: ·) else []
  | .param _ optional :: es, [] => if optional then (choices es []).map (none :: ·) else []

theorem mem_choices {es : List PathElement} {segs : List Str} {cs : List (Option Str)} :
    cs ∈ choices es segs ↔ Chooses es segs cs := by
  constructor
  · intro h
    induction es generalizing segs cs with
    | nil =>
      cases segs with
      | nil =>
        obtain rfl := List.mem_singleton.mp h
        exact .nil
      | cons s segs => cases h
    | cons e es ih =>
      cases e with
      | literal w =>
        cases segs with
        | nil => cases h
        | cons s segs =>
          rw [choices] at h
          split_ifs at h with hs
          · obtain ⟨cs, hcs, rfl⟩ := List.mem_map.mp h
            subst hs
            exact .literal w (ih hcs)
          · cases h
      | param name optional =>
        have hskip {segs : List Str} {cs : List (Option Str)}
            (h : cs ∈ if optional then (choices es segs).map (none :: ·) else []) :
            Chooses (.param name optional :: es) segs cs := by
          cases optional with
          | false => cases h
          | true =>
            obtain ⟨cs, hcs, rfl⟩ := List.mem_map.mp h
            exact .skip name (ih hcs)
        cases segs with
        | nil => exact hskip h
        | cons s segs =>
          rcases List.mem_append.mp h with h | h
          · obtain ⟨cs, hcs, rfl⟩ := List.mem_map.mp h
            exact .param name optional s (ih hcs)
          · exact hskip h
  · intro h
    induction h with
    | nil => exact List.mem_singleton.mpr rfl
    | literal w h ih =>
      rw [choices, if_pos rfl]
      exact List.mem_map_of_mem ih
    | param name optional s h ih => exact List.mem_append_left _ (List.mem_map_of_mem ih)
    | @skip es segs cs name h ih =>
      have hmem : none :: cs ∈ (choices es segs).map (none :: ·) := List.mem_map_of_mem ih
      cases segs with
      | nil => simpa [choices] using hmem
      | cons s segs => exact List.mem_append_right _ (by simpa using hmem)

theorem head?_map_cons {c : Option Str} {css : List (List (Option Str))} {cs : List (Option Str)}
    (h : (css.map (c :: ·)).head? = some cs) : ∃ cs', css.head? = some cs' ∧ cs = c :: cs' := by
  rw [List.head?_map] at h
  obtain ⟨cs', hcs', rfl⟩ := Option.map_eq_some_iff.mp h
  exact ⟨cs', hcs', rfl⟩

theorem choices_head_first {es : List PathElement} {segs : List Str} {cs cs' : List (Option Str)}
    (h : (choices es segs).head? = some cs) (h' : Chooses es segs cs') : FillsFirst cs cs' := by
  induction h' generalizing cs with
  | nil =>
    obtain rfl := Option.some.inj h
    trivial
  | literal w h' ih =>
    rw [choices, if_pos rfl] at h
    obtain ⟨cs₀, hcs₀, rfl⟩ := head?_map_cons h
    exact ih hcs₀
  | @param es segs cs' name optional s h' ih =>
    obtain ⟨first, hfirst⟩ : ∃ first, (choices es segs).head? = some first :=
      Option.isSome_iff_exists.mp (by simpa using List.ne_nil_of_mem (mem_choices.mpr h'))
    rw [choices, List.head?_append, List.head?_map, hfirst] at h
    obtain rfl := Option.some.inj h
    exact ih hfirst
  | @skip es segs cs' name h' ih =>
    cases segs with
    | nil =>
      rw [choices, if_pos rfl] at h
      obtain ⟨cs₀, hcs₀, rfl⟩ := head?_map_cons h
      exact ih hcs₀
    | cons s segs =>
      rw [choices, if_pos rfl, List.head?_append, List.head?_map] at h
      cases hfill : (choices es segs).head? with
      | some cs₀ =>
        rw [hfill] at h
        obtain rfl := Option.some.inj h
        trivial
      | none =>
        rw [hfill, Option.map_none, Option.none_or] at h
        obtain ⟨cs₀, hcs₀, rfl⟩ := head?_map_cons h
        exact ih hcs₀

/-- **The first of them** fills the leftmost optional elements first. -/
theorem choices_head {es : List PathElement} {segs : List Str} {cs : List (Option Str)}
    (h : (choices es segs).head? = some cs) : Leftmost es segs cs :=
  ⟨mem_choices.mp (List.mem_of_head? h), fun _ => choices_head_first h⟩

/-! ## The matcher on segments -/

/-- The matcher stands before these segments. -/
structure Stands (x : Place UInt8) (segs : List Str) : Prop where
  rest : x.rest = closed segs
  segments : ∀ s ∈ segs, IsSegment s

theorem closed_cons (s : Str) (segs : List Str) :
    closed (s :: segs) = s ++ '/'.toUInt8 :: closed segs := by
  simp [closed]

theorem Stands.advance {x : Place UInt8} {s : Str} {segs : List Str} (h : Stands x (s :: segs)) :
    Stands (x.advance (s.length + 1)) segs := by
  refine ⟨?_, fun t ht => h.segments t (List.mem_cons_of_mem _ ht)⟩
  rw [Place.advance_rest, h.rest, closed_cons, ← List.drop_drop, List.drop_left, List.drop_one,
    List.tail_cons]

theorem segmentClass_of_ne {s : Str} (h : '/'.toUInt8 ∉ s) : ∀ c ∈ s, segmentClass c = true := by
  intro c hc
  rw [segmentClass_eq, bne_iff_ne]
  exact fun heq => h (heq ▸ hc)

theorem segmentClass_slash : segmentClass '/'.toUInt8 = false := by decide

/-- The class takes what is in front of the first slash. -/
theorem takeWhile_segment {s : Str} (hs : '/'.toUInt8 ∉ s) (t : Str) :
    (s ++ '/'.toUInt8 :: t).takeWhile segmentClass = s ∧
      (s ++ '/'.toUInt8 :: t).dropWhile segmentClass = '/'.toUInt8 :: t := by
  have hall := segmentClass_of_ne hs
  rw [List.takeWhile_append_of_pos hall, List.dropWhile_append_of_pos hall,
    List.takeWhile_cons_of_neg (by rw [segmentClass_slash]; decide), List.append_nil,
    List.dropWhile_cons_of_neg (by rw [segmentClass_slash]; decide)]
  exact ⟨rfl, rfl⟩

theorem runs_empty_seq (r : Node UInt8) (x : Place UInt8) : runs (.seq .empty r) x = runs r x := by
  simp [runs]

/-- What a parameter without an expression of its own matches. -/
def paramNode (i : Nat) : Node UInt8 := .seq (.seq .empty (.group i segmentNode)) (.char (· == '/'.toUInt8))

theorem runs_paramNode (i : Nat) (x : Place UInt8) :
    runs (paramNode i) x =
      if x.rest.takeWhile segmentClass ≠ [] ∧
          (x.rest.dropWhile segmentClass).head? = some '/'.toUInt8 then
        [(x.advance ((x.rest.takeWhile segmentClass).length + 1)).capture i
          (x.rest.takeWhile segmentClass)]
      else [] := by
  have hgroup : runs (.group i segmentNode) x =
      runs (.group i (.rep 1 none true (.char segmentClass))) x := by
    rw [segmentNode, runs, runs_empty_seq, runs]
  rw [← Ecma.runs_class_until segmentClass_slash, paramNode, runs, runs_empty_seq, hgroup, ← runs]

/-- A parameter takes the segment at the front. -/
theorem runs_param {x : Place UInt8} {s : Str} {segs : List Str} (h : Stands x (s :: segs))
    (i : Nat) : runs (paramNode i) x = [(x.advance (s.length + 1)).capture i s] := by
  obtain ⟨hne, hslash⟩ := h.segments s List.mem_cons_self
  obtain ⟨htake, hdrop⟩ := takeWhile_segment hslash (closed segs)
  rw [runs_paramNode, h.rest, closed_cons, htake, hdrop, if_pos ⟨hne, rfl⟩]

theorem runs_param_end {x : Place UInt8} (h : x.rest = []) (i : Nat) : runs (paramNode i) x = [] := by
  rw [runs_paramNode, h]
  rfl

theorem runs_wordNode (w : Str) (x : Place UInt8) :
    runs (.seq (.seq .empty (wordNode w)) (.char (· == '/'.toUInt8))) x =
      if w ++ ['/'.toUInt8] <+: x.rest then [x.advance (w.length + 1)] else [] := by
  have hlen : w.length + 1 = (w ++ ['/'.toUInt8]).length := by simp
  rw [hlen, ← Ecma.runsAll_word, List.map_append, Ecma.runsAll_append, runs, runs_empty_seq, wordNode,
    Ecma.runs_foldl_seq]
  simp [runs, runsAll]

/-- A literal takes the segment at the front where they are equal. -/
theorem runs_literal {x : Place UInt8} {s : Str} {segs : List Str} (h : Stands x (s :: segs))
    {w : Str} (hw : '/'.toUInt8 ∉ w) :
    runs (.seq (.seq .empty (wordNode w)) (.char (· == '/'.toUInt8))) x =
      if s = w then [x.advance (s.length + 1)] else [] := by
  obtain ⟨hne, hslash⟩ := h.segments s List.mem_cons_self
  have hpre : w ++ ['/'.toUInt8] <+: x.rest ↔ s = w := by
    rw [h.rest, closed_cons]
    constructor
    · rintro ⟨t, ht⟩
      rw [List.append_assoc, List.singleton_append] at ht
      rw [← (takeWhile_segment hslash (closed segs)).1, ← ht, (takeWhile_segment hw t).1]
    · rintro rfl
      exact ⟨closed segs, by rw [List.append_assoc, List.singleton_append]⟩
  rw [runs_wordNode]
  by_cases hs : s = w
  · rw [if_pos (hpre.mpr hs), if_pos hs, hs]
  · rw [if_neg fun hp => hs (hpre.mp hp), if_neg hs]

theorem runs_literal_end {x : Place UInt8} (h : x.rest = []) (w : Str) :
    runs (.seq (.seq .empty (wordNode w)) (.char (· == '/'.toUInt8))) x = [] := by
  rw [runs_wordNode, h, if_neg (by simp)]

/-- The captures of a choice; the parameters are the groups from `n + 1` on. -/
def fill (n : Nat) : List PathElement → List (Option Str) → Ecma.Captures UInt8 → Ecma.Captures UInt8
  | .literal _ :: es, _ :: cs, caps => fill n es cs caps
  | .param _ _ :: es, some s :: cs, caps => fill (n + 1) es cs (Function.update caps (n + 1) (some s))
  | .param _ _ :: es, none :: cs, caps => fill (n + 1) es cs caps
  | _, _, caps => caps

/-- The first element of a list, and the groups before the others. -/
theorem elementNodes_literal (n k : Nat) (w : Name) (es : List PathElement) :
    elementNodes n (compiledElements k (.literal w :: es)) =
      .seq (.seq .empty (wordNode w.text)) (.char (· == '/'.toUInt8)) ::
        elementNodes n (compiledElements k es) := by
  have hgroups : groupsOf ⟨[], w.text, false, -1⟩ = 0 := by
    rw [groupsOf, if_neg (by simp), subPattern, if_neg w.ne_nil, (scan_word w.chars).2]
  have hshift : (wordNode w.text).shift n = wordNode w.text := by
    have hchars := Ecma.shift_chars (w.text.map fun a b => b == a) .empty n
    rwa [List.map_map] at hchars
  rw [compiledElements, elementNodes, hgroups, elementNode, if_neg Bool.false_ne_true, innerNode,
    if_neg (by simp), hshift]
  rfl

theorem elementNodes_param (n k : Nat) (name : Name) (optional : Bool) (es : List PathElement) :
    elementNodes n (compiledElements k (.param name optional :: es)) =
      (if optional then .rep 0 (some 1) true (paramNode (n + 1)) else paramNode (n + 1)) ::
        elementNodes (n + 1) (compiledElements (k + 1) es) := by
  have hgroups : groupsOf ⟨name.text, [], optional, k⟩ = 1 := by
    rw [groupsOf, if_pos name.ne_nil]
    rfl
  rw [compiledElements, elementNodes, hgroups, elementNode, innerNode, if_pos name.ne_nil]
  rfl

/-- An optional parameter takes the segment at the front, or else nothing. -/
theorem runs_optional {x : Place UInt8} {segs : List Str} (h : Stands x segs) (i : Nat) :
    runs (.rep 0 (some 1) true (paramNode i)) x = runs (paramNode i) (x.reset [i]) ++ [x] := by
  have hgroups : (paramNode i).groups = [i] := rfl
  rw [Ecma.runs_optional, hgroups]
  rw [hgroups]
  intro y hy
  cases segs with
  | nil =>
    rw [runs_param_end (x := x.reset [i]) (h.rest.trans rfl)] at hy
    cases hy
  | cons s segs =>
    have hreset : Stands (x.reset [i]) (s :: segs) := ⟨h.rest, h.segments⟩
    rw [runs_param hreset, List.mem_singleton] at hy
    have hlen : y.rest.length = (closed segs).length := by rw [hy]; exact congrArg _ hreset.advance.rest
    rw [hlen, h.rest, closed_cons, List.length_append, List.length_cons]
    omega

/-- **The matcher goes through the choices**, and captures the segments of each. -/
theorem runs_elements (es : List PathElement) {n k : Nat} {x : Place UInt8} {segs : List Str}
    (h : Stands x segs) :
    (ending (runsAll (elementNodes n (compiledElements k es)) x)).map Place.caps =
      (choices es segs).map fun cs => fill n es cs x.caps := by
  induction es generalizing n k x segs with
  | nil =>
    cases segs with
    | nil =>
      have hrest : x.rest.isEmpty = true := by rw [h.rest]; rfl
      simp [elementNodes, compiledElements, runsAll, ending, hrest, choices, fill]
    | cons s segs =>
      have hrest : x.rest.isEmpty = false := by rw [h.rest, closed_cons]; simp
      simp [elementNodes, compiledElements, runsAll, ending, hrest, choices]
  | cons e es ih =>
    cases e with
    | literal w =>
      have hw : '/'.toUInt8 ∉ w.text := fun hm => (isNameChar_plain (w.chars _ hm)).2.2.1 rfl
      rw [elementNodes_literal, runsAll]
      cases segs with
      | nil => rw [runs_literal_end h.rest]; rfl
      | cons s segs =>
        rw [runs_literal h hw, choices]
        by_cases hs : s = w.text
        · rw [if_pos hs, if_pos hs, List.flatMap_cons, List.flatMap_nil, List.append_nil,
            ih h.advance, List.map_map]
          rfl
        · rw [if_neg hs, if_neg hs]
          rfl
    | param name optional =>
      have htake {y : Place UInt8} {s : Str} {segs : List Str} (hy : Stands y (s :: segs))
          (hcaps : Function.update y.caps (n + 1) (some s) = Function.update x.caps (n + 1) (some s)) :
          (ending ((runs (paramNode (n + 1)) y).flatMap
              (runsAll (elementNodes (n + 1) (compiledElements (k + 1) es))))).map Place.caps =
            ((choices es segs).map (some s :: ·)).map fun cs =>
              fill n (.param name optional :: es) cs x.caps := by
        have hstands : Stands ((y.advance (s.length + 1)).capture (n + 1) s) segs :=
          ⟨hy.advance.rest, hy.advance.segments⟩
        have hfill : ((y.advance (s.length + 1)).capture (n + 1) s).caps =
            Function.update x.caps (n + 1) (some s) := hcaps
        rw [runs_param hy, List.flatMap_cons, List.flatMap_nil, List.append_nil, ih hstands, hfill,
          List.map_map]
        rfl
      rw [elementNodes_param, runsAll]
      cases optional with
      | false =>
        rw [if_neg Bool.false_ne_true]
        cases segs with
        | nil => rw [runs_param_end h.rest]; rfl
        | cons s segs => rw [htake h rfl, choices, if_neg Bool.false_ne_true, List.append_nil]
      | true =>
        have hskip : (ending (([x]).flatMap
            (runsAll (elementNodes (n + 1) (compiledElements (k + 1) es))))).map Place.caps =
              ((choices es segs).map (none :: ·)).map fun cs =>
                fill n (.param name true :: es) cs x.caps := by
          rw [List.flatMap_singleton, ih h, List.map_map]
          rfl
        rw [if_pos rfl, runs_optional h, List.flatMap_append, ending, List.filter_append,
          List.map_append, ← ending, ← ending, hskip]
        cases segs with
        | nil =>
          rw [runs_param_end (x := x.reset [n + 1]) h.rest, choices, if_pos rfl]
          rfl
        | cons s segs =>
          have hreset : Function.update (x.reset [n + 1]).caps (n + 1) (some s) =
              Function.update x.caps (n + 1) (some s) := by
            funext i
            by_cases hi : i = n + 1
            · simp [hi]
            · simp [Place.reset, hi]
          rw [htake (y := x.reset [n + 1]) ⟨h.rest, h.segments⟩ hreset, choices, if_pos rfl,
            List.map_append]

/-- What the elements match is a list of segments. -/
theorem runs_segments (es : List PathElement) {n k : Nat} {x y : Place UInt8}
    (h : y ∈ runsAll (elementNodes n (compiledElements k es)) x) :
    ∃ segs, (∀ s ∈ segs, IsSegment s) ∧ x.rest = closed segs ++ y.rest := by
  induction es generalizing n k x with
  | nil =>
    obtain rfl := List.mem_singleton.mp h
    exact ⟨[], by simp, rfl⟩
  | cons e es ih =>
    have hfront {i : Nat} {x z : Place UInt8} (hz : z ∈ runs (paramNode i) x) :
        ∃ s, IsSegment s ∧ x.rest = s ++ '/'.toUInt8 :: z.rest := by
      rw [runs_paramNode] at hz
      split_ifs at hz with hcut
      · obtain rfl := List.mem_singleton.mp hz
        refine ⟨x.rest.takeWhile segmentClass, ⟨hcut.1, fun hm => ?_⟩, ?_⟩
        · have hclass := List.mem_takeWhile_imp hm
          rw [segmentClass_slash] at hclass
          cases hclass
        · obtain ⟨t, ht⟩ := List.head?_eq_some_iff.mp hcut.2
          have hsplit := List.takeWhile_append_dropWhile (p := segmentClass) (l := x.rest)
          rw [ht] at hsplit
          have hdrop := congrArg (List.drop ((x.rest.takeWhile segmentClass).length + 1)) hsplit
          rw [← List.drop_drop, List.drop_left, List.drop_one, List.tail_cons] at hdrop
          rw [Place.capture_rest, Place.advance_rest, ← hdrop, hsplit]
      · cases hz
    have hcons {z : Place UInt8} {n k : Nat}
        (hz : x.rest = z.rest ∨ ∃ s, IsSegment s ∧ x.rest = s ++ '/'.toUInt8 :: z.rest)
        (hy : y ∈ runsAll (elementNodes n (compiledElements k es)) z) :
        ∃ segs, (∀ s ∈ segs, IsSegment s) ∧ x.rest = closed segs ++ y.rest := by
      obtain ⟨segs, hsegs, hrest⟩ := ih hy
      rcases hz with hz | ⟨s, hs, hz⟩
      · exact ⟨segs, hsegs, hz.trans hrest⟩
      · exact ⟨s :: segs, List.forall_mem_cons.mpr ⟨hs, hsegs⟩, by
          rw [hz, hrest, closed_cons, List.append_assoc, List.cons_append]⟩
    cases e with
    | literal w =>
      have hw : '/'.toUInt8 ∉ w.text := fun hm => (isNameChar_plain (w.chars _ hm)).2.2.1 rfl
      rw [elementNodes_literal, runsAll, runs_wordNode] at h
      obtain ⟨z, hz, hy⟩ := List.mem_flatMap.mp h
      split_ifs at hz with hpre
      · obtain rfl := List.mem_singleton.mp hz
        obtain ⟨t, ht⟩ := hpre
        refine hcons (.inr ⟨w.text, ⟨w.ne_nil, hw⟩, ?_⟩) hy
        rw [Place.advance_rest, ← ht, List.append_assoc, List.singleton_append, ← List.drop_drop,
          List.drop_left, List.drop_one, List.tail_cons]
      · cases hz
    | param name optional =>
      rw [elementNodes_param, runsAll] at h
      obtain ⟨z, hz, hy⟩ := List.mem_flatMap.mp h
      cases optional with
      | false => exact hcons (.inr (hfront hz)) hy
      | true =>
        rcases Ecma.mem_runs_optional hz with rfl | hz
        · exact hcons (.inl rfl) hy
        · obtain ⟨s, hs, hrest⟩ := hfront hz
          exact hcons (.inr ⟨s, hs, hrest⟩) hy

/-! ## The dictionary of a match -/

theorem fill_other (es : List PathElement) {n i : Nat} (hi : i ≤ n) (cs : List (Option Str))
    (caps : Ecma.Captures UInt8) : fill n es cs caps i = caps i := by
  induction es generalizing n cs caps with
  | nil => rfl
  | cons e es ih =>
    rcases cs with _ | ⟨c, cs⟩
    · cases e <;> rfl
    cases e with
    | literal w => exact ih hi cs caps
    | param name optional =>
      cases c with
      | none => exact ih (Nat.le_succ_of_le hi) cs caps
      | some s =>
        rw [fill, ih (Nat.le_succ_of_le hi), Function.update_of_ne (by omega)]

/-- The captures of a choice are stored under the names of their parameters. -/
theorem storeCaptures_fill {es : List PathElement} {segs : List Str} {cs : List (Option Str)}
    (h : Chooses es segs cs) (hsegs : ∀ s ∈ segs, IsSegment s) (n : Nat)
    {caps : Ecma.Captures UInt8} (hcaps : ∀ i, n < i → caps i = none) (vars : Dictionary) :
    storeCaptures (fill n es cs caps) (routeElements (n + 1) es) vars =
      (captured es cs).foldl (fun vars kv => vars.insert kv.1 kv.2) vars := by
  induction h generalizing n caps vars with
  | nil => rfl
  | literal w h ih =>
    rw [routeElements, storeCaptures, if_neg (show ¬ (0 : Int) < -1 by decide)]
    exact ih (fun s hs => hsegs s (List.mem_cons_of_mem _ hs)) n hcaps vars
  | @param es segs cs name optional s h ih =>
    have hs := hsegs s List.mem_cons_self
    have hidx : (0 : Int) < ((n + 1 : Nat) : Int) := by omega
    have hval : fill n (.param name optional :: es) (some s :: cs) caps (n + 1) = some s := by
      rw [fill, fill_other es (Nat.le_refl _), Function.update_self]
    have hother : ∀ i, n + 1 < i → Function.update caps (n + 1) (some s) i = none := by
      intro i hi
      rw [Function.update_of_ne (by omega), hcaps i (by omega)]
    rw [routeElements, storeCaptures, if_pos hidx, Int.toNat_natCast, hval, captured, List.foldl_cons,
      ← ih (fun s hs => hsegs s (List.mem_cons_of_mem _ hs)) (n + 1) hother]
    simp only [Option.getD_some, ne_eq, hs.1, not_false_eq_true, if_true]
    rfl
  | @skip es segs cs name h ih =>
    have hidx : (0 : Int) < ((n + 1 : Nat) : Int) := by omega
    have hval : fill n (.param name true :: es) (none :: cs) caps (n + 1) = none := by
      rw [fill, fill_other es (Nat.le_refl _), hcaps _ (Nat.lt_succ_self n)]
    rw [routeElements, storeCaptures, if_pos hidx, Int.toNat_natCast, hval]
    exact ih hsegs (n + 1) (fun i hi => hcaps i (by omega)) vars

/-- The names that were given a segment are among those of the pattern, in order. -/
theorem captured_sublist (es : List PathElement) (cs : List (Option Str)) :
    ((captured es cs).map Prod.fst).Sublist (es.filterMap PathElement.name?) := by
  induction es generalizing cs with
  | nil => exact List.nil_sublist _
  | cons e es ih =>
    rcases cs with _ | ⟨c, cs⟩
    · cases e <;> exact List.nil_sublist _
    cases e with
    | literal w => exact ih cs
    | param name optional =>
      cases c with
      | none => exact (ih cs).trans (List.sublist_cons_self _ _)
      | some s => exact (ih cs).cons_cons name.text

/-- With different names nothing is overwritten. -/
theorem getElem?_captured (p : Pattern) (cs : List (Option Str)) (name value : Str) :
    ((captured p.elements cs).foldl (fun vars kv => vars.insert kv.1 kv.2) (∅ : Dictionary))[name]? =
        some value ↔ (name, value) ∈ captured p.elements cs := by
  have hnodup : ((captured p.elements cs).map Prod.fst).Nodup :=
    (captured_sublist p.elements cs).nodup p.distinct
  rcases foldl_insert_getElem? (captured p.elements cs) ∅ name with ⟨h, hne⟩ | ⟨v, h, hmem⟩
  · rw [h]
    refine iff_of_false (by simp) fun hmem => hne _ hmem rfl
  · rw [h, Option.some.injEq]
    constructor
    · rintro rfl
      exact hmem
    · intro hmem'
      have heq := List.inj_on_of_nodup_map hnodup hmem hmem' rfl
      exact (Prod.mk.inj heq).2

/-! ## The match of a pattern -/

/-- A path that begins with a slash keeps it. -/
theorem getCleanPath_root (rest : Str) : ∃ rest', getCleanPath ('/'.toUInt8 :: rest) = '/'.toUInt8 :: rest' := by
  unfold getCleanPath
  split_ifs
  · exact ⟨rest, rfl⟩
  · exact ⟨rest ++ ['/'.toUInt8], rfl⟩

theorem matches_route (p : Pattern) {path rest : Str} (h : getCleanPath path = '/'.toUInt8 :: rest)
    (vars : Dictionary) :
    p.route.matches path vars =
      match ((ending (runsAll (elementNodes 0 (compiledElements 1 p.elements)) (behindRoot rest))).map
          Place.caps).head? with
      | some results => (true, storeCaptures results (routeElements 1 p.elements) vars)
      | none => (false, vars) := by
  rw [RouteImpl.matches, RouteImpl.matchPath, compile_route, Option.bind_some, h, fullMatch_route]
  rfl

/-- A path of segments matches with the first choice, if there is one. -/
theorem matches_segments (p : Pattern) {path rest : Str} (h : getCleanPath path = '/'.toUInt8 :: rest)
    {segs : List Str} (hrest : rest = closed segs) (hsegs : ∀ s ∈ segs, IsSegment s) :
    p.route.matches path ∅ =
      match (choices p.elements segs).head? with
      | some cs => (true, (captured p.elements cs).foldl (fun vars kv => vars.insert kv.1 kv.2) ∅)
      | none => (false, ∅) := by
  have hstands : Stands (behindRoot rest) segs := ⟨hrest, hsegs⟩
  rw [matches_route p h, runs_elements p.elements hstands, List.head?_map]
  cases hfirst : (choices p.elements segs).head? with
  | none => rfl
  | some cs =>
    exact congrArg (true, ·) (storeCaptures_fill (choices_head hfirst).1 hsegs 0 (fun _ _ => rfl) ∅)

/-- Only a path of segments matches. -/
theorem segments_of_match (p : Pattern) {path rest : Str}
    (h : getCleanPath path = '/'.toUInt8 :: rest) {vars : Dictionary}
    (hmatch : (p.route.matches path vars).1 = true) :
    ∃ segs, (∀ s ∈ segs, IsSegment s) ∧ rest = closed segs := by
  rw [matches_route p h] at hmatch
  generalize hys : ending (runsAll (elementNodes 0 (compiledElements 1 p.elements)) (behindRoot rest)) =
    ys at hmatch
  cases ys with
  | nil => cases hmatch
  | cons y ys =>
    have hmem : y ∈ ending
        (runsAll (elementNodes 0 (compiledElements 1 p.elements)) (behindRoot rest)) := by
      rw [hys]
      exact List.mem_cons_self
    obtain ⟨hrun, hend⟩ := List.mem_filter.mp hmem
    obtain ⟨segs, hsegs, hrest⟩ := runs_segments p.elements hrun
    rw [List.isEmpty_iff.mp hend, List.append_nil] at hrest
    exact ⟨segs, hsegs, hrest⟩

/-- **A path matches a pattern** if and only if it is, with its final slash, a list of segments that
can be given out to the elements; the dictionary then holds what the parameters were given, where the
leftmost optional parameters are filled first, and nothing else. -/
theorem matches_iff (p : Pattern) (rest : Str) :
    ∃ route, RouteImpl.new false p.text = some route ∧
      ((route.matches ('/'.toUInt8 :: rest) ∅).1 = true ↔
        ∃ segs cs, getCleanPath ('/'.toUInt8 :: rest) = '/'.toUInt8 :: closed segs ∧
          (∀ s ∈ segs, IsSegment s) ∧ Chooses p.elements segs cs) ∧
      ((route.matches ('/'.toUInt8 :: rest) ∅).1 = true →
        ∃ segs cs, getCleanPath ('/'.toUInt8 :: rest) = '/'.toUInt8 :: closed segs ∧
          (∀ s ∈ segs, IsSegment s) ∧ Leftmost p.elements segs cs ∧
          ∀ name value, (route.matches ('/'.toUInt8 :: rest) ∅).2[name]? = some value ↔
            (name, value) ∈ captured p.elements cs) := by
  obtain ⟨rest', hclean⟩ := getCleanPath_root rest
  refine ⟨p.route, new_pattern p, ?_⟩
  have hmatch : (p.route.matches ('/'.toUInt8 :: rest) ∅).1 = true →
      ∃ segs cs, getCleanPath ('/'.toUInt8 :: rest) = '/'.toUInt8 :: closed segs ∧
        (∀ s ∈ segs, IsSegment s) ∧ Leftmost p.elements segs cs ∧
        ∀ name value, (p.route.matches ('/'.toUInt8 :: rest) ∅).2[name]? = some value ↔
          (name, value) ∈ captured p.elements cs := by
    intro h
    obtain ⟨segs, hsegs, hrest⟩ := segments_of_match p hclean h
    rw [matches_segments p hclean hrest hsegs] at h ⊢
    cases hfirst : (choices p.elements segs).head? with
    | none =>
      rw [hfirst] at h
      cases h
    | some cs =>
      exact ⟨segs, cs, by rw [hclean, hrest], hsegs, choices_head hfirst, getElem?_captured p cs⟩
  refine ⟨⟨fun h => ?_, ?_⟩, hmatch⟩
  · obtain ⟨segs, cs, hpath, hsegs, hleft, -⟩ := hmatch h
    exact ⟨segs, cs, hpath, hsegs, hleft.1⟩
  · rintro ⟨segs, cs, hpath, hsegs, hcs⟩
    have hrest : rest' = closed segs := by
      rw [hclean] at hpath
      exact (List.cons.inj hpath).2
    rw [matches_segments p hclean hrest hsegs]
    cases hfirst : (choices p.elements segs).head? with
    | some cs' => rfl
    | none =>
      have hmem := mem_choices.mpr hcs
      rw [List.head?_eq_none_iff.mp hfirst] at hmem
      cases hmem

end Wsrv.Route
