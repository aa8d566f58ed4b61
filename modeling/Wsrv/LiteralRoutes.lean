import Wsrv.RouteSegments

/-!
# Routes of literals

`parse` copies the text of a literal, and `makeRegexFromPattern` copies it into
the expression without an escape, so that it is read as an expression there.  A
literal without operators matches itself only; a dot in a literal matches other
characters as well (`literals_exact`).
-/

namespace Wsrv.Route

open Ecma (Node Place compile runs runsAll)

/-! ## Patterns of literals -/

/-- Literal segments between slashes, with or without a slash in front and behind. -/
structure LiteralPattern where
  literals : List Str
  ne_nil : literals ≠ []
  literal : ∀ w ∈ literals, w ≠ [] ∧
    (∀ c ∈ w, c ≠ '/'.toUInt8 ∧ c ≠ '{'.toUInt8 ∧ c ≠ '}'.toUInt8) ∧ w.getLast? ≠ some '?'.toUInt8
  leading : Bool
  trailing : Bool

/-- A text without one slash in front and without one behind. -/
def trimSlashes (s : Str) : Str :=
  if (omitLeading s).getLast? = some '/'.toUInt8 then (omitLeading s).dropLast else omitLeading s

/-- The characters that begin something else than a character, but the dot. -/
def operators : Str := str "\\()[\x7b*+?|^$"

namespace LiteralPattern

def text (p : LiteralPattern) : Str :=
  (if p.leading then str "/" else []) ++ join (str "/") p.literals ++ if p.trailing then str "/" else []

/-- The path of the pattern and no other one is matched, up to one slash at either end. -/
def Exact (p : LiteralPattern) : Prop :=
  ∃ route, RouteImpl.new false p.text = some route ∧ ∀ rest,
    (route.matches ('/'.toUInt8 :: rest) ∅).1 = true ↔
      trimSlashes ('/'.toUInt8 :: rest) = trimSlashes p.text

def NoOperator (p : LiteralPattern) : Prop := ∀ w ∈ p.literals, ∀ c ∈ w, c ∉ operators

def NoDot (p : LiteralPattern) : Prop := ∀ w ∈ p.literals, '.'.toUInt8 ∉ w

/-! ## The slashes -/

theorem slash_not_mem (p : LiteralPattern) {w : Str} (hw : w ∈ p.literals) : '/'.toUInt8 ∉ w :=
  fun hm => ((p.literal w hw).2.1 _ hm).1 rfl

/-- The segments between their slashes begin and end with a literal. -/
theorem join_ends {ws : List Str} (hne : ws ≠ []) (h : ∀ w ∈ ws, w ≠ [] ∧ '/'.toUInt8 ∉ w) :
    join (str "/") ws ≠ [] ∧ (join (str "/") ws).head? ≠ some '/'.toUInt8 ∧
      (join (str "/") ws).getLast? ≠ some '/'.toUInt8 := by
  have hword {w : Str} (hw : w ≠ [] ∧ '/'.toUInt8 ∉ w) :
      w.head? ≠ some '/'.toUInt8 ∧ w.getLast? ≠ some '/'.toUInt8 :=
    ⟨fun hm => hw.2 (List.mem_of_head? hm), fun hm => hw.2 (List.mem_of_getLast? hm)⟩
  induction ws with
  | nil => exact absurd rfl hne
  | cons w ws ih =>
    obtain ⟨hw, hws⟩ := List.forall_mem_cons.mp h
    cases ws with
    | nil => exact ⟨hw.1, hword hw⟩
    | cons w' ws =>
      obtain ⟨hnil, -, hlast⟩ := ih (List.cons_ne_nil _ _) hws
      rw [join]
      · refine ⟨by simp [hw.1], ?_, ?_⟩
        · rw [List.append_assoc, List.head?_append_of_ne_nil _ hw.1]
          exact (hword hw).1
        · rwa [List.getLast?_append_of_ne_nil _ hnil]
      · simp

theorem body_ends (p : LiteralPattern) :
    join (str "/") p.literals ≠ [] ∧ (join (str "/") p.literals).head? ≠ some '/'.toUInt8 ∧
      (join (str "/") p.literals).getLast? ≠ some '/'.toUInt8 :=
  join_ends p.ne_nil fun w hw => ⟨(p.literal w hw).1, p.slash_not_mem hw⟩

theorem omitLeading_text (p : LiteralPattern) (tail : Str) :
    omitLeading ((if p.leading then str "/" else []) ++ join (str "/") p.literals ++ tail) =
      join (str "/") p.literals ++ tail := by
  obtain ⟨hnil, hhead, -⟩ := p.body_ends
  cases p.leading with
  | true => rfl
  | false =>
    rw [if_neg Bool.false_ne_true, List.nil_append, omitLeading, if_neg]
    rwa [List.head?_append_of_ne_nil _ hnil]

theorem trimSlashes_text (p : LiteralPattern) : trimSlashes p.text = join (str "/") p.literals := by
  obtain ⟨-, -, hlast⟩ := p.body_ends
  rw [trimSlashes, text, omitLeading_text]
  cases p.trailing with
  | true => simp [str]
  | false => rw [if_neg Bool.false_ne_true, List.append_nil, if_neg hlast]

theorem closePattern_text (p : LiteralPattern) :
    closePattern p.text = (if p.leading then str "/" else []) ++ join (str "/") p.literals ++ str "/" := by
  obtain ⟨hnil, -, hlast⟩ := p.body_ends
  rw [closePattern, text]
  cases p.trailing with
  | true => simp [str]
  | false =>
    rw [if_neg Bool.false_ne_true, List.append_nil, if_neg]
    · rfl
    · rwa [List.getLast?_append_of_ne_nil _ hnil]

/-- A path that is closed by a slash is the pattern up to the slashes. -/
theorem clean_iff (p : LiteralPattern) (rest : Str) :
    getCleanPath ('/'.toUInt8 :: rest) = '/'.toUInt8 :: closed p.literals ↔
      trimSlashes ('/'.toUInt8 :: rest) = trimSlashes p.text := by
  obtain ⟨hnil, -, hlast⟩ := p.body_ends
  rw [trimSlashes_text, ← join_closed p.ne_nil]
  generalize join (str "/") p.literals = body at hnil hlast
  have homit : omitLeading ('/'.toUInt8 :: rest) = rest := rfl
  rw [trimSlashes, homit, getCleanPath]
  by_cases hrest : rest.getLast? = some '/'.toUInt8
  · have hpath : ('/'.toUInt8 :: rest).getLast? = some '/'.toUInt8 := by
      rw [List.getLast?_cons, hrest]
      rfl
    obtain ⟨front, rfl⟩ := List.getLast?_eq_some_iff.mp hrest
    rw [if_pos hpath, if_pos hrest, List.dropLast_concat, List.cons.injEq,
      List.append_cancel_right_eq]
    simp
  · rw [if_neg hrest]
    cases rest with
    | nil =>
      constructor
      · intro hclosed
        rw [if_pos (by rfl), List.cons.injEq] at hclosed
        simp at hclosed
      · intro hbody
        exact absurd hbody.symm hnil
    | cons c rest =>
      rw [if_neg (by rwa [List.getLast?_cons_cons]), List.cons_append, List.cons.injEq,
        List.append_cancel_right_eq]
      simp

/-! ## The route -/

def elements (ws : List Str) : List RouteElement := ws.map fun w => ⟨[], w, false, -1⟩

theorem parseLoop_literals {ws : List Str}
    (h : ∀ w ∈ ws, ∀ c ∈ w, c ≠ '{'.toUInt8 ∧ c ≠ '/'.toUInt8) (acc : List RouteElement) :
    (parseLoop (closed ws) ⟨.element, [], [], false, 0, acc⟩).map ParseState.elements =
      some (acc ++ elements ws) := by
  induction ws generalizing acc with
  | nil => simp [closed, parseLoop, elements]
  | cons w ws ih =>
    obtain ⟨hw, hws⟩ := List.forall_mem_cons.mp h
    have hend : ∀ last, (parseStep last '/'.toUInt8 ⟨.element, [], w, false, 0, acc⟩).map
        ParseState.elements = some (acc ++ [⟨[], w, false, -1⟩]) := fun last => by
      cases last <;> rfl
    rw [closed, List.flatMap_cons, ← closed, List.append_assoc, parseLoop_literal hw (by simp),
      List.nil_append, List.singleton_append, parseLoop_cons]
    cases ws with
    | nil => exact hend true
    | cons w' ws =>
      have hstep : parseStep false '/'.toUInt8 ⟨.element, [], w, false, 0, acc⟩ =
          some ⟨.element, [], [], false, 0, acc ++ [⟨[], w, false, -1⟩]⟩ := rfl
      have hmore : (closed (w' :: ws)).isEmpty = false := by simp [closed]
      rw [hmore, hstep, Option.bind_some, ih hws, List.append_assoc]
      rfl

theorem numberCaptures_literals (n : Nat) (ws : List Str) :
    (numberCaptures n (elements ws)).1 = elements ws := by
  induction ws with
  | nil => rfl
  | cons w ws ih =>
    rw [elements, List.map_cons, ← elements, numberCaptures, if_neg (by simp)]
    exact congrArg (List.cons _) ih

/-- The route of the pattern. -/
def route (p : LiteralPattern) : RouteImpl :=
  ⟨elements p.literals, closePattern p.text, (makeRegexFromPattern (elements p.literals)).2⟩

theorem new_literals (p : LiteralPattern) : RouteImpl.new false p.text = some p.route := by
  have hparse : parse (closePattern p.text) = some (elements p.literals) := by
    have hbody : join (str "/") p.literals ++ str "/" = closed p.literals := join_closed p.ne_nil
    rw [parse, closePattern_text, omitLeading_text, hbody]
    exact parseLoop_literals (fun w hw c hc => ⟨((p.literal w hw).2.1 c hc).2.1,
      ((p.literal w hw).2.1 c hc).1⟩) []
  simp only [RouteImpl.new, hparse, Bool.false_eq_true, if_false, Option.map_some, route,
    makeRegexFromPattern, numberCaptures_literals]

/-! ## The expression -/

/-- What a character stands for in an expression where it is no operator. -/
def classOf (c : UInt8) : UInt8 → Bool := if c = '.'.toUInt8 then Ecma.anyChar else (· == c)

theorem tokenOf_class {c : UInt8} (h : c ∉ operators) : Ecma.tokenOf c = .char (classOf c) := by
  have hne : ∀ d ∈ operators, c ≠ d := fun d hd hcd => h (hcd ▸ hd)
  unfold Ecma.tokenOf
  iterate 11 rw [if_neg (hne _ (by decide))]
  unfold classOf
  split <;> rfl

/-- The expression of the literals is the word of their characters and the slashes. -/
theorem runsAll_literals {ws : List Str} (h : ∀ w ∈ ws, w ≠ [] ∧ ∀ c ∈ w, c ∉ operators) :
    ∃ es : List (RouteElement × Node UInt8), es.map Prod.fst = elements ws ∧ Compiled es ∧
      ∀ n x, runsAll (elementNodes n es) x =
        runsAll (((closed ws).map classOf).map Node.char) x := by
  induction ws with
  | nil => exact ⟨[], rfl, by simp [Compiled], fun n x => rfl⟩
  | cons w ws ih =>
    obtain ⟨⟨hne, hw⟩, hws⟩ := List.forall_mem_cons.mp h
    obtain ⟨es, hfst, hcompiled, hruns⟩ := ih hws
    obtain ⟨hword, hgroups⟩ := Ecma.compile_chars fun c hc => tokenOf_class (hw c hc)
    have hsub : subPattern ⟨[], w, false, -1⟩ = w := if_neg hne
    refine ⟨(⟨[], w, false, -1⟩, (w.map fun c => .char (classOf c)).foldl .seq .empty) :: es,
      ?_, ?_, fun n x => ?_⟩
    · rw [List.map_cons, hfst]
      rfl
    · exact List.forall_mem_cons.mpr ⟨by rw [hsub]; exact hword, hcompiled⟩
    · have hcount : groupsOf ⟨[], w, false, -1⟩ = 0 := by
        rw [groupsOf, if_neg (by simp), hsub, hgroups]
      have hshift : ((w.map fun c => Node.char (classOf c)).foldl Node.seq Node.empty).shift n =
          (w.map fun c => Node.char (classOf c)).foldl Node.seq Node.empty := by
        have hchars := Ecma.shift_chars (w.map classOf) .empty n
        rwa [List.map_map] at hchars
      have hletters : runs ((w.map fun c => Node.char (classOf c)).foldl Node.seq Node.empty) x =
          runsAll ((w.map classOf).map Node.char) x := by
        rw [Ecma.runs_foldl_seq, runs, List.flatMap_singleton, List.map_map]
        rfl
      have hslash : runsAll ((['/'.toUInt8].map classOf).map Node.char) =
          runs (.char (· == '/'.toUInt8)) := by
        funext y
        exact List.flatMap_singleton' _
      rw [elementNodes, hcount, elementNode, if_neg Bool.false_ne_true, innerNode,
        if_neg (by simp), hshift, runsAll, runs, runs, runs, List.flatMap_singleton, hletters, closed,
        List.flatMap_cons, ← closed, List.map_append, List.map_append, List.map_append,
        List.map_append, Ecma.runsAll_append, Ecma.runsAll_append, hslash]
      exact List.flatMap_congr fun y _ => hruns n y

/-- **What a pattern without operators matches**: the word of its characters, where a dot stands for
any character. -/
theorem matches_iff_word (p : LiteralPattern) (h : p.NoOperator) {path rest : Str}
    (hclean : getCleanPath path = '/'.toUInt8 :: rest) :
    (p.route.matches path ∅).1 = true ↔
      List.Forall₂ (fun c d => classOf c d = true) (closed p.literals) rest := by
  obtain ⟨es, hfst, hcompiled, hruns⟩ :=
    runsAll_literals fun w hw => ⟨(p.literal w hw).1, h w hw⟩
  have hrx : compile p.route.rx = some (routeNode es) := by
    rw [route, ← hfst]
    exact compile_makeRegex hcompiled
  have hword := Ecma.mem_runsAll_chars ((closed p.literals).map classOf) (behindRoot rest)
  rw [show (behindRoot rest).rest = rest from rfl, List.forall₂_map_left_iff] at hword
  rw [RouteImpl.matches, RouteImpl.matchPath, hrx, Option.bind_some, hclean, fullMatch_route, hruns,
    ← hword]
  generalize runsAll (((closed p.literals).map classOf).map Node.char) (behindRoot rest) = ys
  constructor
  · intro hmatch
    cases hys : ending ys with
    | nil => simp [hys] at hmatch
    | cons y _ =>
      have hy : y ∈ ending ys := by rw [hys]; exact List.mem_cons_self
      obtain ⟨hmem, hend⟩ := List.mem_filter.mp hy
      exact ⟨y, hmem, List.isEmpty_iff.mp hend⟩
  · rintro ⟨y, hmem, hend⟩
    have hy : y ∈ ending ys := List.mem_filter.mpr ⟨hmem, List.isEmpty_iff.mpr hend⟩
    cases hys : ending ys with
    | nil =>
      rw [hys] at hy
      cases hy
    | cons _ _ => rfl

/-! ## Dots -/

theorem dot_not_mem_closed (p : LiteralPattern) (h : p.NoDot) : '.'.toUInt8 ∉ closed p.literals := by
  intro hm
  obtain ⟨w, hw, hmem⟩ := List.mem_flatMap.mp hm
  rcases List.mem_append.mp hmem with hmem | hmem
  · exact h w hw hmem
  · exact absurd hmem (by decide)

theorem word_iff_of_noDot {s : Str} (h : '.'.toUInt8 ∉ s) (t : Str) :
    List.Forall₂ (fun c d => classOf c d = true) s t ↔ t = s := by
  have hclass {c : UInt8} (hc : c ∈ s) (d : UInt8) : classOf c d = true ↔ c = d := by
    have hne : c ≠ '.'.toUInt8 := fun he => h (he ▸ hc)
    rw [classOf, if_neg hne, beq_iff_eq, eq_comm]
  constructor
  · intro hword
    refine (List.forall₂_eq_eq_eq ▸ ?_ : s = t).symm
    exact (List.forall₂_iff_get.mp hword).elim fun hlen hget =>
      List.forall₂_iff_get.mpr ⟨hlen, fun i hi hi' => (hclass (List.get_mem s ⟨i, hi⟩) _).mp
        (hget i hi hi')⟩
  · rintro rfl
    exact List.forall₂_same.mpr fun c hc => (hclass hc c).mpr rfl

/-- A text with every dot replaced. -/
def undotted (s : Str) : Str := s.map fun c => if c = '.'.toUInt8 then 'x'.toUInt8 else c

theorem word_undotted (s : Str) :
    List.Forall₂ (fun c d => classOf c d = true) s (undotted s) := by
  rw [undotted, List.forall₂_map_right_iff, List.forall₂_same]
  intro c _
  by_cases hc : c = '.'.toUInt8
  · subst hc
    decide
  · simp [classOf, hc]

theorem undotted_getLast (p : LiteralPattern) :
    getCleanPath ('/'.toUInt8 :: undotted (closed p.literals)) =
      '/'.toUInt8 :: undotted (closed p.literals) := by
  rw [getCleanPath, if_pos]
  rw [← join_closed p.ne_nil, undotted, List.map_append, List.map_singleton, ← List.cons_append,
    List.getLast?_concat]
  rfl

theorem exact_of_plain (p : LiteralPattern) (hop : p.NoOperator) (hdot : p.NoDot) : p.Exact := by
  refine ⟨p.route, p.new_literals, fun rest => ?_⟩
  obtain ⟨rest', hclean⟩ := getCleanPath_root rest
  rw [p.matches_iff_word hop hclean, word_iff_of_noDot (p.dot_not_mem_closed hdot), ← p.clean_iff,
    hclean, List.cons.injEq]
  simp

theorem noDot_of_exact (p : LiteralPattern) (hop : p.NoOperator) (h : p.Exact) : p.NoDot := by
  intro w hw hdot
  obtain ⟨route, hnew, hexact⟩ := h
  obtain rfl := Option.some.inj (p.new_literals.symm.trans hnew)
  have hclean := p.undotted_getLast
  have hmatch := (p.matches_iff_word hop hclean).mpr (word_undotted (closed p.literals))
  have hsame := (p.clean_iff _).mpr ((hexact _).mp hmatch)
  rw [hclean, List.cons.injEq] at hsame
  -- the path has no dot left, and the pattern has one
  have hmem : '.'.toUInt8 ∈ closed p.literals :=
    List.mem_flatMap.mpr ⟨w, hw, List.mem_append_left _ hdot⟩
  rw [← hsame.2, undotted, List.mem_map] at hmem
  obtain ⟨c, -, hc⟩ := hmem
  split at hc
  · exact absurd hc (by decide)
  · rename_i hne
    exact hne hc

/-- **Literal segments match only themselves** when no character of theirs is an operator or a dot;
and without operators a dot is what it fails at. -/
theorem literals_exact (p : LiteralPattern) :
    (p.NoOperator ∧ p.NoDot → p.Exact) ∧ (p.NoOperator → p.Exact → p.NoDot) :=
  ⟨fun h => p.exact_of_plain h.1 h.2, p.noDot_of_exact⟩

/-- `/robots.txt` -/
def robots : LiteralPattern where
  literals := [str "robots.txt"]
  ne_nil := by decide
  literal := by decide +kernel
  leading := true
  trailing := false

/-- It matches `/robotsxtxt` as well. -/
theorem robots_not_exact : ¬ robots.Exact := by
  intro h
  have hdot := robots.noDot_of_exact (by unfold NoOperator; decide +kernel) h
  exact hdot (str "robots.txt") (by decide) (by decide)

end LiteralPattern

end Wsrv.Route
