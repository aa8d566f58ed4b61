import Wsrv.LiteralRoutes
import Wsrv.Lib.EcmaContext

/-!
# Captures and parameters

The indices of the parameters are counted in `parse`, and the groups of the
expression are numbered over all sub-patterns.  An expression with a group of its
own moves the groups behind it, so that a later parameter is given the capture of
another group, and one with a look-ahead sees the slash behind its segment.
`captures_belong` says what keeps the captures and the parameters together, and
that the values then are those of the segments the path was taken apart into.
-/

namespace Wsrv.Route

open Ecma (Node Place compile runs runsAll fullMatch Within Confined)

/-! ## What a match means -/

/-- What an element may take of a path: a literal itself, a parameter a text that its own expression
matches, and nothing when it is optional. -/
def Takes (e : RouteElement) : Option Str → Prop
  | none => e.optional = true
  | some t =>
    if e.name = [] then t = e.pattern
    else ∃ r, compile (subPattern e) = some r ∧ (fullMatch r t).isSome = true

/-- The path is what the elements have taken, each with a slash behind it, and the parameters have
been given what they have taken; a parameter that has taken nothing keeps the value it had. -/
def Belongs (es : List RouteElement) (path : Str) (vars result : Dictionary) : Prop :=
  ∃ taken : List (Option Str), List.Forall₂ Takes es taken ∧
    path = '/'.toUInt8 :: closed taken.reduceOption ∧
    ∀ p ∈ es.zip taken, p.1.name ≠ [] →
      result[p.1.name]? = (p.2.filter (· ≠ [])).or vars[p.1.name]?

/-- Literals without operators, different names, expressions that are well formed by themselves, and
no parameter behind one whose expression has a group. -/
structure Separate (es : List RouteElement) : Prop where
  literal : ∀ e ∈ es, e.name = [] →
    e.pattern ≠ [] ∧ ∀ c ∈ e.pattern, c ∉ operators ∧ c ≠ '.'.toUInt8
  compiled : ∀ e ∈ es, e.name ≠ [] → (compile (subPattern e)).isSome = true
  distinct : ((es.map RouteElement.name).filter (· ≠ [])).Nodup
  groups : es.Pairwise fun d e => e.name ≠ [] → Ecma.groupCount (subPattern d) = 0

/-- An element goes over its segment, from `x` to `y` behind the slash.  The expression of a
parameter sees nothing beyond the segment on its way. -/
def Segment (n : Nat) (e : RouteElement) (r : Node UInt8) (x y : Place UInt8) : Prop :=
  ∃ z ∈ runs (innerNode n e r) x, z.rest = '/'.toUInt8 :: y.rest ∧ y = z.advance 1 ∧
    (e.name ≠ [] → ∃ w, z = w.capture (n + 1) (x.textTo w) ∧
      Within '/'.toUInt8 x.before.tail y.rest (n + 1) r x w)

/-- An element goes over its segment, or is left out. -/
def Passes (n : Nat) (e : RouteElement) (r : Node UInt8) (x y : Place UInt8) : Prop :=
  if e.optional then y = x ∨ Segment n e r (x.reset (innerNode n e r).groups) y
  else Segment n e r x y

/-- The elements pass from `x` to `y`, one behind the other. -/
def Secluded : Nat → List (RouteElement × Node UInt8) → Place UInt8 → Place UInt8 → Prop
  | _, [], x, y => y = x
  | n, (e, r) :: ers, x, y => ∃ z, Passes n e r x z ∧ Secluded (n + groupsOf e) ers z y

/-- The match that the elements make of the path, if they make one, is taken over segments beyond
which no expression sees. -/
def SecludedOn (es : List RouteElement) (path : Str) : Prop :=
  ∀ ers : List (RouteElement × Node UInt8), ers.map Prod.fst = es → Compiled ers →
    ∀ rest y, path = '/'.toUInt8 :: rest →
      (ending (runsAll (elementNodes 0 ers) (behindRoot rest))).head? = some y →
      Secluded 0 ers (behindRoot rest) y

/-! ## Indices -/

/-- The index of a parameter is the number of its group. -/
def Indexed : Nat → List RouteElement → Prop
  | _, [] => True
  | n, e :: es => e.idx = (if e.name ≠ [] then ((n + 1 : Nat) : Int) else -1) ∧
      Indexed (n + groupsOf e) es

/-- An element without a name has no index. -/
def Unindexed (es : List RouteElement) : Prop := ∀ e ∈ es, e.name = [] → e.idx = -1

theorem parseStep_unindexed {last : Bool} {c : UInt8} {ps ps' : ParseState}
    (h : parseStep last c ps = some ps') (hes : Unindexed ps.elements) : Unindexed ps'.elements := by
  have hone {acc : List RouteElement} {e : RouteElement} (hacc : Unindexed acc)
      (he : e.name = [] → e.idx = -1) : Unindexed (acc ++ [e]) :=
    List.forall_mem_append.mpr ⟨hacc, List.forall_mem_singleton.mpr he⟩
  have token : ∀ q : ParseState, Unindexed q.elements → tokenStep last c q = some ps' →
      Unindexed ps'.elements := by
    intro q hq ht
    unfold tokenStep at ht
    split at ht
    · cases ht
      refine hone hq ?_
      split
      · exact fun _ => rfl
      · next hname => exact fun hempty => absurd hempty hname
    · split at ht
      · cases ht; exact hq
      · cases ht
  unfold parseStep at h
  split at h
  · exact token ps hes h
  · unfold paramStep at h
    split_ifs at h <;> cases h <;> exact hes
  · cases h
    unfold regexStep
    split <;> exact hes
  · unfold elementStep at h
    split at h
    · split at h
      · cases h
      · cases h; exact hes
    · split at h
      · cases h
        exact hone hes fun _ => rfl
      · split at h
        · exact token { ps with state := .token } hes h
        · cases h; exact hes

theorem parseLoop_unindexed {s : Str} {ps ps' : ParseState} (h : parseLoop s ps = some ps')
    (hes : Unindexed ps.elements) : Unindexed ps'.elements := by
  induction s generalizing ps with
  | nil => cases h; exact hes
  | cons c rest ih =>
    rw [parseLoop_cons] at h
    obtain ⟨q, hq, hloop⟩ := Option.bind_eq_some_iff.mp h
    exact ih hloop (parseStep_unindexed hq hes)

theorem parse_unindexed {pattern : Str} {es : List RouteElement} (h : parse pattern = some es) :
    Unindexed es := by
  obtain ⟨ps, hps, rfl⟩ := Option.map_eq_some_iff.mp h
  exact parseLoop_unindexed hps (by simp [Unindexed, ParseState.init])

/-- The elements differ in their indices only. -/
def SameBut (e e' : RouteElement) : Prop :=
  e'.name = e.name ∧ e'.pattern = e.pattern ∧ e'.optional = e.optional

theorem numberCaptures_cons (n : Nat) (e : RouteElement) (es : List RouteElement) :
    (numberCaptures n (e :: es)).1 =
      (if e.name ≠ [] then { e with idx := n } else e) ::
        (numberCaptures (if e.name ≠ [] then n + 1 else n) es).1 := by
  rw [numberCaptures]
  by_cases hname : e.name = [] <;> simp [hname]

theorem numberCaptures_same (n : Nat) (es : List RouteElement) :
    List.Forall₂ SameBut es (numberCaptures n es).1 := by
  induction es generalizing n with
  | nil => exact .nil
  | cons e es ih =>
    rw [numberCaptures_cons]
    refine .cons ?_ (ih _)
    split <;> exact ⟨rfl, rfl, rfl⟩

theorem numberCaptures_numberCaptures (m n : Nat) (es : List RouteElement) :
    (numberCaptures n (numberCaptures m es).1).1 = (numberCaptures n es).1 := by
  induction es generalizing m n with
  | nil => rfl
  | cons e es ih =>
    rw [numberCaptures_cons m, numberCaptures_cons n, numberCaptures_cons n, ih]
    by_cases hname : e.name = [] <;> simp [hname]

theorem Unindexed.numberCaptures {es : List RouteElement} (h : Unindexed es) (n : Nat) :
    Unindexed (numberCaptures n es).1 := by
  induction es generalizing n with
  | nil => exact h
  | cons e es ih =>
    obtain ⟨he, hes⟩ : (e.name = [] → e.idx = -1) ∧ Unindexed es := List.forall_mem_cons.mp h
    rw [numberCaptures_cons]
    refine List.forall_mem_cons.mpr ⟨?_, ih hes _⟩
    split
    · next hname => exact fun hempty => absurd hempty hname
    · exact he

theorem SameBut.subPattern {e e' : RouteElement} (h : SameBut e e') :
    subPattern e' = subPattern e := by
  unfold Route.subPattern
  rw [h.2.1]

theorem SameBut.groupsOf {e e' : RouteElement} (h : SameBut e e') : groupsOf e' = groupsOf e := by
  unfold Route.groupsOf
  rw [h.subPattern, h.1]

theorem SameBut.elementText {e e' : RouteElement} (h : SameBut e e') :
    elementText e' = elementText e := by
  unfold Route.elementText innerText
  rw [h.subPattern, h.1, h.2.2]

/-- The expression does not depend on the indices. -/
theorem makeRegex_same {es es' : List RouteElement} (h : List.Forall₂ SameBut es es') :
    (makeRegexFromPattern es').2 = (makeRegexFromPattern es).2 := by
  have htext : es'.flatMap elementText = es.flatMap elementText := by
    induction h with
    | nil => rfl
    | cons he _ ih => rw [List.flatMap_cons, List.flatMap_cons, he.elementText, ih]
  rw [makeRegex_text, makeRegex_text, htext]

theorem indexed_unnamed {es : List RouteElement} (h : ∀ e ∈ es, e.name = []) (hes : Unindexed es)
    (n : Nat) : Indexed n es := by
  induction es generalizing n with
  | nil => trivial
  | cons e es ih =>
    rw [List.forall_mem_cons] at h
    unfold Unindexed at hes
    rw [List.forall_mem_cons] at hes
    refine ⟨?_, ih h.2 hes.2 _⟩
    rw [if_neg (not_not_intro h.1)]
    exact hes.1 h.1

theorem numberCaptures_unnamed {es : List RouteElement} (h : ∀ e ∈ es, e.name = []) (n : Nat) :
    (numberCaptures n es).1 = es := by
  induction es generalizing n with
  | nil => rfl
  | cons e es ih =>
    rw [List.forall_mem_cons] at h
    rw [numberCaptures_cons, if_neg (not_not_intro h.1), ih h.2]

/-- **The indices are the numbers of the groups** when no parameter stands behind a group. -/
theorem indexed_numberCaptures {es : List RouteElement} (hes : Unindexed es)
    (hgroups : es.Pairwise fun d e => e.name ≠ [] → Ecma.groupCount (subPattern d) = 0) (n : Nat) :
    Indexed n (numberCaptures (n + 1) es).1 := by
  induction es generalizing n with
  | nil => trivial
  | cons e es ih =>
    obtain ⟨hhead, htail⟩ := List.pairwise_cons.mp hgroups
    obtain ⟨hidx, hrest⟩ : (e.name = [] → e.idx = -1) ∧ Unindexed es := List.forall_mem_cons.mp hes
    rw [numberCaptures_cons]
    have hsame : SameBut e (if e.name ≠ [] then { e with idx := ((n + 1 : Nat) : Int) } else e) := by
      split <;> exact ⟨rfl, rfl, rfl⟩
    refine ⟨?_, ?_⟩
    · rw [hsame.1]
      split
      · rfl
      · next hname => exact hidx (not_not.mp hname)
    · rw [hsame.groupsOf]
      by_cases hcount : Ecma.groupCount (subPattern e) = 0
      · -- the next group is the one that is counted next
        have hnext : (if e.name ≠ [] then n + 1 + 1 else n + 1) = n + groupsOf e + 1 := by
          unfold groupsOf
          rw [hcount]
          split <;> rfl
        rw [hnext]
        exact ih hrest htail _
      · -- no parameter follows
        have hunnamed : ∀ e' ∈ es, e'.name = [] := fun e' he' =>
          not_not.mp fun hname => hcount (hhead e' he' hname)
        rw [numberCaptures_unnamed hunnamed]
        exact indexed_unnamed hunnamed hrest _

/-! ## What an element takes -/

theorem mem_groups_innerNode {n i : Nat} {e : RouteElement} {r : Node UInt8}
    (h : compile (subPattern e) = some r) (hinner : i ∈ (innerNode n e r).groups) :
    n < i ∧ i ≤ n + groupsOf e := by
  have hnumbered := Ecma.compile_numbered h
  unfold innerNode at hinner
  unfold groupsOf
  split at hinner
  · next hname =>
    rw [if_pos hname]
    rw [Node.groups, List.mem_cons] at hinner
    rcases hinner with rfl | hinner
    · omega
    · obtain ⟨j, hj, rfl⟩ := Ecma.mem_groups_shift.mp hinner
      have := hnumbered j hj
      omega
  · next hname =>
    rw [if_neg hname]
    obtain ⟨j, hj, rfl⟩ := Ecma.mem_groups_shift.mp hinner
    have := hnumbered j hj
    omega

/-- What a literal comes to. -/
theorem compile_literal {w : Str} (hw : ∀ c ∈ w, c ∉ operators ∧ c ≠ '.'.toUInt8) :
    compile w = some (wordNode w) := by
  have hchars : ∀ c ∈ w, Ecma.tokenOf c = .char (· == c) := by
    intro c hc
    rw [LiteralPattern.tokenOf_class (hw c hc).1, LiteralPattern.classOf, if_neg (hw c hc).2]
  exact (Ecma.compile_chars hchars).1

theorem runs_word (w : Str) (n : Nat) (x : Place UInt8) :
    runs ((wordNode w).shift n) x = if w <+: x.rest then [x.advance w.length] else [] := by
  have hshift : (wordNode w).shift n = wordNode w := by
    have hchars := Ecma.shift_chars (w.map fun c => (· == c)) (.empty : Node UInt8) n
    rwa [List.map_map] at hchars
  rw [hshift, wordNode, Ecma.runs_foldl_seq, runs, List.flatMap_singleton, Ecma.runsAll_word]

/-- The text in front of the slash, and what is captured of it. -/
structure Reads (n : Nat) (e : RouteElement) (t : Str) (x y : Place UInt8) : Prop where
  takes : Takes e (some t)
  rest : x.rest = t ++ '/'.toUInt8 :: y.rest
  before : y.before.head? = some '/'.toUInt8
  capture : e.name ≠ [] → y.caps (n + 1) = some t

theorem takes_literal {e : RouteElement} {r : Node UInt8} (h : compile (subPattern e) = some r)
    (hname : e.name = [])
    (hliteral : e.pattern ≠ [] ∧ ∀ c ∈ e.pattern, c ∉ operators ∧ c ≠ '.'.toUInt8) {n : Nat}
    {x z : Place UInt8} {t : Str} (hz : z ∈ runs (innerNode n e r) x) (ht : x.Behind t z) :
    Takes e (some t) := by
  unfold Takes
  dsimp only
  obtain ⟨hne, hplain⟩ := hliteral
  rw [if_pos hname]
  have hsub : subPattern e = e.pattern := if_neg hne
  rw [hsub, compile_literal hplain] at h
  rw [innerNode, if_neg (not_not_intro hname), ← Option.some.inj h, runs_word] at hz
  split_ifs at hz with hpre
  · obtain rfl := List.mem_singleton.mp hz
    rw [← ht.textTo, Place.Behind.advance.textTo]
    exact (List.prefix_iff_eq_take.mp hpre).symm
  · cases hz

theorem Segment.reads {n : Nat} {e : RouteElement} {r : Node UInt8} {x y : Place UInt8}
    (h : compile (subPattern e) = some r)
    (hliteral : e.name = [] →
      e.pattern ≠ [] ∧ ∀ c ∈ e.pattern, c ∉ operators ∧ c ≠ '.'.toUInt8)
    (hx : x.before.head? = some '/'.toUInt8) (hy : Segment n e r x y) :
    ∃ t, Reads n e t x y := by
  obtain ⟨z, hz, hrest, rfl, hwithin⟩ := hy
  obtain ⟨t, ht⟩ := Ecma.runs_advances _ x z hz
  refine ⟨t, ?_, ?_, ?_, fun hname => ?_⟩
  · by_cases hname : e.name = []
    · exact takes_literal h hname (hliteral hname) hz ht
    · obtain ⟨w, rfl, hwithin⟩ := hwithin hname
      obtain ⟨b, hb⟩ := List.head?_eq_some_iff.mp hx
      have hbefore : x.before = '/'.toUInt8 :: x.before.tail := by rw [hb]; rfl
      unfold Takes
      dsimp only
      rw [if_neg hname]
      exact ⟨r, h, Ecma.fullMatch_of_within hwithin hbefore ht hrest⟩
  · rw [ht.1, hrest]
  · rw [Place.advance, hrest]
    rfl
  · obtain ⟨w, rfl, -⟩ := hwithin hname
    have htext : x.textTo w = t := Place.Behind.textTo (y := w) ht
    simp [Place.advance, Place.capture, htext]

/-- An element and what it takes. -/
theorem Passes.reads {n : Nat} {e : RouteElement} {r : Node UInt8} {x y : Place UInt8}
    (h : compile (subPattern e) = some r)
    (hliteral : e.name = [] →
      e.pattern ≠ [] ∧ ∀ c ∈ e.pattern, c ∉ operators ∧ c ≠ '.'.toUInt8)
    (hx : x.before.head? = some '/'.toUInt8) (hy : Passes n e r x y) :
    (e.optional = true ∧ y = x) ∨ ∃ t, Reads n e t x y := by
  unfold Passes at hy
  split_ifs at hy with hoptional
  · rcases hy with hskip | hy
    · exact .inl ⟨hoptional, hskip⟩
    · obtain ⟨t, ht⟩ := Segment.reads h hliteral (x := x.reset _) hx hy
      exact .inr ⟨t, ht.takes, ht.rest, ht.before, ht.capture⟩
  · exact .inr (hy.reads h hliteral hx)

/-- Captures of other groups stay as they are. -/
theorem Passes.leaves {n i : Nat} {e : RouteElement} {r : Node UInt8} {x y : Place UInt8}
    (hy : Passes n e r x y) (hi : i ∉ (innerNode n e r).groups) : y.caps i = x.caps i := by
  have hsegment {x : Place UInt8} (h : Segment n e r x y) : y.caps i = x.caps i := by
    obtain ⟨z, hz, -, rfl, -⟩ := h
    exact Ecma.runs_leaves hi x z hz
  unfold Passes at hy
  split_ifs at hy
  · rcases hy with rfl | hy
    · rfl
    · exact (hsegment hy).trans (if_neg hi)
  · exact hsegment hy

/-- What the elements take, and where it is captured. -/
theorem Secluded.take {ers : List (RouteElement × Node UInt8)} (hcompiled : Compiled ers)
    (hliteral : ∀ er ∈ ers, er.1.name = [] →
      er.1.pattern ≠ [] ∧ ∀ c ∈ er.1.pattern, c ∉ operators ∧ c ≠ '.'.toUInt8)
    {n : Nat} (hindexed : Indexed n (ers.map Prod.fst)) {x y : Place UInt8}
    (hx : x.before.head? = some '/'.toUInt8) (hcaps : ∀ i, n < i → x.caps i = none)
    (hy : Secluded n ers x y) :
    ∃ taken : List (Option Str), List.Forall₂ Takes (ers.map Prod.fst) taken ∧
      x.rest = closed taken.reduceOption ++ y.rest ∧ (∀ i, i ≤ n → y.caps i = x.caps i) ∧
      ∀ p ∈ (ers.map Prod.fst).zip taken, p.1.name ≠ [] →
        0 < p.1.idx ∧ y.caps p.1.idx.toNat = p.2 := by
  induction ers generalizing n x with
  | nil =>
    obtain rfl : y = x := hy
    exact ⟨[], .nil, rfl, fun _ _ => rfl, by simp⟩
  | cons er ers ih =>
    obtain ⟨e, r⟩ := er
    obtain ⟨h, hcompiled⟩ : compile (subPattern e) = some r ∧ Compiled ers :=
      List.forall_mem_cons.mp hcompiled
    rw [List.forall_mem_cons] at hliteral
    rw [List.map_cons] at hindexed
    obtain ⟨hidx, hindexed⟩ := hindexed
    obtain ⟨z, hz, hy⟩ := hy
    have hbelow : ∀ i, i ≤ n → z.caps i = x.caps i := fun i hi =>
      hz.leaves fun hmem => absurd (mem_groups_innerNode h hmem).1 (Nat.not_lt.mpr hi)
    have habove : ∀ i, n + groupsOf e < i → z.caps i = none := fun i hi =>
      (hz.leaves fun hmem => absurd (mem_groups_innerNode h hmem).2 (Nat.not_le.mpr hi)).trans
        (hcaps i (by omega))
    obtain ⟨t?, htakes, hrest, hbefore, hcapture⟩ : ∃ t? : Option Str, Takes e t? ∧
        x.rest = closed [t?].reduceOption ++ z.rest ∧ z.before.head? = some '/'.toUInt8 ∧
        (e.name ≠ [] → z.caps (n + 1) = t?) := by
      rcases hz.reads h hliteral.1 hx with ⟨hoptional, rfl⟩ | ⟨t, ht⟩
      · exact ⟨none, hoptional, rfl, hx, fun _ => hcaps _ (Nat.lt_succ_self n)⟩
      · refine ⟨some t, ht.takes, ?_, ht.before, ht.capture⟩
        rw [ht.rest]
        simp [List.reduceOption, closed]
    obtain ⟨taken, htaken, hclosed, hkept, hstored⟩ :=
      ih hcompiled hliteral.2 hindexed hbefore habove hy
    refine ⟨t? :: taken, .cons htakes htaken, ?_, ?_, ?_⟩
    · rw [hrest, hclosed]
      cases t? <;> simp [List.reduceOption, closed]
    · exact fun i hi => (hkept i (by omega)).trans (hbelow i hi)
    · rw [List.map_cons, List.zip_cons_cons, List.forall_mem_cons]
      refine ⟨fun hname => ?_, hstored⟩
      dsimp only at hname ⊢
      have hgroup : n + 1 ≤ n + groupsOf e := by
        unfold groupsOf
        rw [if_pos hname]
        omega
      rw [if_pos hname] at hidx
      rw [hidx, Int.toNat_natCast, hkept _ hgroup]
      exact ⟨by omega, hcapture hname⟩

/-! ## What is stored -/

theorem storeCaptures_other {results : Ecma.Captures UInt8} {es : List RouteElement}
    {name : Str} (h : ∀ e ∈ es, 0 < e.idx → e.name ≠ name) (vars : Dictionary) :
    (storeCaptures results es vars)[name]? = vars[name]? := by
  induction es generalizing vars with
  | nil => rfl
  | cons e es ih =>
    rw [List.forall_mem_cons] at h
    rw [storeCaptures]
    split_ifs with hidx
    · dsimp only
      rw [ih h.2]
      split
      · rw [Std.ExtTreeMap.getElem?_insert, if_neg]
        simpa using h.1 hidx
      · rfl
    · exact ih h.2 vars

theorem storeCaptures_taken {results : Ecma.Captures UInt8} {es : List RouteElement}
    (hunindexed : Unindexed es) (hdistinct : ((es.map RouteElement.name).filter (· ≠ [])).Nodup)
    {taken : List (Option Str)}
    (h : ∀ p ∈ es.zip taken, p.1.name ≠ [] → 0 < p.1.idx ∧ results p.1.idx.toNat = p.2)
    (vars : Dictionary) :
    ∀ p ∈ es.zip taken, p.1.name ≠ [] →
      (storeCaptures results es vars)[p.1.name]? = (p.2.filter (· ≠ [])).or vars[p.1.name]? := by
  induction es generalizing taken vars with
  | nil => simp
  | cons e es ih =>
    obtain ⟨hidx, hunindexed⟩ : (e.name = [] → e.idx = -1) ∧ Unindexed es :=
      List.forall_mem_cons.mp hunindexed
    cases taken with
    | nil => simp
    | cons t taken =>
      rw [List.zip_cons_cons, List.forall_mem_cons] at h ⊢
      by_cases hname : e.name = []
      · rw [storeCaptures, if_neg (by rw [hidx hname]; decide)]
        rw [List.map_cons, List.filter_cons_of_neg (by simpa using hname)] at hdistinct
        exact ⟨fun hne => absurd hname hne, ih hunindexed hdistinct h.2 vars⟩
      · obtain ⟨hpos, hval⟩ := h.1 hname
        rw [List.map_cons, List.filter_cons_of_pos (by simpa using hname), List.nodup_cons]
          at hdistinct
        -- the other parameters have other names
        have hother : ∀ e' ∈ es, e'.name ≠ [] → e'.name ≠ e.name := fun e' he' hne hsame =>
          hdistinct.1 (List.mem_filter.mpr
            ⟨List.mem_map.mpr ⟨e', he', hsame⟩, by simpa using hname⟩)
        have hbehind : ∀ e' ∈ es, 0 < e'.idx → e'.name ≠ e.name := by
          intro e' he' hpos'
          refine hother e' he' fun hempty => ?_
          rw [hunindexed e' he' hempty] at hpos'
          exact absurd hpos' (by decide)
        dsimp only at hpos hval
        rw [storeCaptures, if_pos hpos, hval]
        dsimp only
        refine ⟨fun _ => ?_, ?_⟩
        · rw [storeCaptures_other hbehind]
          cases t with
          | none => rfl
          | some t =>
            by_cases hempty : t = [] <;> simp [Option.filter, hempty]
        · intro p hp hne
          have hp1 := hother p.1 (List.of_mem_zip hp).1 hne
          rw [ih hunindexed hdistinct.2 h.2 _ p hp hne]
          split
          · rw [Std.ExtTreeMap.getElem?_insert, if_neg]
            simpa using hp1.symm
          · rfl

/-! ## The captures of a route -/

theorem new_parsed {pattern : Str} {route : RouteImpl} (h : RouteImpl.new false pattern = some route) :
    ∃ es, parse (closePattern pattern) = some es ∧ route.elements = (numberCaptures 1 es).1 ∧
      route.rx = (makeRegexFromPattern es).2 := by
  obtain ⟨es, hes, rfl⟩ := Option.map_eq_some_iff.mp h
  exact ⟨es, hes, rfl, rfl⟩

/-- Every element with what its sub-pattern comes to. -/
theorem exists_compiled {es : List RouteElement} (h : Separate es) :
    ∃ ers : List (RouteElement × Node UInt8), ers.map Prod.fst = es ∧ Compiled ers := by
  have hone : ∀ e ∈ es, ∃ r, compile (subPattern e) = some r := by
    intro e he
    by_cases hname : e.name = []
    · obtain ⟨hne, hplain⟩ := h.literal e he hname
      have hsub : subPattern e = e.pattern := if_neg hne
      exact ⟨wordNode e.pattern, by rw [hsub, compile_literal hplain]⟩
    · exact Option.isSome_iff_exists.mp (h.compiled e he hname)
  clear h
  induction es with
  | nil => exact ⟨[], rfl, by simp [Compiled]⟩
  | cons e es ih =>
    rw [List.forall_mem_cons] at hone
    obtain ⟨⟨r, hr⟩, hes⟩ := hone
    obtain ⟨ers, hfst, hcompiled⟩ := ih hes
    exact ⟨(e, r) :: ers, by rw [List.map_cons, hfst], List.forall_mem_cons.mpr ⟨hr, hcompiled⟩⟩

/-! ## Expressions that see beyond no segment -/

theorem segment_of_confined {n : Nat} {e : RouteElement} {r : Node UInt8} {x y : Place UInt8}
    (hconfined : e.name ≠ [] → Confined '/'.toUInt8 r)
    (hy : y ∈ runs (.seq (.seq .empty (innerNode n e r)) (.char (· == '/'.toUInt8))) x) :
    Segment n e r x y := by
  rw [Ecma.runs_seq, runs_empty_seq] at hy
  obtain ⟨z, hz, hslash⟩ := List.mem_flatMap.mp hy
  rw [Ecma.runs_char] at hslash
  match hzrest : z.rest, hslash with
  | [], hslash => cases hslash
  | c :: w, hslash =>
    dsimp only at hslash
    split_ifs at hslash with hc
    · obtain rfl := beq_iff_eq.mp hc
      obtain rfl := List.mem_singleton.mp hslash
      refine ⟨z, hz, ?_, rfl, fun hname => ?_⟩
      · rw [hzrest, Place.advance_rest, hzrest]
        rfl
      · rw [innerNode, if_pos hname] at hz
        obtain ⟨w, hw, rfl⟩ := List.mem_map.mp hz
        exact ⟨w, rfl, (hconfined hname).within hw⟩
    · cases hslash

/-- When no expression can see beyond the separator, none does. -/
theorem secluded_of_confined {ers : List (RouteElement × Node UInt8)}
    (hconfined : ∀ er ∈ ers, er.1.name ≠ [] → Confined '/'.toUInt8 er.2) {n : Nat}
    {x y : Place UInt8} (hy : y ∈ runsAll (elementNodes n ers) x) : Secluded n ers x y := by
  induction ers generalizing n x with
  | nil => exact List.mem_singleton.mp hy
  | cons er ers ih =>
    obtain ⟨e, r⟩ := er
    rw [List.forall_mem_cons] at hconfined
    rw [elementNodes, runsAll] at hy
    obtain ⟨z, hz, hy⟩ := List.mem_flatMap.mp hy
    refine ⟨z, ?_, ih hconfined.2 hy⟩
    unfold Passes
    unfold elementNode at hz
    dsimp only at hz
    split_ifs at hz ⊢ with hoptional
    · have hgroups : (Node.seq (.seq .empty (innerNode n e r))
          (.char (· == '/'.toUInt8))).groups = (innerNode n e r).groups := by
        simp [Node.groups]
      refine (Ecma.mem_runs_optional hz).imp_right fun hz => ?_
      rw [hgroups] at hz
      exact segment_of_confined hconfined.1 hz
    · exact segment_of_confined hconfined.1 hz

theorem secludedOn_of_confined {es : List RouteElement}
    (h : ∀ e ∈ es, e.name ≠ [] → ∀ r, compile (subPattern e) = some r → Confined '/'.toUInt8 r)
    (path : Str) : SecludedOn es path := by
  intro ers hfst hcompiled rest y _ hy
  refine secluded_of_confined (fun er her hname => ?_)
    (List.mem_filter.mp (List.mem_of_head? hy)).1
  exact h er.1 (by rw [← hfst]; exact List.mem_map_of_mem her) hname er.2 (hcompiled er her)

/-! ## The match of a path -/

/-- Only a path that begins with a slash matches. -/
theorem root_of_fullMatch {ers : List (RouteElement × Node UInt8)} {path : Str}
    {results : Ecma.Captures UInt8} (h : fullMatch (routeNode ers) path = some results) :
    ∃ rest, path = '/'.toUInt8 :: rest := by
  have hroot : runs rootNode (.start path) ≠ [] := by
    intro hnil
    rw [fullMatch, routeNode, runs_lineEnd, Ecma.runs_foldl_seq, hnil] at h
    cases h
  cases path with
  | nil => exact absurd rfl hroot
  | cons c rest =>
    by_cases hc : c = '/'.toUInt8
    · exact ⟨rest, by rw [hc]⟩
    · exact absurd (by simp [rootNode, runs, Place.start, hc]) hroot

/-- **Captures belong to their parameters** when the elements are separate and no expression sees
beyond its segment of the path. -/
theorem captures_belong {pattern : Str} {route : RouteImpl}
    (hnew : RouteImpl.new false pattern = some route) (hseparate : Separate route.elements)
    {path : Str} {vars : Dictionary} (hsecluded : SecludedOn route.elements (getCleanPath path))
    (hmatch : (route.matches path vars).1 = true) :
    Belongs route.elements (getCleanPath path) vars (route.matches path vars).2 := by
  obtain ⟨es, hparse, helements, hrx⟩ := new_parsed hnew
  obtain ⟨ers, hfst, hcompiled⟩ := exists_compiled hseparate
  have hrx' : compile route.rx = some (routeNode ers) := by
    rw [hrx, ← makeRegex_same (numberCaptures_same 1 es), ← helements, ← hfst]
    exact compile_makeRegex hcompiled
  have hunindexed : Unindexed route.elements := by
    rw [helements]
    exact (parse_unindexed hparse).numberCaptures 1
  have hindexed : Indexed 0 route.elements := by
    have hnumbered := indexed_numberCaptures hunindexed hseparate.groups 0
    rw [helements, numberCaptures_numberCaptures] at hnumbered
    rwa [helements]
  rw [RouteImpl.matches, RouteImpl.matchPath, hrx', Option.bind_some] at hmatch ⊢
  cases hfull : fullMatch (routeNode ers) (getCleanPath path) with
  | none =>
    rw [hfull] at hmatch
    cases hmatch
  | some results =>
    obtain ⟨rest, hpath⟩ := root_of_fullMatch hfull
    have hpasses := hsecluded ers hfst hcompiled rest
    rw [hpath] at hfull ⊢
    rw [fullMatch_route, List.head?_map] at hfull
    obtain ⟨y, hy, rfl⟩ := Option.map_eq_some_iff.mp hfull
    have hend := (List.mem_filter.mp (List.mem_of_head? hy)).2
    rw [← hfst] at hindexed
    have hliteral : ∀ er ∈ ers, er.1.name = [] →
        er.1.pattern ≠ [] ∧ ∀ c ∈ er.1.pattern, c ∉ operators ∧ c ≠ '.'.toUInt8 := by
      intro er her
      exact hseparate.literal er.1 (by rw [← hfst]; exact List.mem_map_of_mem her)
    obtain ⟨taken, htaken, hclosed, -, hstored⟩ :=
      (hpasses y hpath hy).take hcompiled hliteral hindexed (by rfl) (fun _ _ => rfl)
    rw [hfst] at htaken hstored
    rw [List.isEmpty_iff.mp hend, List.append_nil] at hclosed
    refine ⟨taken, htaken, ?_, ?_⟩
    · exact congrArg (List.cons _) hclosed
    · exact storeCaptures_taken hunindexed hseparate.distinct hstored vars

/-- The elements of `/user/{id:\d+}/{action:show|hide}`. -/
def userElements : List RouteElement :=
  [⟨[], str "user", false, -1⟩, ⟨str "id", str "\\d+", false, 1⟩,
    ⟨str "action", str "show|hide", false, 2⟩]

theorem userElements_separate : Separate userElements := by
  refine ⟨by decide +kernel, ?_, by decide +kernel, by decide +kernel⟩
  simp only [userElements, List.forall_mem_cons]
  exact ⟨fun h => absurd rfl h, fun _ => rfl, fun _ => rfl, by simp⟩

theorem userElements_secluded (path : Str) : SecludedOn userElements path := by
  refine secludedOn_of_confined ?_ path
  simp only [userElements, List.forall_mem_cons]
  refine ⟨fun h => absurd rfl h, fun _ r hr => ?_, fun _ r hr => ?_, by simp⟩
  · obtain rfl := Option.some.inj hr
    exact ⟨trivial, trivial⟩
  · obtain rfl := Option.some.inj hr
    exact ⟨⟨⟨⟨⟨trivial, trivial⟩, trivial⟩, trivial⟩, trivial⟩,
      ⟨⟨⟨⟨trivial, trivial⟩, trivial⟩, trivial⟩, trivial⟩⟩

theorem user_belongs :
    ∃ route, RouteImpl.new false (str "/user/\x7bid:\\d+\x7d/\x7baction:show|hide\x7d") = some route ∧
      (route.matches (str "/user/12/show") ∅).1 = true ∧ Separate route.elements ∧
      Belongs route.elements (getCleanPath (str "/user/12/show")) ∅
        (route.matches (str "/user/12/show") ∅).2 := by
  have hnew : RouteImpl.new false (str "/user/\x7bid:\\d+\x7d/\x7baction:show|hide\x7d") =
      some ⟨userElements, str "/user/\x7bid:\\d+\x7d/\x7baction:show|hide\x7d/",
        (makeRegexFromPattern userElements).2⟩ := by decide +kernel
  have hmatch : (RouteImpl.matches ⟨userElements, str "/user/\x7bid:\\d+\x7d/\x7baction:show|hide\x7d/",
      (makeRegexFromPattern userElements).2⟩ (str "/user/12/show") ∅).1 = true := by
    decide +kernel
  exact ⟨_, hnew, hmatch, userElements_separate,
    captures_belong hnew userElements_separate (userElements_secluded _) hmatch⟩

/-- The elements of `/{a:(x)y}/{b:z}`. -/
def shiftedElements : List RouteElement :=
  [⟨str "a", str "(x)y", false, 1⟩, ⟨str "b", str "z", false, 2⟩]

/-- The second parameter is given the group in the expression of the first. -/
theorem shifted_not_belongs :
    ∃ route, RouteImpl.new false (str "/\x7ba:(x)y\x7d/\x7bb:z\x7d") = some route ∧
      (route.matches (str "/xy/z/") ∅).1 = true ∧
      (route.matches (str "/xy/z/") ∅).2[str "b"]? = some (str "x") ∧
      ¬ Belongs route.elements (getCleanPath (str "/xy/z/")) ∅
        (route.matches (str "/xy/z/") ∅).2 := by
  have hnew : RouteImpl.new false (str "/\x7ba:(x)y\x7d/\x7bb:z\x7d") =
      some ⟨shiftedElements, str "/\x7ba:(x)y\x7d/\x7bb:z\x7d/",
        (makeRegexFromPattern shiftedElements).2⟩ := by decide +kernel
  have hmatch : (RouteImpl.matches ⟨shiftedElements, str "/\x7ba:(x)y\x7d/\x7bb:z\x7d/",
      (makeRegexFromPattern shiftedElements).2⟩ (str "/xy/z/") ∅).1 = true ∧
      (RouteImpl.matches ⟨shiftedElements, str "/\x7ba:(x)y\x7d/\x7bb:z\x7d/",
      (makeRegexFromPattern shiftedElements).2⟩ (str "/xy/z/") ∅).2[str "b"]? = some (str "x") := by
    decide +kernel
  refine ⟨_, hnew, hmatch.1, hmatch.2, ?_⟩
  rintro ⟨taken, htaken, -, hstored⟩
  match taken, htaken with
  | [ta, tb], .cons _ (.cons htakes .nil) =>
    have hb := hstored (⟨str "b", str "z", false, 2⟩, tb) (by simp [shiftedElements])
      (show str "b" ≠ [] by decide)
    rw [hmatch.2] at hb
    cases tb with
    | none => cases hb
    | some t =>
      have ht : t = str "x" := by
        by_cases hempty : t = []
        · simp [hempty, Option.filter] at hb
        · simpa [hempty, Option.filter] using hb.symm
      -- `z` does not match it
      subst ht
      obtain ⟨r, hr, hfull⟩ := htakes
      have hz : compile (str "z") = some (wordNode (str "z")) :=
        compile_literal (by decide +kernel)
      obtain rfl := Option.some.inj (hz.symm.trans hr)
      exact absurd hfull (by decide +kernel)

end Wsrv.Route
