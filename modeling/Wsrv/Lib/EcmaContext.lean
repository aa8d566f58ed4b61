import Wsrv.Lib.EcmaSyntax

/-!
# Expressions inside of others

An expression that stands between two separators in another one can see beyond
its own text with a look-ahead, and the number of a back reference is that of a
group of the whole.  `Within` says of a match that it does neither, and
`fullMatch_of_within` that the expression then matches the text by itself.  The
groups of an expression are the only captures it changes, and `compile` numbers
them from one to their count.
-/

namespace Ecma

variable {α : Type}

/-! ## Groups -/

theorem mem_groups_shift {r : Node α} {n i : Nat} :
    i ∈ (r.shift n).groups ↔ ∃ j ∈ r.groups, i = j + n := by
  induction r with
  | seq r s hr hs => simp [Node.shift, Node.groups, hr, hs, or_and_right, exists_or]
  | alt r s hr hs => simp [Node.shift, Node.groups, hr, hs, or_and_right, exists_or]
  | group j r hr => simp [Node.shift, Node.groups, hr]
  | rep lo hi greedy r hr => exact hr
  | look positive r hr => exact hr
  | _ => simp [Node.shift, Node.groups]

/-- No turn of a repetition changes the capture `i`. -/
def Leaves (i : Nat) (m : Place α → List (Place α)) : Prop := ∀ x, ∀ y ∈ m x, y.caps i = x.caps i

theorem Leaves.repeatRuns {i : Nat} {m : Place α → List (Place α)} (hm : Leaves i m) (greedy : Bool)
    (fuel lo : Nat) (hi : Option Nat) : Leaves i (repeatRuns m greedy fuel lo hi) := by
  induction fuel generalizing lo hi with
  | zero => exact fun _ _ h => nomatch h
  | succ fuel ih =>
    intro x y hy
    have hmore : ∀ z ∈ (m x).flatMap fun y =>
        if lo = 0 ∧ y.rest.length = x.rest.length then []
        else Ecma.repeatRuns m greedy fuel (lo - 1) (hi.map (· - 1)) y, z.caps i = x.caps i := by
      intro z hz
      obtain ⟨y, hy, hz⟩ := List.mem_flatMap.mp hz
      split_ifs at hz
      · cases hz
      · rw [ih _ _ y z hz, hm x y hy]
    rw [repeatRuns_succ] at hy
    split_ifs at hy with hzero hlo hgreedy
    · rw [List.mem_singleton.mp hy]
    · exact hmore y hy
    · rcases List.mem_append.mp hy with hy | hy
      · exact hmore y hy
      · rw [List.mem_singleton.mp hy]
    · rcases List.mem_cons.mp hy with rfl | hy
      · rfl
      · exact hmore y hy

/-- **A match changes the captures of its own groups only.** -/
theorem runs_leaves [DecidableEq α] {r : Node α} {i : Nat} (hi : i ∉ r.groups) :
    Leaves i (runs r) := by
  induction r with
  | empty =>
    intro x y hy
    rw [List.mem_singleton.mp hy]
  | char p =>
    intro x y hy
    rw [runs_char] at hy
    split at hy
    · split_ifs at hy
      · rw [List.mem_singleton.mp hy]
        rfl
      · cases hy
    · cases hy
  | seq r s hr hs =>
    rw [Node.groups, List.mem_append, not_or] at hi
    intro x z hz
    obtain ⟨y, hy, hz⟩ := List.mem_flatMap.mp hz
    rw [hs hi.2 y z hz, hr hi.1 x y hy]
  | alt r s hr hs =>
    rw [Node.groups, List.mem_append, not_or] at hi
    intro x y hy
    exact (List.mem_append.mp hy).elim (hr hi.1 x y) (hs hi.2 x y)
  | group j r hr =>
    rw [Node.groups, List.mem_cons, not_or] at hi
    intro x z hz
    obtain ⟨y, hy, rfl⟩ := List.mem_map.mp hz
    have hother : Function.update y.caps j (some (x.textTo y)) i = y.caps i := Function.update_of_ne hi.1 _ _
    exact hother.trans (hr hi.2 x y hy)
  | rep lo hi' greedy r hr =>
    have hturn : Leaves i fun y => runs r (y.reset r.groups) := by
      intro x y hy
      rw [hr hi (x.reset r.groups) y hy]
      exact if_neg hi
    intro x y hy
    exact hturn.repeatRuns greedy _ lo hi' x y hy
  | look positive r hr =>
    intro x y hy
    rw [runs_look] at hy
    split at hy
    · next z zs hruns =>
      rw [List.mem_singleton.mp hy]
      exact hr hi x z (by rw [hruns]; exact List.mem_cons_self)
    · rw [List.mem_singleton.mp hy]
    · cases hy
  | back j =>
    intro x y hy
    rw [runs_back] at hy
    split at hy
    · rw [List.mem_singleton.mp hy]
    · split_ifs at hy
      · rw [List.mem_singleton.mp hy]
        rfl
      · cases hy
  | lineBegin =>
    intro x y hy
    rw [runs_lineBegin] at hy
    split_ifs at hy
    · rw [List.mem_singleton.mp hy]
    · cases hy
  | lineEnd =>
    intro x y hy
    rw [runs_lineEnd] at hy
    split_ifs at hy
    · rw [List.mem_singleton.mp hy]
    · cases hy
  | bound word positive =>
    intro x y hy
    rw [runs_bound] at hy
    split_ifs at hy
    · rw [List.mem_singleton.mp hy]
    · cases hy

/-! ## A text between two separators -/

/-- The place `x'` in a text by itself is the place `x` in a word where the separator `d` stands on
both sides of the text. -/
structure Beside (d : α) (b s : List α) (x x' : Place α) : Prop where
  before : x.before = x'.before ++ d :: b
  rest : x.rest = x'.rest ++ d :: s

section Beside

variable {d : α} {b s : List α} {x x' y : Place α}

/-- A match that ends in front of the separator has its end in the text. -/
theorem Beside.follow (h : Beside d b s x x') {t : List α} (hy : x.Behind t y)
    (hlen : s.length < y.rest.length) :
    ∃ w, x'.rest = t ++ w ∧ y.rest = w ++ d :: s ∧
      ∀ caps, Beside d b s y ⟨t.reverse ++ x'.before, w, caps⟩ := by
  have heq : t ++ y.rest = x'.rest ++ d :: s := hy.1.symm.trans h.rest
  rcases List.append_eq_append_iff.mp heq with ⟨w, hx', hrest⟩ | ⟨w, ht, hrest⟩
  · refine ⟨w, hx', hrest, fun caps => ⟨?_, hrest⟩⟩
    rw [hy.2, h.before, List.append_assoc]
  · -- a part of the separator cannot be read
    have hw : w = [] := by
      have := congrArg List.length hrest
      rw [List.length_cons, List.length_append] at this
      exact List.length_eq_zero_iff.mp (by omega)
    subst hw
    rw [List.append_nil] at ht
    rw [List.nil_append] at hrest
    refine ⟨[], by rw [ht, List.append_nil], hrest.symm, fun caps => ⟨?_, hrest.symm⟩⟩
    rw [hy.2, h.before, List.append_assoc]

theorem Beside.length (h : Beside d b s x x') : x.rest.length = x'.rest.length + (s.length + 1) := by
  rw [h.rest, List.length_append, List.length_cons]

theorem Beside.before_ne_nil (h : Beside d b s x x') : x.before ≠ [] := by
  rw [h.before]
  exact List.append_ne_nil_of_right_ne_nil _ (List.cons_ne_nil d b)

theorem Beside.rest_ne_nil (h : Beside d b s x x') : x.rest ≠ [] := by
  rw [h.rest]
  exact List.append_ne_nil_of_right_ne_nil _ (List.cons_ne_nil d s)

theorem any_head_append {p : α → Bool} (hp : p d = false) (u v : List α) :
    (u ++ d :: v).head?.any p = u.head?.any p := by
  cases u with
  | nil => simp [hp]
  | cons a u => rfl

theorem Beside.atBound (h : Beside d b s x x') {word : α → Bool} (hd : word d = false) :
    x.atBound word = x'.atBound word := by
  rw [Place.atBound, Place.atBound, h.before, h.rest, any_head_append hd, any_head_append hd]

end Beside

/-! ## Repetitions as relations -/

/-- The turns of a repetition of `m`, with their bounds. -/
inductive Turns (m : Place α → Place α → Prop) : Nat → Option Nat → Place α → Place α → Prop
  | stop {lo : Nat} {hi : Option Nat} {x : Place α} : lo = 0 ∨ hi = some 0 → Turns m lo hi x x
  | turn {lo : Nat} {hi : Option Nat} {x y z : Place α} : hi ≠ some 0 → m x y →
      ¬ (lo = 0 ∧ y.rest.length = x.rest.length) → Turns m (lo - 1) (hi.map (· - 1)) y z →
      Turns m lo hi x z

theorem mem_repeatRuns_succ {m : Place α → List (Place α)} {greedy : Bool} {fuel lo : Nat}
    {hi : Option Nat} {x z : Place α} :
    z ∈ repeatRuns m greedy (fuel + 1) lo hi x ↔ ((lo = 0 ∨ hi = some 0) ∧ z = x) ∨
      hi ≠ some 0 ∧ ∃ y ∈ m x, ¬ (lo = 0 ∧ y.rest.length = x.rest.length) ∧
        z ∈ repeatRuns m greedy fuel (lo - 1) (hi.map (· - 1)) y := by
  have hmore : (z ∈ (m x).flatMap fun y =>
      if lo = 0 ∧ y.rest.length = x.rest.length then []
      else repeatRuns m greedy fuel (lo - 1) (hi.map (· - 1)) y) ↔
      ∃ y ∈ m x, ¬ (lo = 0 ∧ y.rest.length = x.rest.length) ∧
        z ∈ repeatRuns m greedy fuel (lo - 1) (hi.map (· - 1)) y := by
    rw [List.mem_flatMap]
    refine exists_congr fun y => and_congr_right fun _ => ?_
    split_ifs with hstill <;> simp [hstill]
  rw [repeatRuns_succ]
  dsimp only
  split_ifs with hzero hlo hgreedy
  · simp [hzero]
  · rw [hmore]
    simp [hzero, hlo]
  · rw [List.mem_append, hmore, List.mem_singleton, or_comm]
    simp [hzero, not_not.mp hlo]
  · rw [List.mem_cons, hmore]
    simp [hzero, not_not.mp hlo]

/-- **The places where a repetition can end** are those its turns lead to. -/
theorem mem_repeatRuns_iff {m : Place α → List (Place α)} (hm : Advances m) {greedy : Bool}
    {fuel lo : Nat} {hi : Option Nat} {x z : Place α} (hfuel : lo + x.rest.length < fuel) :
    z ∈ repeatRuns m greedy fuel lo hi x ↔ Turns (fun x y => y ∈ m x) lo hi x z := by
  constructor
  · clear hfuel
    intro h
    induction fuel generalizing lo hi x with
    | zero => cases h
    | succ fuel ih =>
      rcases mem_repeatRuns_succ.mp h with ⟨hstop, rfl⟩ | ⟨hhi, y, hy, hstill, hz⟩
      · exact .stop hstop
      · exact .turn hhi hy hstill (ih hz)
  · intro h
    induction h generalizing fuel with
    | stop hstop =>
      obtain ⟨k, rfl⟩ := Nat.exists_eq_add_one_of_ne_zero (Nat.ne_zero_of_lt hfuel)
      exact mem_repeatRuns_succ.mpr (.inl ⟨hstop, rfl⟩)
    | @turn lo hi x y z hhi hy hstill _ ih =>
      obtain ⟨k, rfl⟩ := Nat.exists_eq_add_one_of_ne_zero (Nat.ne_zero_of_lt hfuel)
      -- a turn that need not be made consumes a character
      obtain ⟨t, ht⟩ := hm x y hy
      have hle := ht.length_le
      exact mem_repeatRuns_succ.mpr (.inr ⟨hhi, y, hy, hstill, ih (by omega)⟩)

theorem Turns.mono {m m' : Place α → Place α → Prop} (hm : ∀ x y, m x y → m' x y) {lo : Nat}
    {hi : Option Nat} {x y : Place α} (h : Turns m lo hi x y) : Turns m' lo hi x y := by
  induction h with
  | stop hstop => exact .stop hstop
  | turn hhi hy hstill _ ih => exact .turn hhi (hm _ _ hy) hstill ih

theorem Turns.length_le {m : Place α → Place α → Prop}
    (hm : ∀ x y, m x y → y.rest.length ≤ x.rest.length) {lo : Nat} {hi : Option Nat} {x y : Place α}
    (h : Turns m lo hi x y) : y.rest.length ≤ x.rest.length := by
  induction h with
  | stop => exact le_rfl
  | turn _ hy _ _ ih => exact ih.trans (hm _ _ hy)

/-- Turns that end in front of the separator, one by one, do so together. -/
theorem Turns.beside {m m' : Place α → Place α → Prop} {d : α} {b s : List α}
    (hback : ∀ x y, m x y → y.rest.length ≤ x.rest.length)
    (hm : ∀ {x x' y}, m x y → Beside d b s x x' → s.length < y.rest.length →
      ∃ y', m' x' y' ∧ Beside d b s y y')
    {lo : Nat} {hi : Option Nat} {x x' y : Place α} (h : Turns m lo hi x y) (hx : Beside d b s x x')
    (hlen : s.length < y.rest.length) : ∃ y', Turns m' lo hi x' y' ∧ Beside d b s y y' := by
  induction h generalizing x' with
  | stop hstop => exact ⟨x', .stop hstop, hx⟩
  | turn hhi hz hstill hy ih =>
    obtain ⟨z', hz', hbeside⟩ := hm hz hx (lt_of_lt_of_le hlen (hy.length_le hback))
    obtain ⟨y', hturns, hbeside'⟩ := ih hbeside hlen
    refine ⟨y', .turn hhi hz' ?_ hturns, hbeside'⟩
    rw [hbeside.length, hx.length] at hstill
    omega

/-! ## Matches that do not see beyond the text -/

section Within

variable [DecidableEq α] {d : α} {b s : List α} {n : Nat}

theorem advances_turn (r : Node α) : Advances fun x => runs r (x.reset r.groups) :=
  fun x y hy => runs_advances r (x.reset r.groups) y hy

theorem mem_runs_rep {lo : Nat} {hi : Option Nat} {greedy : Bool} {r : Node α} {x y : Place α} :
    y ∈ runs (.rep lo hi greedy r) x ↔
      Turns (fun x y => y ∈ runs r (x.reset r.groups)) lo hi x y := by
  rw [runs_rep]
  exact mem_repeatRuns_iff (advances_turn r) (Nat.lt_succ_self _)

/-- A match from `x` to `y`, of an expression that stands between the separators, that does not see
beyond them: no back reference is looked up, and every look-ahead that holds on its way would hold
if the word ended in front of the separator. -/
def Within (d : α) (b s : List α) (n : Nat) : Node α → Place α → Place α → Prop
  | .seq r q, x, z => ∃ y, Within d b s n r x y ∧ Within d b s n q y z
  | .alt r q, x, y => Within d b s n r x y ∨ Within d b s n q x y
  | .group i r, x, z => ∃ y, Within d b s n r x y ∧ z = y.capture (i + n) (x.textTo y)
  | .rep lo hi _ r, x, y =>
    Turns (fun x y => Within d b s n r (x.reset (r.shift n).groups) y) lo hi x y
  | .look positive r, x, y => y ∈ runs (.look positive (r.shift n)) x ∧
      ∀ x', Beside d b s x x' → (runs r x').isEmpty ≠ positive
  | .back _, _, _ => False
  | .bound word positive, x, y => word d = false ∧ y ∈ runs (.bound word positive) x
  | .empty, x, y => y ∈ runs .empty x
  | .char p, x, y => y ∈ runs (.char p) x
  | .lineBegin, x, y => y ∈ runs .lineBegin x
  | .lineEnd, x, y => y ∈ runs .lineEnd x

theorem Within.mem_runs {r : Node α} {x y : Place α} (h : Within d b s n r x y) :
    y ∈ runs (r.shift n) x := by
  induction r generalizing x y with
  | seq r q hr hq =>
    obtain ⟨z, hz, hy⟩ := h
    exact List.mem_flatMap.mpr ⟨z, hr hz, hq hy⟩
  | alt r q hr hq => exact List.mem_append.mpr (h.imp hr hq)
  | group i r hr =>
    obtain ⟨z, hz, rfl⟩ := h
    exact List.mem_map.mpr ⟨z, hr hz, rfl⟩
  | rep lo hi greedy r hr => exact mem_runs_rep.mpr (Turns.mono (fun _ _ => hr) h)
  | look positive r hr => exact h.1
  | back i => exact h.elim
  | bound word positive => exact h.2
  | _ => exact h

theorem Within.length_le {r : Node α} {x y : Place α} (h : Within d b s n r x y) :
    y.rest.length ≤ x.rest.length := by
  obtain ⟨t, ht⟩ := runs_advances _ x y h.mem_runs
  exact ht.length_le

/-- A character in front of the separator. -/
theorem mem_runs_char_beside {p : α → Bool} {x x' y : Place α} (hy : y ∈ runs (.char p) x)
    (hx : Beside d b s x x') (hlen : s.length < y.rest.length) :
    ∃ y' ∈ runs (.char p) x', Beside d b s y y' := by
  rw [runs_char] at hy
  rcases hrest : x.rest with _ | ⟨a, u⟩ <;> rw [hrest] at hy
  · cases hy
  dsimp only at hy
  split_ifs at hy with hp
  · obtain rfl := List.mem_singleton.mp hy
    have ht : x.Behind [a] (x.advance 1) := ⟨by rw [Place.advance_rest, hrest]; rfl,
      by rw [Place.advance, hrest]; rfl⟩
    obtain ⟨w, hw, -, hbeside⟩ := hx.follow ht hlen
    have hnext : x'.advance 1 = ⟨[a].reverse ++ x'.before, w, x'.caps⟩ := by
      rw [Place.advance, hw]
      rfl
    refine ⟨x'.advance 1, ?_, hnext ▸ hbeside x'.caps⟩
    rw [runs_char_cons hw hp]
    exact List.mem_singleton_self _
  · cases hy

/-- A look-ahead that holds leads to places that differ in the captures only. -/
theorem mem_runs_look {positive : Bool} {r : Node α} {x y : Place α} (h : y ∈ runs (.look positive r) x) :
    (runs r x).isEmpty ≠ positive ∧ y.before = x.before ∧ y.rest = x.rest := by
  rw [runs_look] at h
  rcases hruns : runs r x with _ | ⟨z, zs⟩ <;> rw [hruns] at h <;> cases positive
  · rw [List.mem_singleton.mp h]
    simp
  · cases h
  · cases h
  · rw [List.mem_singleton.mp h]
    simp

theorem exists_runs_look {positive : Bool} {r : Node α} {x : Place α} (h : (runs r x).isEmpty ≠ positive) :
    ∃ y ∈ runs (.look positive r) x, y.before = x.before ∧ y.rest = x.rest := by
  have hsome : runs (.look positive r) x ≠ [] := by
    rw [runs_look]
    rcases hruns : runs r x with _ | ⟨z, zs⟩ <;> rw [hruns] at h <;> cases positive <;> simp at h ⊢
  obtain ⟨y, hy⟩ := List.exists_mem_of_ne_nil _ hsome
  exact ⟨y, hy, (mem_runs_look hy).2⟩

/-- **What a match within the text takes**, the expression takes by itself. -/
theorem Within.alone {r : Node α} {x x' y : Place α} (h : Within d b s n r x y)
    (hx : Beside d b s x x') (hlen : s.length < y.rest.length) :
    ∃ y' ∈ runs r x', Beside d b s y y' := by
  induction r generalizing x x' y with
  | empty => exact ⟨x', List.mem_singleton_self x', List.mem_singleton.mp h ▸ hx⟩
  | char p => exact mem_runs_char_beside h hx hlen
  | seq r q hr hq =>
    obtain ⟨z, hz, hy⟩ := h
    obtain ⟨z', hz', hbeside⟩ := hr hz hx (lt_of_lt_of_le hlen hy.length_le)
    obtain ⟨y', hy', hbeside'⟩ := hq hy hbeside hlen
    exact ⟨y', List.mem_flatMap.mpr ⟨z', hz', hy'⟩, hbeside'⟩
  | alt r q hr hq =>
    rcases h with h | h
    · obtain ⟨y', hy', hbeside⟩ := hr h hx hlen
      exact ⟨y', List.mem_append_left _ hy', hbeside⟩
    · obtain ⟨y', hy', hbeside⟩ := hq h hx hlen
      exact ⟨y', List.mem_append_right _ hy', hbeside⟩
  | group i r hr =>
    obtain ⟨z, hz, rfl⟩ := h
    obtain ⟨z', hz', hbeside⟩ := hr hz hx hlen
    exact ⟨_, List.mem_map.mpr ⟨z', hz', rfl⟩, hbeside.before, hbeside.rest⟩
  | rep lo hi greedy r hr =>
    have hturns : Turns (fun x y => Within d b s n r (x.reset (r.shift n).groups) y) lo hi x y := h
    have hturn {x x' y : Place α} (hy : Within d b s n r (x.reset (r.shift n).groups) y)
        (hx : Beside d b s x x') (hlen : s.length < y.rest.length) :
        ∃ y', y' ∈ runs r (x'.reset r.groups) ∧ Beside d b s y y' :=
      hr hy ⟨hx.before, hx.rest⟩ hlen
    obtain ⟨y', hy', hbeside⟩ := hturns.beside (fun _ _ hy => hy.length_le) hturn hx hlen
    exact ⟨y', mem_runs_rep.mpr hy', hbeside⟩
  | look positive r hr =>
    obtain ⟨hy, hlook⟩ := h
    obtain ⟨-, hbefore, hrest⟩ := mem_runs_look hy
    obtain ⟨y', hy', hbefore', hrest'⟩ := exists_runs_look (hlook x' hx)
    refine ⟨y', hy', ?_, ?_⟩
    · rw [hbefore, hbefore', hx.before]
    · rw [hrest, hrest', hx.rest]
  | back i => exact h.elim
  | lineBegin =>
    have hy : y ∈ runs .lineBegin x := h
    rw [runs_lineBegin, if_neg hx.before_ne_nil] at hy
    cases hy
  | lineEnd =>
    have hy : y ∈ runs .lineEnd x := h
    rw [runs_lineEnd, if_neg hx.rest_ne_nil] at hy
    cases hy
  | bound word positive =>
    obtain ⟨hword, hy⟩ := h
    rw [runs_bound, hx.atBound hword] at hy
    rw [runs_bound]
    split_ifs at hy ⊢
    · exact ⟨x', List.mem_singleton_self x', List.mem_singleton.mp hy ▸ hx⟩
    · cases hy

/-- An expression that takes the text between two separators, and sees nothing beyond it, matches
the text. -/
theorem fullMatch_of_within {r : Node α} {t : List α} {x y : Place α}
    (h : Within d b s n r x y) (hbefore : x.before = d :: b) (ht : x.Behind t y)
    (hrest : y.rest = d :: s) : (fullMatch r t).isSome = true := by
  have hx : Beside d b s x (.start t) := by
    refine ⟨hbefore, ?_⟩
    rw [ht.1, hrest]
    rfl
  obtain ⟨y', hy', hbeside⟩ := h.alone hx (by rw [hrest, List.length_cons]; exact Nat.lt_succ_self _)
  have hend : y'.rest = [] := by
    have hsame := hbeside.rest
    rw [hrest] at hsame
    exact List.self_eq_append_left.mp hsame
  rw [fullMatch, Option.isSome_map, List.find?_isSome]
  exact ⟨y', hy', by rw [hend]; rfl⟩

/-- No match of the expression sees beyond the separator `d`: it has no back references, and a
look-ahead that holds in front of the separator holds at the end of the text too. -/
def Confined (d : α) : Node α → Prop
  | .seq r s | .alt r s => Confined d r ∧ Confined d s
  | .group _ r | .rep _ _ _ r => Confined d r
  | .look positive r => ∀ n b s x x', Beside d b s x x' →
      (runs (r.shift n) x).isEmpty ≠ positive → (runs r x').isEmpty ≠ positive
  | .back _ => False
  | .bound word _ => word d = false
  | .empty | .char _ | .lineBegin | .lineEnd => True

theorem Confined.within {r : Node α} (h : Confined d r) {x y : Place α}
    (hy : y ∈ runs (r.shift n) x) : Within d b s n r x y := by
  induction r generalizing x y with
  | seq r q hr hq =>
    obtain ⟨z, hz, hy⟩ := List.mem_flatMap.mp hy
    exact ⟨z, hr h.1 hz, hq h.2 hy⟩
  | alt r q hr hq => exact (List.mem_append.mp hy).imp (hr h.1) (hq h.2)
  | group i r hr =>
    obtain ⟨z, hz, rfl⟩ := List.mem_map.mp hy
    exact ⟨z, hr h hz, rfl⟩
  | rep lo hi greedy r hr => exact Turns.mono (fun _ _ => hr h) (mem_runs_rep.mp hy)
  | look positive r hr =>
    exact ⟨hy, fun x' hx => h n b s x x' hx (mem_runs_look hy).1⟩
  | back i => exact h.elim
  | bound word positive => exact ⟨h, hy⟩
  | _ => exact hy

end Within

/-! ## The numbers of the groups -/

/-- The groups of `r` are numbered from one to `n` at most. -/
def NumberedTo (n : Nat) (r : Node α) : Prop := ∀ i ∈ r.groups, 0 < i ∧ i ≤ n

theorem NumberedTo.mono {r : Node α} {m n : Nat} (h : NumberedTo m r) (hmn : m ≤ n) :
    NumberedTo n r := fun i hi => ⟨(h i hi).1, (h i hi).2.trans hmn⟩

theorem numberedTo_seq {r s : Node α} {n : Nat} :
    NumberedTo n (.seq r s) ↔ NumberedTo n r ∧ NumberedTo n s := List.forall_mem_append

theorem numberedTo_alt {r s : Node α} {n : Nat} :
    NumberedTo n (.alt r s) ↔ NumberedTo n r ∧ NumberedTo n s := List.forall_mem_append

theorem numberedTo_group {r : Node α} {i n : Nat} :
    NumberedTo n (.group i r) ↔ (0 < i ∧ i ≤ n) ∧ NumberedTo n r := List.forall_mem_cons

namespace Frame

/-- Every part of the frame is numbered so. -/
structure NumberedTo (n : Nat) (f : Frame) : Prop where
  opener : ∀ i, f.opener = .capture i → 0 < i ∧ i ≤ n
  alts : ∀ r, f.alts = some r → Ecma.NumberedTo n r
  terms : Ecma.NumberedTo n f.terms
  last : ∀ r, f.last = some r → Ecma.NumberedTo n r

variable {f g : Frame} {m n : Nat}

theorem NumberedTo.mono (h : f.NumberedTo m) (hmn : m ≤ n) : f.NumberedTo n :=
  ⟨fun i hi => ⟨(h.opener i hi).1, (h.opener i hi).2.trans hmn⟩, fun r hr => (h.alts r hr).mono hmn,
    h.terms.mono hmn, fun r hr => (h.last r hr).mono hmn⟩

theorem NumberedTo.node (h : f.NumberedTo n) : Ecma.NumberedTo n f.node := by
  have hlast := h.last
  unfold Frame.node
  cases hl : f.last with
  | none => exact h.terms
  | some t => exact numberedTo_seq.mpr ⟨h.terms, hlast t hl⟩

theorem NumberedTo.disjunction (h : f.NumberedTo n) : Ecma.NumberedTo n f.disjunction := by
  unfold Frame.disjunction
  cases ha : f.alts with
  | none => exact h.node
  | some r => exact numberedTo_alt.mpr ⟨h.alts r ha, h.node⟩

theorem numberedTo_fresh {opener : Opener} (h : ∀ i, opener = .capture i → 0 < i ∧ i ≤ n) :
    (fresh opener).NumberedTo n :=
  ⟨h, fun _ hr => (nomatch hr), fun _ hi => (nomatch hi), fun _ hr => (nomatch hr)⟩

theorem NumberedTo.atom (h : f.NumberedTo n) {t : Node Byte} (ht : Ecma.NumberedTo n t) :
    (f.atom t).NumberedTo n :=
  ⟨h.opener, h.alts, h.node, fun _ hr => Option.some.inj hr ▸ ht⟩

theorem NumberedTo.done (h : f.NumberedTo n) {t : Node Byte} (ht : Ecma.NumberedTo n t) :
    (f.done t).NumberedTo n :=
  ⟨h.opener, h.alts, numberedTo_seq.mpr ⟨h.node, ht⟩, fun _ hr => (nomatch hr)⟩

theorem NumberedTo.nextAlt (h : f.NumberedTo n) : f.nextAlt.NumberedTo n :=
  ⟨h.opener, fun _ hr => Option.some.inj hr ▸ h.disjunction, fun _ hi => (nomatch hi),
    fun _ hr => (nomatch hr)⟩

theorem NumberedTo.quantify (h : f.NumberedTo n) {lo : Nat} {hi : Option Nat} {greedy : Bool}
    (hg : f.quantify lo hi greedy = some g) : g.NumberedTo n := by
  obtain ⟨t, ht, rfl⟩ := Option.map_eq_some_iff.mp hg
  exact ⟨h.opener, h.alts, numberedTo_seq.mpr ⟨h.terms, h.last t ht⟩, fun _ hr => (nomatch hr)⟩

theorem NumberedTo.close {inner : Frame} (h : f.NumberedTo n) (hinner : inner.NumberedTo n)
    (hg : f.close inner = some g) : g.NumberedTo n := by
  unfold Frame.close at hg
  cases hi : inner.opener with
  | top => simp [hi] at hg
  | capture i =>
    obtain rfl := Option.some.inj (hi ▸ hg)
    exact h.atom (numberedTo_group.mpr ⟨hinner.opener i hi, hinner.disjunction⟩)
  | plain =>
    obtain rfl := Option.some.inj (hi ▸ hg)
    exact h.atom hinner.disjunction
  | look positive =>
    obtain rfl := Option.some.inj (hi ▸ hg)
    exact h.done hinner.disjunction

end Frame

namespace Scan

/-- All that has been read is numbered up to the groups that were opened. -/
def Numbered (st : Scan) : Prop := ∀ f ∈ st.frame :: st.outer, f.NumberedTo st.groups

variable {st st' : Scan}

theorem numbered_iff :
    st.Numbered ↔ st.frame.NumberedTo st.groups ∧ ∀ f ∈ st.outer, f.NumberedTo st.groups :=
  List.forall_mem_cons

theorem numberedTo_of_groups_nil {n : Nat} {t : Node Byte} (h : t.groups = []) : NumberedTo n t := by
  intro i hi
  rw [h] at hi
  cases hi

theorem Numbered.atom (h : st.Numbered) {t : Node Byte} (ht : t.groups = []) :
    (st.atom t).Numbered := by
  obtain ⟨hframe, houter⟩ := numbered_iff.mp h
  exact numbered_iff.mpr ⟨hframe.atom (numberedTo_of_groups_nil ht), houter⟩

theorem Numbered.done (h : st.Numbered) {t : Node Byte} (ht : t.groups = []) :
    (st.done t).Numbered := by
  obtain ⟨hframe, houter⟩ := numbered_iff.mp h
  exact numbered_iff.mpr ⟨hframe.done (numberedTo_of_groups_nil ht), houter⟩

theorem Numbered.quantify (h : st.Numbered) {lo : Nat} {hi : Option Nat} {greedy : Bool}
    (hq : st.quantify lo hi greedy = some st') : st'.Numbered := by
  obtain ⟨hframe, houter⟩ := numbered_iff.mp h
  obtain ⟨f, hf, rfl⟩ := Option.map_eq_some_iff.mp hq
  exact numbered_iff.mpr ⟨hframe.quantify hf, houter⟩

theorem Numbered.quantifier (h : st.Numbered) {mode : Mode}
    (hq : st.quantifier mode = some st') : st'.Numbered := by
  obtain ⟨t, -, rfl⟩ := Option.map_eq_some_iff.mp hq
  exact h

theorem Numbered.opened (h : st.Numbered) {opener : Opener} (hopener : ∀ i, opener ≠ .capture i) :
    (st.opened opener).Numbered :=
  List.forall_mem_cons.mpr ⟨Frame.numberedTo_fresh fun i hi => absurd hi (hopener i), h⟩

theorem Numbered.settle (h : st.Numbered) (hs : st.settle = some st') : st'.Numbered := by
  unfold Scan.settle at hs
  cases hm : st.mode <;> simp only [hm, reduceCtorEq] at hs
  case normal => exact Option.some.inj hs ▸ h
  case paren =>
    obtain rfl := Option.some.inj hs
    refine List.forall_mem_cons.mpr ⟨Frame.numberedTo_fresh ?_, ?_⟩
    · rintro i ⟨⟩
      exact ⟨Nat.succ_pos _, Nat.le_refl _⟩
    · exact fun f hf => (h f hf).mono (Nat.le_succ _)
  case quantifier lo hi => exact h.quantify hs
  case backref k =>
    obtain rfl := Option.some.inj hs
    exact h.atom rfl

theorem Numbered.normalStep (h : st.Numbered) {c : Byte} (hs : st.normalStep c = some st') :
    st'.Numbered := by
  obtain ⟨hframe, houter⟩ := numbered_iff.mp h
  unfold Scan.normalStep at hs
  cases ht : tokenOf c <;> simp only [ht] at hs
  case parenClose =>
    cases hout : st.outer with
    | nil => simp [hout] at hs
    | cons f rest =>
      simp only [hout, Option.map_eq_some_iff] at hs
      obtain ⟨f', hclose, rfl⟩ := hs
      rw [hout, List.forall_mem_cons] at houter
      exact List.forall_mem_cons.mpr ⟨houter.1.close hframe hclose, houter.2⟩
  case brace => exact h.quantifier hs
  case repetition lo hi => exact h.quantifier hs
  case bar =>
    obtain rfl := Option.some.inj hs
    exact List.forall_mem_cons.mpr ⟨hframe.nextAlt, houter⟩
  case lineBegin =>
    obtain rfl := Option.some.inj hs
    exact h.done rfl
  case lineEnd =>
    obtain rfl := Option.some.inj hs
    exact h.done rfl
  case char p =>
    obtain rfl := Option.some.inj hs
    exact h.atom rfl
  all_goals
    obtain rfl := Option.some.inj hs
    exact h

theorem Numbered.settled_step (h : st.Numbered) {c : Byte}
    (hs : (st.settle.bind fun st => st.normalStep c) = some st') : st'.Numbered := by
  obtain ⟨q, hq, hstep⟩ := Option.bind_eq_some_iff.mp hs
  exact (h.settle hq).normalStep hstep

theorem Numbered.step (h : st.Numbered) {c : Byte} (hs : st.step c = some st') :
    st'.Numbered := by
  unfold Scan.step at hs
  cases hm : st.mode <;> simp only [hm] at hs
  case normal => exact h.normalStep hs
  case paren =>
    split_ifs at hs
    · obtain rfl := Option.some.inj hs
      exact h
    · exact h.settled_step hs
  case parenQuery =>
    split_ifs at hs
    all_goals
      obtain rfl := Option.some.inj hs
      exact h.opened fun _ hi => (nomatch hi)
  case quantifier lo hi =>
    split_ifs at hs
    · exact h.quantify hs
    · exact h.settled_step hs
  case braceLo read =>
    cases read with
    | none | some lo =>
      simp only at hs
      split_ifs at hs
      all_goals
        obtain rfl := Option.some.inj hs
        exact h
  case braceHi lo read =>
    split_ifs at hs
    all_goals
      obtain rfl := Option.some.inj hs
      exact h
  case escape =>
    cases he : escapeOf false c <;> simp only [he] at hs <;> obtain rfl := Option.some.inj hs
    case char d => exact h.atom rfl
    case set p => exact h.atom rfl
    case bound positive => exact h.done rfl
    all_goals exact h
  case control =>
    split_ifs at hs
    obtain rfl := Option.some.inj hs
    exact h.atom rfl
  case hex left value =>
    split_ifs at hs
    · obtain rfl := Option.some.inj hs
      exact h.atom rfl
    · obtain rfl := Option.some.inj hs
      exact h
  case backref k =>
    split_ifs at hs
    · obtain rfl := Option.some.inj hs
      exact h
    · exact h.settled_step hs
  case inClass k =>
    split at hs
    · obtain rfl := Option.some.inj hs
      exact h.atom rfl
    · obtain ⟨k', -, rfl⟩ := Option.map_eq_some_iff.mp hs
      exact h

theorem Numbered.run (h : st.Numbered) {text : List Byte} (hr : st.run text = some st') :
    st'.Numbered := by
  induction text generalizing st with
  | nil => exact Option.some.inj hr ▸ h
  | cons c text ih =>
    rw [Scan.run, List.foldlM_cons] at hr
    obtain ⟨q, hq, hrest⟩ := Option.bind_eq_some_iff.mp hr
    exact ih (h.step hq) hrest

end Scan

/-- **The groups of an expression** are numbered from one to their count. -/
theorem compile_numbered {text : List Byte} {r : Node Byte} (h : compile text = some r) :
    NumberedTo (groupCount text) r := by
  obtain ⟨st, hscan, -, rfl, hgroups, -⟩ := compile_eq_some h
  obtain ⟨q, hrun, hsettle⟩ := Option.bind_eq_some_iff.mp hscan
  have hstart : Scan.start.Numbered := by
    rw [Scan.Numbered, List.forall_mem_cons]
    exact ⟨Frame.numberedTo_fresh fun _ hi => (nomatch hi), fun _ hf => (nomatch hf)⟩
  have hnumbered := ((hstart.run hrun).settle hsettle) st.frame List.mem_cons_self
  rw [hgroups] at hnumbered
  exact hnumbered.disjunction

end Ecma
