import Mathlib

/-!
# ECMAScript regular expressions

`Node` is an expression after it has been read, and `runs` lists the ways to
match it from a place in a word in the order in which a backtracking matcher
tries them.  The first of them that ends where it has to is the match.  A
repetition forgets the groups inside of it before each turn, and gives up a turn
that consumes nothing once it has made the turns it must.
-/

namespace Ecma

variable {α : Type}

inductive Node (α : Type)
  | empty
  | char (p : α → Bool)
  | seq (r s : Node α)
  | alt (r s : Node α)
  /-- `(r)`, the group with the number `i`. -/
  | group (i : Nat) (r : Node α)
  /-- `r{lo,hi}`, without an upper bound where `hi` is `none`. -/
  | rep (lo : Nat) (hi : Option Nat) (greedy : Bool) (r : Node α)
  /-- `(?=r)` or `(?!r)`. -/
  | look (positive : Bool) (r : Node α)
  | back (i : Nat)
  | lineBegin
  | lineEnd
  /-- `\b` or `\B`, between characters of which one is in `word`. -/
  | bound (word : α → Bool) (positive : Bool)

namespace Node

/-- The numbers of the groups of an expression. -/
def groups : Node α → List Nat
  | seq r s | alt r s => r.groups ++ s.groups
  | group i r => i :: r.groups
  | rep _ _ _ r | look _ r => r.groups
  | _ => []

/-- The expression with its groups numbered from `n` on. -/
def shift (n : Nat) : Node α → Node α
  | seq r s => seq (r.shift n) (s.shift n)
  | alt r s => alt (r.shift n) (s.shift n)
  | group i r => group (i + n) (r.shift n)
  | rep lo hi greedy r => rep lo hi greedy (r.shift n)
  | look positive r => look positive (r.shift n)
  | r => r

end Node

abbrev Captures (α : Type) := Nat → Option (List α)

/-- A place in the word, the nearest character before it first, and the captures so far. -/
structure Place (α : Type) where
  before : List α
  rest : List α
  caps : Captures α

namespace Place

/-- The place before the word. -/
def start (w : List α) : Place α := ⟨[], w, fun _ => none⟩

/-- The place behind the next `n` characters. -/
def advance (x : Place α) (n : Nat) : Place α :=
  { x with before := (x.rest.take n).reverse ++ x.before, rest := x.rest.drop n }

/-- The text from `x` to `y`. -/
def textTo (x y : Place α) : List α := x.rest.take (x.rest.length - y.rest.length)

def capture (x : Place α) (i : Nat) (t : List α) : Place α :=
  { x with caps := Function.update x.caps i (some t) }

def reset (is : List Nat) (x : Place α) : Place α :=
  { x with caps := fun i => if i ∈ is then none else x.caps i }

/-- The characters around the place are of different kinds. -/
def atBound (word : α → Bool) (x : Place α) : Bool :=
  x.before.head?.any word != x.rest.head?.any word

end Place

/-- `RepeatMatcher`, for the matcher `m` of one turn and at most `fuel` turns. -/
def repeatRuns (m : Place α → List (Place α)) (greedy : Bool) :
    Nat → Nat → Option Nat → Place α → List (Place α)
  | 0, _, _, _ => []
  | fuel + 1, lo, hi, x =>
    if hi = some 0 then [x]
    else
      let more := (m x).flatMap fun y =>
        if lo = 0 ∧ y.rest.length = x.rest.length then []
        else repeatRuns m greedy fuel (lo - 1) (hi.map (· - 1)) y
      if lo ≠ 0 then more
      else if greedy then more ++ [x]
      else x :: more

/-- The places where a match that begins at `x` can end. -/
def runs [DecidableEq α] : Node α → Place α → List (Place α)
  | .empty, x => [x]
  | .char p, x =>
    match x.rest with
    | a :: _ => if p a then [x.advance 1] else []
    | [] => []
  | .seq r s, x => (runs r x).flatMap (runs s)
  | .alt r s, x => runs r x ++ runs s x
  | .group i r, x => (runs r x).map fun y => y.capture i (x.textTo y)
  | .rep lo hi greedy r, x =>
    -- every turn behind the first `lo` consumes a character
    repeatRuns (fun y => runs r (y.reset r.groups)) greedy (lo + x.rest.length + 1) lo hi x
  | .look positive r, x =>
    match runs r x, positive with
    | y :: _, true => [{ x with caps := y.caps }]
    | [], false => [x]
    | _, _ => []
  | .back i, x =>
    match x.caps i with
    | none => [x]
    | some t => if t.isPrefixOf x.rest then [x.advance t.length] else []
  | .lineBegin, x => if x.before = [] then [x] else []
  | .lineEnd, x => if x.rest = [] then [x] else []
  | .bound word positive, x => if x.atBound word = positive then [x] else []

/-- A match of the whole word, and what its groups have captured. -/
def fullMatch [DecidableEq α] (r : Node α) (w : List α) : Option (Captures α) :=
  ((runs r (.start w)).find? fun y => y.rest.isEmpty).map Place.caps

/-! ## The equations of the matcher -/

theorem repeatRuns_succ (m : Place α → List (Place α)) (greedy : Bool) (fuel lo : Nat)
    (hi : Option Nat) (x : Place α) :
    repeatRuns m greedy (fuel + 1) lo hi x =
      if hi = some 0 then [x]
      else
        let more := (m x).flatMap fun y =>
          if lo = 0 ∧ y.rest.length = x.rest.length then []
          else repeatRuns m greedy fuel (lo - 1) (hi.map (· - 1)) y
        if lo ≠ 0 then more
        else if greedy then more ++ [x]
        else x :: more := rfl

section

variable [DecidableEq α]

theorem runs_char (p : α → Bool) (x : Place α) :
    runs (.char p) x =
      match x.rest with
      | a :: _ => if p a then [x.advance 1] else []
      | [] => [] := rfl

theorem runs_seq (r s : Node α) (x : Place α) :
    runs (.seq r s) x = (runs r x).flatMap (runs s) := rfl

theorem runs_group (i : Nat) (r : Node α) (x : Place α) :
    runs (.group i r) x = (runs r x).map fun y => y.capture i (x.textTo y) := rfl

theorem runs_rep (lo : Nat) (hi : Option Nat) (greedy : Bool) (r : Node α) (x : Place α) :
    runs (.rep lo hi greedy r) x =
      repeatRuns (fun y => runs r (y.reset r.groups)) greedy (lo + x.rest.length + 1) lo hi x := rfl

theorem runs_look (positive : Bool) (r : Node α) (x : Place α) :
    runs (.look positive r) x =
      match runs r x, positive with
      | y :: _, true => [{ x with caps := y.caps }]
      | [], false => [x]
      | _, _ => [] := rfl

theorem runs_back (i : Nat) (x : Place α) :
    runs (.back i) x =
      match x.caps i with
      | none => [x]
      | some t => if t.isPrefixOf x.rest then [x.advance t.length] else [] := rfl

theorem runs_lineBegin (x : Place α) :
    runs (.lineBegin : Node α) x = if x.before = [] then [x] else [] := rfl

theorem runs_lineEnd (x : Place α) :
    runs (.lineEnd : Node α) x = if x.rest = [] then [x] else [] := rfl

theorem runs_bound (word : α → Bool) (positive : Bool) (x : Place α) :
    runs (.bound word positive) x = if x.atBound word = positive then [x] else [] := rfl

end

/-! ## Places -/

namespace Place

@[simp] theorem advance_rest (x : Place α) (n : Nat) : (x.advance n).rest = x.rest.drop n := rfl

@[simp] theorem capture_rest (x : Place α) (i : Nat) (t : List α) :
    (x.capture i t).rest = x.rest := rfl

@[simp] theorem advance_zero (x : Place α) : x.advance 0 = x := rfl

theorem advance_advance (x : Place α) (m n : Nat) : (x.advance m).advance n = x.advance (m + n) := by
  simp only [advance, List.drop_drop, List.take_add, List.reverse_append, List.append_assoc]

/-- The place `y` is behind `x`, with the text `t` between them. -/
def Behind (x : Place α) (t : List α) (y : Place α) : Prop :=
  x.rest = t ++ y.rest ∧ y.before = t.reverse ++ x.before

theorem Behind.refl (x : Place α) : x.Behind [] x := ⟨rfl, rfl⟩

theorem Behind.trans {x y z : Place α} {t u : List α} (h : x.Behind t y) (h' : y.Behind u z) :
    x.Behind (t ++ u) z :=
  ⟨by rw [h.1, h'.1, List.append_assoc], by rw [h'.2, h.2, List.reverse_append, List.append_assoc]⟩

theorem Behind.advance {x : Place α} {n : Nat} : x.Behind (x.rest.take n) (x.advance n) :=
  ⟨(List.take_append_drop n x.rest).symm, rfl⟩

theorem Behind.length_le {x y : Place α} {t : List α} (h : x.Behind t y) :
    y.rest.length ≤ x.rest.length := by
  rw [h.1, List.length_append]
  exact Nat.le_add_left _ _

theorem Behind.textTo {x y : Place α} {t : List α} (h : x.Behind t y) : x.textTo y = t := by
  rw [Place.textTo, h.1, List.length_append, Nat.add_sub_cancel, List.take_left]

end Place

/-! ## Repetitions -/

/-- Every turn of a repetition ends behind the place it begins at. -/
def Advances (m : Place α → List (Place α)) : Prop := ∀ x, ∀ y ∈ m x, ∃ t, x.Behind t y

theorem Advances.repeatRuns {m : Place α → List (Place α)} (hm : Advances m) (greedy : Bool)
    (fuel lo : Nat) (hi : Option Nat) : Advances (repeatRuns m greedy fuel lo hi) := by
  induction fuel generalizing lo hi with
  | zero => exact fun _ _ h => nomatch h
  | succ fuel ih =>
    intro x y hy
    have hmore : ∀ y ∈ (m x).flatMap fun y =>
        if lo = 0 ∧ y.rest.length = x.rest.length then []
        else Ecma.repeatRuns m greedy fuel (lo - 1) (hi.map (· - 1)) y, ∃ t, x.Behind t y := by
      intro z hz
      obtain ⟨y, hy, hz⟩ := List.mem_flatMap.mp hz
      obtain ⟨t, ht⟩ := hm x y hy
      split_ifs at hz
      · cases hz
      · obtain ⟨u, hu⟩ := ih _ _ y z hz
        exact ⟨t ++ u, ht.trans hu⟩
    rw [repeatRuns_succ] at hy
    split_ifs at hy with hzero hlo hgreedy
    · exact ⟨[], List.mem_singleton.mp hy ▸ .refl x⟩
    · exact hmore y hy
    · rcases List.mem_append.mp hy with hy | hy
      · exact hmore y hy
      · exact ⟨[], List.mem_singleton.mp hy ▸ .refl x⟩
    · rcases List.mem_cons.mp hy with rfl | hy
      · exact ⟨[], .refl y⟩
      · exact hmore y hy

/-- **A match ends behind the place it begins at.** -/
theorem runs_advances [DecidableEq α] (r : Node α) : Advances (runs r) := by
  induction r with
  | empty =>
    intro x y hy
    exact ⟨[], List.mem_singleton.mp hy ▸ .refl x⟩
  | char p =>
    intro x y hy
    rw [runs_char] at hy
    split at hy
    · split_ifs at hy
      · obtain rfl := List.mem_singleton.mp hy
        exact ⟨_, .advance⟩
      · cases hy
    · cases hy
  | seq r s hr hs =>
    intro x z hz
    obtain ⟨y, hy, hz⟩ := List.mem_flatMap.mp hz
    obtain ⟨t, ht⟩ := hr x y hy
    obtain ⟨u, hu⟩ := hs y z hz
    exact ⟨t ++ u, ht.trans hu⟩
  | alt r s hr hs =>
    intro x y hy
    exact (List.mem_append.mp hy).elim (hr x y) (hs x y)
  | group i r hr =>
    intro x z hz
    obtain ⟨y, hy, rfl⟩ := List.mem_map.mp hz
    exact hr x y hy
  | rep lo hi greedy r hr =>
    intro x y hy
    exact Advances.repeatRuns (fun x y hy => hr (x.reset r.groups) y hy) greedy _ lo hi x y hy
  | look positive r hr =>
    intro x y hy
    have hsame : x.Behind [] y := by
      rw [runs_look] at hy
      split at hy
      · exact List.mem_singleton.mp hy ▸ ⟨rfl, rfl⟩
      · exact List.mem_singleton.mp hy ▸ ⟨rfl, rfl⟩
      · cases hy
    exact ⟨[], hsame⟩
  | back i =>
    intro x y hy
    rw [runs_back] at hy
    split at hy
    · exact ⟨[], List.mem_singleton.mp hy ▸ .refl x⟩
    · split_ifs at hy
      · obtain rfl := List.mem_singleton.mp hy
        exact ⟨_, .advance⟩
      · cases hy
  | lineBegin =>
    intro x y hy
    rw [runs_lineBegin] at hy
    split_ifs at hy
    · exact ⟨[], List.mem_singleton.mp hy ▸ .refl x⟩
    · cases hy
  | lineEnd =>
    intro x y hy
    rw [runs_lineEnd] at hy
    split_ifs at hy
    · exact ⟨[], List.mem_singleton.mp hy ▸ .refl x⟩
    · cases hy
  | bound word positive =>
    intro x y hy
    rw [runs_bound] at hy
    split_ifs at hy
    · exact ⟨[], List.mem_singleton.mp hy ▸ .refl x⟩
    · cases hy

/-- A part that may be left out, of which every match consumes something. -/
theorem runs_optional [DecidableEq α] {r : Node α} {x : Place α}
    (h : ∀ y ∈ runs r (x.reset r.groups), y.rest.length ≠ x.rest.length) :
    runs (.rep 0 (some 1) true r) x = runs r (x.reset r.groups) ++ [x] := by
  have hturn : ((runs r (x.reset r.groups)).flatMap fun y =>
      if 0 = 0 ∧ y.rest.length = x.rest.length then []
      else repeatRuns (fun y => runs r (y.reset r.groups)) true x.rest.length 0 (some 0) y) =
        (runs r (x.reset r.groups)).flatMap fun y => [y] := by
    refine List.flatMap_congr fun y hy => ?_
    obtain ⟨t, ht⟩ := runs_advances r _ y hy
    have hle : y.rest.length ≤ x.rest.length := ht.length_le
    have hlt := lt_of_le_of_ne hle (h y hy)
    obtain ⟨k, hk⟩ := Nat.exists_eq_add_one_of_ne_zero (Nat.ne_zero_of_lt hlt)
    rw [if_neg fun hsame => h y hy hsame.2, hk]
    rfl
  rw [runs_rep, Nat.zero_add, repeatRuns_succ, if_neg (by decide), if_neg (by decide), if_pos rfl]
  exact congrArg (· ++ [x]) (hturn.trans (List.flatMap_singleton' _))

theorem mem_runs_optional [DecidableEq α] {r : Node α} {x y : Place α}
    (h : y ∈ runs (.rep 0 (some 1) true r) x) : y = x ∨ y ∈ runs r (x.reset r.groups) := by
  rw [runs_rep, Nat.zero_add, repeatRuns_succ, if_neg (by decide), if_neg (by decide), if_pos rfl] at h
  rcases List.mem_append.mp h with h | h
  · obtain ⟨z, hz, h⟩ := List.mem_flatMap.mp h
    split_ifs at h
    · cases h
    · cases hfuel : x.rest.length with
      | zero =>
        rw [hfuel] at h
        cases h
      | succ fuel =>
        have hone : (some 1).map (· - 1) = some 0 := rfl
        rw [hfuel, hone, repeatRuns_succ, if_pos rfl, List.mem_singleton] at h
        exact .inr (h ▸ hz)
  · exact .inl (List.mem_singleton.mp h)

/-! ## Repetitions of one character -/

section Class

variable [DecidableEq α] {p : α → Bool}

theorem runs_char_cons {a : α} {w : List α} {x : Place α} (hx : x.rest = a :: w) (hp : p a = true) :
    runs (.char p) x = [x.advance 1] := by
  simp [runs_char, hx, hp]

/-- The longest repetition of a class comes first. -/
theorem repeatRuns_class {fuel : Nat} {x : Place α} (h : x.rest.length < fuel) :
    repeatRuns (runs (.char p)) true fuel 0 none x =
      (List.range ((x.rest.takeWhile p).length + 1)).reverse.map x.advance := by
  induction fuel generalizing x with
  | zero => exact absurd h (Nat.not_lt_zero _)
  | succ fuel ih =>
    rw [repeatRuns_succ, if_neg (by decide), if_neg (by decide), if_pos rfl]
    rcases hx : x.rest with _ | ⟨a, w⟩
    · simp [runs_char, hx]
    cases hp : p a with
    | false => simp [runs_char, hx, hp]
    | true =>
      have hrest : (x.advance 1).rest = w := by simp [hx]
      have hlen : (x.advance 1).rest.length ≠ (a :: w).length := by simp [hx]
      have hfuel : (x.advance 1).rest.length < fuel := by
        rw [hx, List.length_cons] at h
        rw [hrest]
        omega
      have hshift : x.advance ∘ Nat.succ = (x.advance 1).advance := by
        funext n
        rw [Function.comp_apply, Place.advance_advance, Nat.add_comm 1]
      rw [runs_char_cons hx hp, List.flatMap_cons, List.flatMap_nil, List.append_nil,
        if_neg fun hsame => hlen hsame.2, Option.map_none, Nat.zero_sub, ih hfuel, hrest, List.takeWhile_cons_of_pos hp,
        List.length_cons, List.range_succ_eq_map (n := (w.takeWhile p).length + 1),
        List.reverse_cons, List.map_append, ← List.map_reverse, List.map_map, hshift]
      rfl

/-- `[p]+` -/
theorem runs_class_plus (x : Place α) :
    runs (.rep 1 none true (.char p)) x =
      (List.range (x.rest.takeWhile p).length).reverse.map fun n => x.advance (n + 1) := by
  have hmatcher : (fun y : Place α => runs (.char p) (y.reset (Node.char p).groups)) =
      runs (.char p) := rfl
  rw [runs_rep, hmatcher, repeatRuns_succ, if_neg (by decide), if_pos (by decide)]
  rcases hx : x.rest with _ | ⟨a, w⟩
  · simp [runs_char, hx]
  cases hp : p a with
  | false => simp [runs_char, hx, hp]
  | true =>
    have hrest : (x.advance 1).rest = w := by simp [hx]
    rw [runs_char_cons hx hp, List.flatMap_cons, List.flatMap_nil, List.append_nil,
      if_neg fun hsame => absurd hsame.1 (by decide), Option.map_none, Nat.sub_self,
      repeatRuns_class (by rw [hrest, List.length_cons]; omega), hrest,
      List.takeWhile_cons_of_pos hp, List.length_cons]
    refine List.map_congr_left fun n _ => ?_
    rw [Place.advance_advance, Nat.add_comm]

/-- **A group `([p]+)` in front of a character outside of the class** takes all the characters
of the class. -/
theorem runs_class_until {c : α} (hc : p c = false) (i : Nat) (x : Place α) :
    runs (.seq (.group i (.rep 1 none true (.char p))) (.char (· == c))) x =
      if x.rest.takeWhile p ≠ [] ∧ (x.rest.dropWhile p).head? = some c then
        [(x.advance ((x.rest.takeWhile p).length + 1)).capture i (x.rest.takeWhile p)]
      else [] := by
  have hcut : x.rest = x.rest.takeWhile p ++ x.rest.dropWhile p :=
    List.takeWhile_append_dropWhile.symm
  have hclass : ∀ a ∈ x.rest.takeWhile p, p a = true := fun a => List.mem_takeWhile_imp
  rw [runs_seq, runs_group, runs_class_plus]
  generalize x.rest.takeWhile p = u at hcut hclass ⊢
  generalize x.rest.dropWhile p = v at hcut ⊢
  -- a place before the end of `u` has a character of the class in front of it
  have hwithin : ∀ n, n + 1 < u.length →
      runs (.char (· == c)) ((x.advance (n + 1)).capture i (x.textTo (x.advance (n + 1)))) = [] := by
    intro n hn
    have hdrop : x.rest.drop (n + 1) = u[n + 1] :: (x.rest.drop (n + 2)) := by
      rw [hcut, List.drop_append_of_le_length (by omega), List.drop_append_of_le_length (by omega),
        List.drop_eq_getElem_cons hn, List.cons_append]
    have hne : (u[n + 1] == c) = false := by
      refine beq_eq_false_iff_ne.mpr fun h => ?_
      have hp := hclass _ (List.getElem_mem hn)
      rw [h, hc] at hp
      cases hp
    simp [runs_char, hdrop, hne]
  have hend : runs (.char (· == c)) ((x.advance u.length).capture i (x.textTo (x.advance u.length))) =
      if v.head? = some c then [(x.advance (u.length + 1)).capture i u] else [] := by
    have hdrop : x.rest.drop u.length = v := by rw [hcut, List.drop_left]
    have htext : x.textTo (x.advance u.length) = u := by
      rw [Place.Behind.advance.textTo, hcut, List.take_left]
    have hnext : ((x.advance u.length).capture i u).advance 1 =
        (x.advance (u.length + 1)).capture i u := by
      rw [← Place.advance_advance]
      rfl
    rw [htext]
    cases v with
    | nil => simp [runs_char, hdrop]
    | cons d v => simp [runs_char, hdrop, hnext]
  rcases hu : u.length with _ | k
  · obtain rfl := List.length_eq_zero_iff.mp hu
    simp
  have hne : u ≠ [] := fun h => by simp [h] at hu
  rw [List.range_succ, List.reverse_append, List.reverse_singleton, List.singleton_append,
    List.map_cons, List.map_cons, List.flatMap_cons, ← hu, hend, List.map_map, List.flatMap_map,
    List.flatMap_eq_nil_iff.mpr, List.append_nil]
  · simp [hne]
  · intro n hn
    rw [List.mem_reverse, List.mem_range] at hn
    exact hwithin n (by omega)

end Class

/-! ## Sequences -/

/-- The matches of many expressions one after the other. -/
def runsAll [DecidableEq α] : List (Node α) → Place α → List (Place α)
  | [], x => [x]
  | r :: rs, x => (runs r x).flatMap (runsAll rs)

theorem runs_foldl_seq [DecidableEq α] (rs : List (Node α)) (r : Node α) (x : Place α) :
    runs (rs.foldl .seq r) x = (runs r x).flatMap (runsAll rs) := by
  induction rs generalizing r with
  | nil => exact (List.flatMap_singleton' _).symm
  | cons s rs ih => rw [List.foldl_cons, ih, runs_seq, List.flatMap_assoc]; rfl

theorem runsAll_append [DecidableEq α] (rs ss : List (Node α)) (x : Place α) :
    runsAll (rs ++ ss) x = (runsAll rs x).flatMap (runsAll ss) := by
  induction rs generalizing x with
  | nil => exact (List.append_nil _).symm
  | cons r rs ih =>
    rw [List.cons_append, runsAll, runsAll, List.flatMap_assoc]
    exact List.flatMap_congr fun y _ => ih y

/-- A literal. -/
theorem runsAll_word [DecidableEq α] (w : List α) (x : Place α) :
    runsAll (w.map fun a => .char (· == a)) x = if w <+: x.rest then [x.advance w.length] else [] := by
  induction w generalizing x with
  | nil => simp [runsAll]
  | cons a w ih =>
    rw [List.map_cons, runsAll]
    rcases hx : x.rest with _ | ⟨b, v⟩
    · simp [runs_char, hx]
    by_cases hab : b = a
    · subst hab
      rw [runs_char_cons hx (by simp), List.flatMap_cons, List.flatMap_nil, List.append_nil, ih]
      simp [hx, Place.advance_advance, Nat.add_comm]
    · simp [runs_char, hx, hab, Ne.symm hab, List.cons_prefix_cons]

theorem shift_chars (ps : List (α → Bool)) (r : Node α) (n : Nat) :
    ((ps.map Node.char).foldl .seq r).shift n = (ps.map Node.char).foldl .seq (r.shift n) := by
  induction ps generalizing r with
  | nil => rfl
  | cons p ps ih => exact ih _

/-- A word of classes takes a text of its length, each character from its class. -/
theorem mem_runsAll_chars [DecidableEq α] (ps : List (α → Bool)) (x : Place α) :
    (∃ y ∈ runsAll (ps.map Node.char) x, y.rest = []) ↔
      List.Forall₂ (fun p a => p a = true) ps x.rest := by
  induction ps generalizing x with
  | nil =>
    cases hx : x.rest with
    | nil => simp [runsAll, hx]
    | cons a w => simp [runsAll, hx]
  | cons p ps ih =>
    rw [List.map_cons, runsAll]
    cases hx : x.rest with
    | nil => simp [runs_char, hx]
    | cons a w =>
      rw [List.forall₂_cons]
      by_cases hp : p a = true
      · have hrest : (x.advance 1).rest = w := by rw [Place.advance_rest, hx]; rfl
        rw [runs_char_cons hx hp, List.flatMap_cons, List.flatMap_nil, List.append_nil, ih, hrest,
          and_iff_right hp]
      · simp [runs_char, hx, hp]

end Ecma
