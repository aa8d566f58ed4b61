import Mathlib

/-!
# Backtracking regular expressions

The fragment of ECMAScript expressions whose repetitions run over single
characters: sequences, greedy and reluctant repetition, an optional part,
capture groups and a lookahead.  `Regex.runs` lists the ways to match at the
front of a word in the order in which a backtracking matcher tries them, so the
first one that fits is the match.
-/

namespace Regex

variable {α : Type}

inductive Expr (α : Type)
  | eps
  | char (p : α → Bool)
  | seq (r s : Expr α)
  /-- `[p]*`, or `[p]*?` when it is not greedy. -/
  | star (p : α → Bool) (greedy : Bool)
  /-- `(?:r)?` -/
  | opt (r : Expr α)
  | group (i : Nat) (r : Expr α)
  /-- `(?=r)` -/
  | look (r : Expr α)

abbrev Captures (α : Type) := Nat → Option (List α)

/-- A literal. -/
def word [BEq α] : List α → Expr α
  | [] => .eps
  | a :: w => .seq (.char (· == a)) (word w)

/-- What may be left after a repetition, the shortest repetition first. -/
def starRests (p : α → Bool) : List α → List (List α)
  | [] => [[]]
  | a :: w => (a :: w) :: if p a then starRests p w else []

/-- The matches at the front of a word: what is left of it, and the captures. -/
def runs : Expr α → Captures α → List α → List (List α × Captures α)
  | .eps, caps, w => [(w, caps)]
  | .char p, caps, a :: w => if p a then [(w, caps)] else []
  | .char _, _, [] => []
  | .seq r s, caps, w => (runs r caps w).flatMap fun m => runs s m.2 m.1
  | .star p greedy, caps, w =>
    (if greedy then (starRests p w).reverse else starRests p w).map fun rest => (rest, caps)
  | .opt r, caps, w => runs r caps w ++ [(w, caps)]
  | .group i r, caps, w =>
    (runs r caps w).map fun m =>
      (m.1, Function.update m.2 i (some (w.take (w.length - m.1.length))))
  | .look r, caps, w =>
    match runs r caps w with
    | [] => []
    | m :: _ => [(w, m.2)]

/-- A match of the whole word. -/
def fullMatch (r : Expr α) (w : List α) : Option (Captures α) :=
  ((runs r (fun _ => none) w).find? fun m => m.1.isEmpty).map (·.2)

/-- The first match anywhere in the word: where it starts and how long it is. -/
def search (r : Expr α) : List α → Option (Nat × Nat)
  | [] => (runs r (fun _ => none) []).head?.map fun _ => (0, 0)
  | a :: w =>
    match (runs r (fun _ => none) (a :: w)).head? with
    | some m => some (0, (a :: w).length - m.1.length)
    | none => (search r w).map fun m => (m.1 + 1, m.2)

/-! ## The equations of the matcher -/

section

variable (r s : Expr α) (caps : Captures α) (w : List α)

theorem starRests_cons (p : α → Bool) (a : α) :
    starRests p (a :: w) = (a :: w) :: if p a then starRests p w else [] := rfl

theorem runs_char_cons (p : α → Bool) (a : α) :
    runs (.char p) caps (a :: w) = if p a then [(w, caps)] else [] := rfl

theorem runs_seq : runs (.seq r s) caps w = (runs r caps w).flatMap fun m => runs s m.2 m.1 := rfl

theorem runs_star (p : α → Bool) (greedy : Bool) :
    runs (.star p greedy) caps w =
      (if greedy then (starRests p w).reverse else starRests p w).map fun rest => (rest, caps) := rfl

theorem runs_opt : runs (.opt r) caps w = runs r caps w ++ [(w, caps)] := rfl

theorem runs_group (i : Nat) :
    runs (.group i r) caps w =
      (runs r caps w).map fun m =>
        (m.1, Function.update m.2 i (some (w.take (w.length - m.1.length)))) := rfl

theorem runs_look :
    runs (.look r) caps w =
      match runs r caps w with
      | [] => []
      | m :: _ => [(w, m.2)] := rfl

theorem search_nil :
    search r [] = (runs r (fun _ => none) []).head?.map fun _ => (0, 0) := rfl

theorem search_cons (a : α) :
    search r (a :: w) =
      match (runs r (fun _ => none) (a :: w)).head? with
      | some m => some (0, (a :: w).length - m.1.length)
      | none => (search r w).map fun m => (m.1 + 1, m.2) := rfl

end

/-! ## Repetitions -/

/-- The longest repetition takes all characters of the class at the front. -/
theorem starRests_getLast (p : α → Bool) (w : List α) :
    (starRests p w).getLast? = some (w.dropWhile p) := by
  induction w with
  | nil => rfl
  | cons a w ih =>
    rw [starRests_cons, List.dropWhile_cons]
    split
    · rw [List.getLast?_cons, ih]
      rfl
    · rfl

/-- **A greedy repetition matches at the front**, as far as the class goes. -/
theorem search_star_greedy (p : α → Bool) (w : List α) :
    search (.star p true) w = some (0, (w.takeWhile p).length) := by
  have hhead : (runs (.star p true) (fun _ => none) w).head? =
      some (w.dropWhile p, fun _ => none) := by
    simp [runs_star, starRests_getLast]
  have hlen : w.length - (w.dropWhile p).length = (w.takeWhile p).length := by
    have h := congrArg List.length (List.takeWhile_append_dropWhile (p := p) (l := w))
    simp only [List.length_append] at h
    omega
  cases w with
  | nil => simp [search_nil, hhead]
  | cons a w =>
    simp only [search_cons, hhead]
    rw [hlen]

/-! ## The first match -/

variable {r s : Expr α} {caps : Captures α} {w : List α} {m k : List α × Captures α}

/-- The match that a backtracking matcher comes to first. -/
def First (r : Expr α) (caps : Captures α) (w : List α) (m : List α × Captures α) : Prop :=
  (runs r caps w).head? = some m

theorem First.seq (hr : First r caps w m) (hs : First s m.2 m.1 k) :
    First (.seq r s) caps w k := by
  unfold First at *
  obtain ⟨rest, hrest⟩ := List.head?_eq_some_iff.mp hr
  rw [runs_seq, hrest, List.flatMap_cons, List.head?_append, hs, Option.some_or]

theorem first_word [BEq α] [LawfulBEq α] (u v : List α) (caps : Captures α) :
    First (word u) caps (u ++ v) (v, caps) := by
  induction u with
  | nil => rfl
  | cons a u ih =>
    have hchar : First (.char (· == a)) caps (a :: (u ++ v)) (u ++ v, caps) := by
      simp [First, runs_char_cons]
    exact hchar.seq ih

theorem first_star_greedy (p : α → Bool) (caps : Captures α) (w : List α) :
    First (.star p true) caps w (w.dropWhile p, caps) := by
  simp [First, runs_star, starRests_getLast]

theorem First.look (h : First r caps w m) : First (.look r) caps w (w, m.2) := by
  unfold First at *
  obtain ⟨rest, hrest⟩ := List.head?_eq_some_iff.mp h
  rw [runs_look, hrest]
  rfl

theorem First.opt (h : First r caps w m) : First (.opt r) caps w m := by
  unfold First at *
  rw [runs_opt, List.head?_append, h, Option.some_or]

theorem first_opt_none (h : runs r caps w = []) : First (.opt r) caps w (w, caps) := by
  rw [First, runs_opt, h]
  rfl

/-- **A reluctant repetition grows until what follows it matches**: it takes all of `u` when what
follows can begin with no character of `u`. -/
theorem first_group_star_reluctant {p : α → Bool} {i : Nat} {u v : List α}
    (hu : ∀ a ∈ u, p a = true) (hfail : ∀ a ∈ u, ∀ caps w, runs s caps (a :: w) = [])
    (hs : First s (Function.update caps i (some u)) v m) :
    First (.seq (.group i (.star p false)) s) caps (u ++ v) m := by
  -- the part of `u` that the repetition has taken so far is `t`
  have hgrow : ∀ t u' : List α, t ++ u' = u →
      ((starRests p (u' ++ v)).flatMap fun rest =>
        runs s (Function.update caps i (some ((u ++ v).take ((u ++ v).length - rest.length))))
          rest).head? = some m := by
    intro t u' htu
    induction u' generalizing t with
    | nil =>
      obtain rfl : t = u := by simpa using htu
      obtain ⟨more, hmore⟩ : ∃ more, starRests p v = v :: more := by
        cases v <;> exact ⟨_, rfl⟩
      rw [List.nil_append, hmore, List.flatMap_cons, List.head?_append]
      simp only [List.length_append, Nat.add_sub_cancel, List.take_left]
      rw [First] at hs
      rw [hs, Option.some_or]
    | cons a u' ih =>
      have ha : a ∈ u := by simp [← htu]
      rw [List.cons_append, starRests_cons, if_pos (hu a ha), List.flatMap_cons, hfail a ha,
        List.nil_append]
      exact ih (t ++ [a]) (by simp [← htu])
  have := hgrow [] u rfl
  simpa [First, runs_seq, runs_group, runs_star, List.map_map, List.flatMap_map] using this

theorem fullMatch_of_first (h : First r (fun _ => none) w ([], caps)) :
    fullMatch r w = some caps := by
  obtain ⟨rest, hrest⟩ := List.head?_eq_some_iff.mp h
  simp [fullMatch, hrest]

end Regex
