import Mathlib.Data.List.Basic

/-!
# Well-known text

The part of the grammar that a `MULTILINESTRING` needs, over texts in which a
number is one symbol.  A production says what a text begins with, what that
denotes and what follows it, so that each production denotes one thing at most
(`MultiLineString.unique`).
-/

namespace Wkt

variable {Num : Type}

/-- A character, or the digits of a number. -/
inductive Symbol (Num : Type)
  | char (c : Char)
  | num (x : Num)
  deriving DecidableEq

abbrev Text (Num : Type) := List (Symbol Num)

def chars (s : String) : Text Num := s.toList.map .char

def Symbol.blank : Symbol Num → Bool
  | .char c => c = ' ' || c = '\t' || c = '\n'
  | .num _ => false

def skip (s : Text Num) : Text Num := s.dropWhile Symbol.blank

/-! ## Productions -/

/-- Two numbers with a blank between them. -/
inductive Point : Text Num → Num × Num → Text Num → Prop
  | mk {s s₁ r : Text Num} {b : Symbol Num} {x y : Num} (hx : skip s = .num x :: b :: s₁)
      (hb : b.blank = true) (hy : skip s₁ = .num y :: r) : Point s (x, y) r

/-- The points of a line and the bracket behind them. -/
inductive Points : Text Num → List (Num × Num) → Text Num → Prop
  | last {s s₁ r : Text Num} {p : Num × Num} (hp : Point s p s₁) (hs : skip s₁ = .char ')' :: r) :
      Points s [p] r
  | more {s s₁ s₂ r : Text Num} {p : Num × Num} {ps : List (Num × Num)} (hp : Point s p s₁)
      (hs : skip s₁ = .char ',' :: s₂) (h : Points s₂ ps r) : Points s (p :: ps) r

inductive Line : Text Num → List (Num × Num) → Text Num → Prop
  | empty {s r : Text Num} (hs : skip s = chars "EMPTY" ++ r) : Line s [] r
  | points {s s₁ r : Text Num} {ps : List (Num × Num)} (hs : skip s = .char '(' :: s₁)
      (h : Points s₁ ps r) : Line s ps r

inductive Lines : Text Num → List (List (Num × Num)) → Text Num → Prop
  | last {s s₁ r : Text Num} {l : List (Num × Num)} (hl : Line s l s₁)
      (hs : skip s₁ = .char ')' :: r) : Lines s [l] r
  | more {s s₁ s₂ r : Text Num} {l : List (Num × Num)} {ls : List (List (Num × Num))}
      (hl : Line s l s₁) (hs : skip s₁ = .char ',' :: s₂) (h : Lines s₂ ls r) : Lines s (l :: ls) r

inductive MultiLineString : Text Num → List (List (Num × Num)) → Prop
  | empty {s s₁ r : Text Num} {b : Symbol Num} (hs : skip s = chars "MULTILINESTRING" ++ b :: s₁)
      (hb : b.blank = true) (he : skip s₁ = chars "EMPTY" ++ r) (hr : skip r = []) :
      MultiLineString s []
  | lines {s s₁ s₂ r : Text Num} {ls : List (List (Num × Num))}
      (hs : skip s = chars "MULTILINESTRING" ++ s₁) (ho : skip s₁ = .char '(' :: s₂)
      (h : Lines s₂ ls r) (hr : skip r = []) : MultiLineString s ls

@[simp] theorem skip_char {c : Char} (h : (Symbol.char c : Symbol Num).blank = false) (s : Text Num) :
    skip (.char c :: s) = .char c :: s := by
  rw [skip, List.dropWhile_cons_of_neg (by simp [h])]

@[simp] theorem skip_num (x : Num) (s : Text Num) : skip (.num x :: s) = .num x :: s := rfl

/-- The first character tells what a text goes on with. -/
theorem char_ne {c d : Char} {s s₁ s₂ : Text Num} (h : s = .char c :: s₁) (h' : s = .char d :: s₂)
    (hne : c ≠ d) : False :=
  hne (Symbol.char.inj (List.cons.inj (h.symm.trans h')).1)

theorem tail_eq {a a' : Symbol Num} {s s₁ s₂ : Text Num} (h : s = a :: s₁) (h' : s = a' :: s₂) :
    s₁ = s₂ := (List.cons.inj (h.symm.trans h')).2

/-! ## Each production denotes one thing -/

theorem Point.unique {s r r' : Text Num} {p p' : Num × Num} (h : Point s p r) (h' : Point s p' r') :
    p = p' ∧ r = r' := by
  obtain ⟨hx, -, hy⟩ := h
  obtain ⟨hx', -, hy'⟩ := h'
  obtain ⟨hnum, hrest⟩ := List.cons.inj (hx.symm.trans hx')
  obtain ⟨-, rfl⟩ := List.cons.inj hrest
  obtain ⟨hnum', rfl⟩ := List.cons.inj (hy.symm.trans hy')
  rw [Symbol.num.inj hnum, Symbol.num.inj hnum']
  exact ⟨rfl, rfl⟩

theorem Points.unique {s r r' : Text Num} {ps ps' : List (Num × Num)} (h : Points s ps r)
    (h' : Points s ps' r') : ps = ps' ∧ r = r' := by
  induction h generalizing ps' with
  | last hp hs =>
    cases h' with
    | last hp' hs' =>
      obtain ⟨rfl, rfl⟩ := hp.unique hp'
      exact ⟨rfl, tail_eq hs hs'⟩
    | more hp' hs' _ =>
      obtain ⟨rfl, rfl⟩ := hp.unique hp'
      exact (char_ne hs hs' (by decide)).elim
  | more hp hs _ ih =>
    cases h' with
    | last hp' hs' =>
      obtain ⟨rfl, rfl⟩ := hp.unique hp'
      exact (char_ne hs hs' (by decide)).elim
    | more hp' hs' h' =>
      obtain ⟨rfl, rfl⟩ := hp.unique hp'
      obtain ⟨rfl, rfl⟩ := ih (tail_eq hs hs' ▸ h')
      exact ⟨rfl, rfl⟩

theorem Line.unique {s r r' : Text Num} {l l' : List (Num × Num)} (h : Line s l r)
    (h' : Line s l' r') : l = l' ∧ r = r' := by
  cases h with
  | empty hs =>
    cases h' with
    | empty hs' => exact ⟨rfl, List.append_cancel_left (hs.symm.trans hs')⟩
    | points hs' _ => exact (char_ne hs hs' (by decide)).elim
  | points hs h =>
    cases h' with
    | empty hs' => exact (char_ne hs hs' (by decide)).elim
    | points hs' h' => exact h.unique (tail_eq hs hs' ▸ h')

theorem Lines.unique {s r r' : Text Num} {ls ls' : List (List (Num × Num))} (h : Lines s ls r)
    (h' : Lines s ls' r') : ls = ls' ∧ r = r' := by
  induction h generalizing ls' with
  | last hl hs =>
    cases h' with
    | last hl' hs' =>
      obtain ⟨rfl, rfl⟩ := hl.unique hl'
      exact ⟨rfl, tail_eq hs hs'⟩
    | more hl' hs' _ =>
      obtain ⟨rfl, rfl⟩ := hl.unique hl'
      exact (char_ne hs hs' (by decide)).elim
  | more hl hs _ ih =>
    cases h' with
    | last hl' hs' =>
      obtain ⟨rfl, rfl⟩ := hl.unique hl'
      exact (char_ne hs hs' (by decide)).elim
    | more hl' hs' h' =>
      obtain ⟨rfl, rfl⟩ := hl.unique hl'
      obtain ⟨rfl, rfl⟩ := ih (tail_eq hs hs' ▸ h')
      exact ⟨rfl, rfl⟩

/-- **A text denotes one list of lines at most.** -/
theorem MultiLineString.unique {s : Text Num} {ls ls' : List (List (Num × Num))}
    (h : MultiLineString s ls) (h' : MultiLineString s ls') : ls = ls' := by
  -- A blank in front of the word or the bracket is skipped.
  have hword : ∀ {b : Symbol Num} {s₁ s₂ s₃ r : Text Num}, b.blank = true →
      skip s₁ = chars "EMPTY" ++ r → b :: s₁ = s₂ → skip s₂ = .char '(' :: s₃ → False := by
    rintro b s₁ s₂ s₃ r hb hempty rfl hopen
    rw [skip, List.dropWhile_cons_of_pos hb] at hopen
    exact char_ne hempty hopen (by decide)
  cases h with
  | empty hs hb he hr =>
    cases h' with
    | empty => rfl
    | lines hs' ho _ _ => exact (hword hb he (List.append_cancel_left (hs.symm.trans hs')) ho).elim
  | lines hs ho h hr =>
    cases h' with
    | empty hs' hb he _ => exact (hword hb he (List.append_cancel_left (hs'.symm.trans hs)) ho).elim
    | lines hs' ho' h' _ =>
      obtain rfl := List.append_cancel_left (hs.symm.trans hs')
      exact (h.unique (tail_eq ho ho' ▸ h')).1

end Wkt
