import Mathlib.Data.List.Infix

/-!
# Lines with an end of two characters

A text is read line by line, each up to the first `c d`.  A line is unbroken
when the two characters do not stand in it (`Unbroken`), and then it is read
back whole (`cut_append`).  A block of lines goes up to a line that stops it:
it is read back exactly when none of its lines is broken or looks like the stop
(`readUntil_iff`).
-/

namespace Lines

variable {α : Type} {c d : α}

/-- The two characters do not stand inside. -/
def Unbroken (c d : α) (l : List α) : Prop := ¬ [c, d] <:+: l

theorem unbroken_nil : Unbroken c d [] := fun h => by simpa using h.length_le

theorem unbroken_singleton (x : α) : Unbroken c d [x] := fun h => by simpa using h.length_le

theorem unbroken_cons_cons (x y : α) (rest : List α) :
    Unbroken c d (x :: y :: rest) ↔ ¬ (x = c ∧ y = d) ∧ Unbroken c d (y :: rest) := by
  simp only [Unbroken, @List.infix_cons_iff _ _ _ (y :: rest), List.cons_prefix_cons,
    List.nil_prefix, and_true, not_or, eq_comm]

/-- A text that is put behind another and starts with no `d`. -/
theorem unbroken_append_cons {l : List α} {x : α} {r : List α} (hx : x ≠ d) :
    Unbroken c d (l ++ x :: r) ↔ Unbroken c d l ∧ Unbroken c d (x :: r) := by
  induction l with
  | nil => simp [unbroken_nil]
  | cons y l ih =>
    cases l with
    | nil =>
      rw [List.singleton_append, unbroken_cons_cons]
      simp [hx, unbroken_singleton]
    | cons z l =>
      rw [List.cons_append, List.cons_append, unbroken_cons_cons, ← List.cons_append, ih,
        unbroken_cons_cons, and_assoc]

theorem unbroken_of_not_mem {l : List α} (h : d ∉ l) : Unbroken c d l :=
  fun hb => h (hb.subset (by simp))

theorem unbroken_cons_of_ne {x : α} (hx : x ≠ c) (r : List α) :
    Unbroken c d (x :: r) ↔ Unbroken c d r := by
  cases r with
  | nil => simp [unbroken_singleton, unbroken_nil]
  | cons y r => simp [unbroken_cons_cons, hx]

theorem unbroken_word_append {w : List α} (hw : ∀ x ∈ w, x ≠ c) (r : List α) :
    Unbroken c d (w ++ r) ↔ Unbroken c d r := by
  induction w with
  | nil => rfl
  | cons x w ih =>
    obtain ⟨hx, hw⟩ := List.forall_mem_cons.mp hw
    rw [List.cons_append, unbroken_cons_of_ne hx, ih hw]

/-- Two texts with a word between them that has neither character. -/
theorem unbroken_between {w : List α} (hne : w ≠ []) (hw : ∀ x ∈ w, x ≠ c ∧ x ≠ d)
    (l r : List α) : Unbroken c d (l ++ w ++ r) ↔ Unbroken c d l ∧ Unbroken c d r := by
  obtain ⟨x, w, rfl⟩ := List.exists_cons_of_ne_nil hne
  obtain ⟨⟨hc, hd⟩, hw⟩ := List.forall_mem_cons.mp hw
  rw [List.append_assoc, List.cons_append, unbroken_append_cons hd, unbroken_cons_of_ne hc,
    unbroken_word_append fun y hy => (hw y hy).1]

/-- Lines with their ends. -/
def join (c d : α) (ls : List (List α)) : List α := ls.flatMap (· ++ [c, d])

@[simp] theorem join_nil : join c d [] = [] := rfl

@[simp] theorem join_cons (l : List α) (ls : List (List α)) :
    join c d (l :: ls) = l ++ c :: d :: join c d ls := by
  simp [join]

theorem join_modifyHead {ls : List (List α)} (h : ls ≠ []) (x : α) :
    join c d (ls.modifyHead (x :: ·)) = x :: join c d ls := by
  cases ls with
  | nil => exact absurd rfl h
  | cons l ls => simp

variable [DecidableEq α]

instance (c d : α) (l : List α) : Decidable (Unbroken c d l) :=
  inferInstanceAs (Decidable (¬ [c, d] <:+: l))

/-! ## One line -/

/-- The first line and what follows its end. -/
def cut (c d : α) : List α → Option (List α × List α)
  | x :: y :: rest =>
    if x = c ∧ y = d then some ([], rest)
    else (cut c d (y :: rest)).map fun r => (x :: r.1, r.2)
  | _ => none

theorem cut_append (hcd : c ≠ d) {l : List α} (h : Unbroken c d l) (rest : List α) :
    cut c d (l ++ c :: d :: rest) = some (l, rest) := by
  induction l with
  | nil => simp [cut]
  | cons x l ih =>
    cases l with
    | nil => simp [cut, hcd]
    | cons y l =>
      obtain ⟨hxy, hl⟩ := (unbroken_cons_cons x y l).mp h
      have hrest := ih hl
      simp only [List.cons_append] at hrest ⊢
      rw [cut, if_neg hxy, hrest]
      rfl

theorem cut_eq_some {s l rest : List α} (h : cut c d s = some (l, rest)) :
    s = l ++ c :: d :: rest ∧ Unbroken c d l := by
  induction s using cut.induct (c := c) (d := d) generalizing l with
  | case1 x y rest' hxy =>
    rw [cut, if_pos hxy, Option.some.injEq, Prod.mk.injEq] at h
    obtain ⟨rfl, rfl⟩ := h
    exact ⟨by rw [hxy.1, hxy.2]; rfl, unbroken_nil⟩
  | case2 x y rest' hxy ih =>
    rw [cut, if_neg hxy] at h
    obtain ⟨⟨l', r'⟩, hcut, hmk⟩ := Option.map_eq_some_iff.mp h
    obtain ⟨rfl, rfl⟩ := Prod.mk.injEq .. ▸ hmk
    obtain ⟨hs, hl⟩ := ih hcut
    refine ⟨by rw [hs]; rfl, ?_⟩
    cases l' with
    | nil => exact unbroken_singleton x
    | cons z l' =>
      obtain rfl : y = z := (List.cons.inj hs).1
      exact (unbroken_cons_cons x y l').mpr ⟨hxy, hl⟩
  | case3 s hs =>
    rw [cut.eq_def] at h
    split at h
    · exact absurd rfl (hs _ _ _)
    · cases h

/-! ## A block of lines -/

/-- The lines before the first one that is `stop`, and what follows it; `line` is what has been
read of the line under way. -/
def scan (c d : α) (stop line : List α) : List α → Option (List (List α) × List α)
  | x :: y :: rest =>
    if x = c ∧ y = d then
      if line = stop then some ([], rest)
      else (scan c d stop [] rest).map fun r => (line :: r.1, r.2)
    else scan c d stop (line ++ [x]) (y :: rest)
  | _ => none

def readUntil (c d : α) (stop s : List α) : Option (List (List α) × List α) := scan c d stop [] s

theorem scan_eq (stop line s : List α) :
    scan c d stop line s = (cut c d s).bind fun r =>
      if line ++ r.1 = stop then some ([], r.2)
      else (readUntil c d stop r.2).map fun t => ((line ++ r.1) :: t.1, t.2) := by
  induction s using cut.induct (c := c) (d := d) generalizing line with
  | case1 x y rest hxy => simp [scan, cut, hxy, readUntil]
  | case2 x y rest hxy ih =>
    rw [scan, if_neg hxy, ih, cut, if_neg hxy]
    cases cut c d (y :: rest) <;> simp
  | case3 s hs =>
    rw [scan.eq_def, cut.eq_def]
    split
    · exact absurd rfl (hs _ _ _)
    · rfl

theorem readUntil_eq (stop s : List α) :
    readUntil c d stop s = (cut c d s).bind fun r =>
      if r.1 = stop then some ([], r.2)
      else (readUntil c d stop r.2).map fun t => (r.1 :: t.1, t.2) := by
  rw [readUntil, scan_eq]
  simp

/-- Without the stop nothing is read. -/
theorem readUntil_join (hcd : c ≠ d) {stop : List α} {ls : List (List α)}
    (h : ∀ l ∈ ls, Unbroken c d l ∧ l ≠ stop) : readUntil c d stop (join c d ls) = none := by
  induction ls with
  | nil => rfl
  | cons l ls ih =>
    obtain ⟨⟨hl, hne⟩, hrest⟩ := List.forall_mem_cons.mp h
    rw [join_cons, readUntil_eq, cut_append hcd hl, Option.bind_some, if_neg hne, ih hrest]
    rfl

/-- **A block of lines is read back exactly when none of them is broken or is the stop.** -/
theorem readUntil_iff (hcd : c ≠ d) {stop : List α} (hstop : Unbroken c d stop)
    (ls : List (List α)) (rest : List α) :
    readUntil c d stop (join c d ls ++ stop ++ c :: d :: rest) = some (ls, rest) ↔
      ∀ l ∈ ls, Unbroken c d l ∧ l ≠ stop := by
  induction ls with
  | nil =>
    rw [readUntil_eq, join_nil, List.nil_append, cut_append hcd hstop]
    simp
  | cons l ls ih =>
    rw [List.forall_mem_cons, ← ih]
    have hs : join c d (l :: ls) ++ stop ++ c :: d :: rest =
        l ++ c :: d :: (join c d ls ++ stop ++ c :: d :: rest) := by simp
    rw [hs, readUntil_eq]
    constructor
    · intro h
      obtain ⟨⟨l', r⟩, hcut, hread⟩ := Option.bind_eq_some_iff.mp h
      have hne : l' ≠ stop := by
        intro he
        rw [if_pos he] at hread
        cases hread
      rw [if_neg hne] at hread
      obtain ⟨⟨t, r'⟩, ht, hmk⟩ := Option.map_eq_some_iff.mp hread
      simp only [Prod.mk.injEq, List.cons.injEq] at hmk
      obtain ⟨⟨rfl, rfl⟩, rfl⟩ := hmk
      obtain ⟨hs', hl⟩ := cut_eq_some hcut
      have hr := List.append_cancel_left hs'
      simp only [List.cons.injEq, true_and] at hr
      exact ⟨⟨hl, hne⟩, hr ▸ ht⟩
    · rintro ⟨⟨hl, hne⟩, hread⟩
      rw [cut_append hcd hl, Option.bind_some, if_neg hne, hread]
      rfl

/-! ## The lines of a text -/

/-- A text cut at its line ends. -/
def lines (c d : α) : List α → List (List α)
  | x :: y :: rest =>
    if x = c ∧ y = d then [] :: lines c d rest
    else (lines c d (y :: rest)).modifyHead (x :: ·)
  | s => [s]

theorem lines_ne_nil (s : List α) : lines c d s ≠ [] := by
  induction s using lines.induct (c := c) (d := d) with
  | case1 x y rest hxy => simp [lines, hxy]
  | case2 x y rest hxy ih => simpa [lines, hxy] using ih
  | case3 s hs =>
    rw [lines.eq_def]
    split
    · exact absurd rfl (hs _ _ _)
    · simp

theorem join_lines (s : List α) : join c d (lines c d s) = s ++ [c, d] := by
  induction s using lines.induct (c := c) (d := d) with
  | case1 x y rest hxy => simp [lines, hxy, ‹join c d _ = _›]
  | case2 x y rest hxy ih =>
    rw [lines, if_neg hxy, join_modifyHead (lines_ne_nil _), ih]
    rfl
  | case3 s hs =>
    rw [lines.eq_def]
    split
    · exact absurd rfl (hs _ _ _)
    · simp

theorem lines_unbroken (s : List α) : ∀ l ∈ lines c d s, Unbroken c d l := by
  induction s using lines.induct (c := c) (d := d) with
  | case1 x y rest hxy ih =>
    rw [lines, if_pos hxy, List.forall_mem_cons]
    exact ⟨unbroken_nil, ih⟩
  | case2 x y rest hxy ih =>
    have hjoin := join_lines (c := c) (d := d) (y :: rest)
    rw [lines, if_neg hxy]
    cases hl : lines c d (y :: rest) with
    | nil => exact absurd hl (lines_ne_nil _)
    | cons l ls =>
      rw [hl] at ih hjoin
      obtain ⟨hhead, htail⟩ := List.forall_mem_cons.mp ih
      rw [List.modifyHead_cons, List.forall_mem_cons]
      refine ⟨?_, htail⟩
      cases l with
      | nil => exact unbroken_singleton x
      | cons z l =>
        obtain rfl : z = y := by simpa using (List.cons.inj hjoin).1
        exact (unbroken_cons_cons x z l).mpr ⟨hxy, hhead⟩
  | case3 s hs =>
    rw [lines.eq_def]
    split
    · exact absurd rfl (hs _ _ _)
    · rename_i hs'
      match s, hs with
      | [], _ => simpa using unbroken_nil
      | [x], _ => simpa using unbroken_singleton x
      | x :: y :: rest, h => exact absurd rfl (h x y rest)

theorem lines_of_unbroken {l : List α} (h : Unbroken c d l) : lines c d l = [l] := by
  induction l with
  | nil => rfl
  | cons x l ih =>
    cases l with
    | nil => rfl
    | cons y l =>
      obtain ⟨hxy, hl⟩ := (unbroken_cons_cons x y l).mp h
      rw [lines, if_neg hxy, ih hl]
      rfl

theorem lines_cons_of_ne {x : α} (hx : x ≠ c) (s : List α) :
    lines c d (x :: s) = (lines c d s).modifyHead (x :: ·) := by
  cases s with
  | nil => rfl
  | cons y s => rw [lines, if_neg fun hxy => hx hxy.1]

/-- A text in front of the first line. -/
theorem lines_append_cons {l : List α} (h : Unbroken c d l) {x : α} (hx : x ≠ d) (r : List α) :
    lines c d (l ++ x :: r) = (lines c d (x :: r)).modifyHead (l ++ ·) := by
  obtain ⟨first, more, hlines⟩ := List.exists_cons_of_ne_nil (lines_ne_nil (c := c) (d := d) (x :: r))
  rw [hlines]
  induction l with
  | nil => exact hlines
  | cons y l ih =>
    cases l with
    | nil =>
      rw [List.singleton_append, lines, if_neg fun hyx => hx hyx.2, hlines]
      rfl
    | cons z l =>
      obtain ⟨hyz, hl⟩ := (unbroken_cons_cons y z l).mp h
      have hrest := ih hl
      rw [List.cons_append] at hrest
      rw [List.cons_append, List.cons_append, lines, if_neg hyz, hrest]
      rfl

/-- A line end separates. -/
theorem lines_append (hcd : c ≠ d) (a b : List α) :
    lines c d (a ++ c :: d :: b) = lines c d a ++ lines c d b := by
  induction a using lines.induct (c := c) (d := d) with
  | case1 x y a hxy ih =>
    rw [List.cons_append, List.cons_append, lines, if_pos hxy, ih, lines, if_pos hxy]
    rfl
  | case2 x y a hxy ih =>
    rw [List.cons_append, List.cons_append, lines, if_neg hxy, ← List.cons_append, ih, lines,
      if_neg hxy]
    cases hl : lines c d (y :: a) with
    | nil => exact absurd hl (lines_ne_nil _)
    | cons l ls => rfl
  | case3 a ha =>
    match a, ha with
    | [], _ => simp [lines]
    | [x], _ => simp [lines, hcd]
    | x :: y :: rest, h => exact absurd rfl (h x y rest)

theorem lines_join_append (hcd : c ≠ d) {ls : List (List α)} (h : ∀ l ∈ ls, Unbroken c d l)
    (s : List α) : lines c d (join c d ls ++ s) = ls ++ lines c d s := by
  induction ls with
  | nil => rfl
  | cons l ls ih =>
    obtain ⟨hl, hls⟩ := List.forall_mem_cons.mp h
    rw [join_cons, List.append_assoc, List.cons_append, List.cons_append, lines_append hcd,
      lines_of_unbroken hl, ih hls]
    rfl

/-- The lines, put together again. -/
theorem intercalate_lines (s : List α) : [c, d].intercalate (lines c d s) = s := by
  induction s using lines.induct (c := c) (d := d) with
  | case1 x y rest hxy ih =>
    obtain ⟨l, ls, hl⟩ := List.exists_cons_of_ne_nil (lines_ne_nil (c := c) (d := d) rest)
    rw [hl] at ih
    rw [lines, if_pos hxy, hl, List.intercalate_cons_cons, ih, hxy.1, hxy.2]
    rfl
  | case2 x y rest hxy ih =>
    obtain ⟨l, ls, hl⟩ := List.exists_cons_of_ne_nil (lines_ne_nil (c := c) (d := d) (y :: rest))
    rw [hl] at ih
    rw [lines, if_neg hxy, hl, List.modifyHead_cons, ← ih]
    cases ls <;> simp [List.intercalate_cons_cons]
  | case3 s hs =>
    rw [lines.eq_def]
    split
    · exact absurd rfl (hs _ _ _)
    · simp

theorem infix_of_mem_lines {s l : List α} (h : l ∈ lines c d s) : l <:+: s := by
  induction s using lines.induct (c := c) (d := d) generalizing l with
  | case1 x y rest hxy ih =>
    rw [lines, if_pos hxy] at h
    rcases List.mem_cons.mp h with rfl | h
    · exact List.nil_infix
    · exact (ih h).trans ⟨[x, y], [], by simp⟩
  | case2 x y rest hxy ih =>
    rw [lines, if_neg hxy] at h
    cases hl : lines c d (y :: rest) with
    | nil => exact absurd hl (lines_ne_nil _)
    | cons m ls =>
      rw [hl] at h ih
      rw [List.modifyHead_cons] at h
      rcases List.mem_cons.mp h with rfl | h
      · -- the first line is a front of the text
        have hjoin := intercalate_lines (c := c) (d := d) (y :: rest)
        rw [hl] at hjoin
        refine List.IsPrefix.isInfix (List.cons_prefix_cons.mpr ⟨rfl, ?_⟩)
        rw [← hjoin]
        cases ls with
        | nil => simp
        | cons n ls =>
          rw [List.intercalate_cons_cons, List.append_assoc]
          exact List.prefix_append _ _
      · exact (ih (List.mem_cons_of_mem _ h)).trans ⟨[x], [], by simp⟩
  | case3 s hs =>
    rw [lines.eq_def] at h
    split at h
    · exact absurd rfl (hs _ _ _)
    · rw [List.mem_singleton.mp h]

/-! ## Blocks with a mark

A sender puts `e` before each line that starts with `e`, so that a line `e` on its own can end the
block, and the reader takes it away. -/

/-- A line without the mark. -/
def unmark (e : α) : List α → List α
  | [] => []
  | x :: l => if x = e then l else x :: l

/-- The text of a block up to the line `e`, and what follows it. -/
def readBlock (c d e : α) (s : List α) : Option (List α × List α) :=
  (readUntil c d [e] s).map fun r => (join c d (r.1.map (unmark e)), r.2)

theorem unmark_of_head {e : α} {l : List α} (h : l.head? ≠ some e) : unmark e l = l := by
  cases l with
  | nil => rfl
  | cons x l => simp_all [unmark]

theorem length_unmark_le (e : α) (l : List α) : (unmark e l).length ≤ l.length := by
  cases l with
  | nil => rfl
  | cons x l =>
    rw [unmark]
    split
    · exact Nat.le_succ _
    · exact le_rfl

theorem length_join_unmark_le (e : α) (ls : List (List α)) :
    (join c d (ls.map (unmark e))).length ≤ (join c d ls).length := by
  induction ls with
  | nil => rfl
  | cons l ls ih =>
    have := length_unmark_le e l
    simp only [List.map_cons, join_cons, List.length_append, List.length_cons]
    omega

/-- A line that lost its first character is missed. -/
theorem join_unmark_iff (e : α) (ls : List (List α)) :
    join c d (ls.map (unmark e)) = join c d ls ↔ ∀ l ∈ ls, l.head? ≠ some e := by
  constructor
  · induction ls with
    | nil => simp
    | cons l ls ih =>
      intro h
      have hhead : l.head? ≠ some e := by
        intro he
        have hlength := congrArg List.length h
        have hle := length_join_unmark_le (c := c) (d := d) e ls
        obtain ⟨l, rfl⟩ := List.head?_eq_some_iff.mp he
        simp only [List.map_cons, unmark, if_true, join_cons, List.length_append,
          List.length_cons] at hlength
        omega
      rw [List.map_cons, unmark_of_head hhead, join_cons, join_cons] at h
      have htail := ih (by simpa using List.append_cancel_left h)
      simpa using ⟨hhead, htail⟩
  · intro h
    have hmap : ls.map (unmark e) = ls := by
      conv_rhs => rw [← List.map_id ls]
      exact List.map_congr_left fun l hl => unmark_of_head (h l hl)
    rw [hmap]

/-- **A text that is sent without marks is read back exactly when no line of it starts with the
mark.** -/
theorem readBlock_iff (hcd : c ≠ d) (e : α) (s : List α) :
    readBlock c d e (s ++ [c, d] ++ [e] ++ [c, d]) = some (s ++ [c, d], []) ↔
      ∀ l ∈ lines c d s, l.head? ≠ some e := by
  have hstop : Unbroken c d [e] := unbroken_singleton e
  have hlines := lines_unbroken (c := c) (d := d) s
  rw [← join_lines s]
  generalize lines c d s = ls at hlines ⊢
  by_cases hmem : [e] ∈ ls
  · -- the block ends before the text does
    obtain ⟨before, after, rfl, hbefore⟩ := List.eq_append_cons_of_mem hmem
    have hread : readUntil c d [e] (join c d (before ++ [e] :: after) ++ [e] ++ [c, d]) =
        some (before, join c d after ++ [e] ++ [c, d]) := by
      have hall : ∀ l ∈ before, Unbroken c d l ∧ l ≠ [e] := fun l hl =>
        ⟨hlines l (List.mem_append_left _ hl), fun h => hbefore (h ▸ hl)⟩
      rw [← (readUntil_iff hcd hstop before _).mpr hall]
      simp [join]
    refine iff_of_false (fun h => ?_) fun h => h [e] hmem rfl
    rw [readBlock, hread] at h
    simp at h
  · have hall : ∀ l ∈ ls, Unbroken c d l ∧ l ≠ [e] := fun l hl =>
      ⟨hlines l hl, fun h => hmem (h ▸ hl)⟩
    have hread := (readUntil_iff hcd hstop ls []).mpr hall
    rw [readBlock, show join c d ls ++ [e] ++ [c, d] = join c d ls ++ [e] ++ c :: d :: [] from rfl,
      hread, ← join_unmark_iff (c := c) (d := d) e ls]
    simp

/-! ## Walking over a text -/

/-- Where a walk is: at the start of a line, behind a `c`, or elsewhere. -/
inductive Place
  | start | behind | inside
  deriving DecidableEq

/-- One character; `none` where it is an `e` that starts a line. -/
def Place.step (c d e : α) : Place → α → Option Place
  | .start, x => if x = e then none else if x = c then some .behind else some .inside
  | .behind, x => if x = d then some .start else if x = c then some .behind else some .inside
  | .inside, x => if x = c then some .behind else some .inside

def walk (c d e : α) (p : Place) (s : List α) : Option Place := s.foldlM (Place.step c d e) p

theorem walk_append (e : α) (p : Place) (a b : List α) :
    walk c d e p (a ++ b) = (walk c d e p a).bind fun q => walk c d e q b :=
  List.foldlM_append

theorem walk_cons (e : α) (p : Place) (x : α) (s : List α) :
    walk c d e p (x :: s) = (p.step c d e x).bind fun q => walk c d e q s :=
  List.foldlM_cons

/-- A line end leads to a start from everywhere. -/
theorem walk_end {e : α} (hcd : c ≠ d) (hce : c ≠ e) (p : Place) :
    walk c d e p [c, d] = some .start := by
  cases p <;> simp [walk, Place.step, hcd, hce]

/-- A word without line ends leads away from the start. -/
theorem walk_word {e : α} {w : List α} (hne : w ≠ []) (hw : ∀ x ∈ w, x ≠ c ∧ x ≠ d ∧ x ≠ e)
    (p : Place) : walk c d e p w = some .inside := by
  induction w generalizing p with
  | nil => exact absurd rfl hne
  | cons x w ih =>
    obtain ⟨⟨hc, hd, he⟩, hw⟩ := List.forall_mem_cons.mp hw
    have hstep : p.step c d e x = some .inside := by cases p <;> simp [Place.step, hc, hd, he]
    rw [walk_cons, hstep, Option.bind_some]
    cases w with
    | nil => rfl
    | cons y w => exact ih (by simp) hw .inside

/-- The walk ends early only at an `e` behind a line end, or in front. -/
theorem walk_isSome_iff {e : α} (hcd : c ≠ d) (hce : c ≠ e) (s : List α) :
    ((walk c d e .inside s).isSome ↔ ¬ [c, d, e] <:+: s) ∧
      ((walk c d e .behind s).isSome ↔ ¬ [d, e] <+: s ∧ ¬ [c, d, e] <:+: s) ∧
      ((walk c d e .start s).isSome ↔ ¬ [e] <+: s ∧ ¬ [c, d, e] <:+: s) := by
  induction s with
  | nil => simp [walk]
  | cons x s ih =>
    obtain ⟨hinside, hbehind, hstart⟩ := ih
    simp only [walk_cons, Place.step, @List.infix_cons_iff _ _ _ s, List.cons_prefix_cons,
      List.nil_prefix, and_true]
    refine ⟨?_, ?_, ?_⟩
    · rcases eq_or_ne x c with hc | hc
      · simp [hc, hbehind]
      · simp [hc, hc.symm, hinside]
    · rcases eq_or_ne x d with hd | hd
      · simp [hd, hcd, hstart]
      · rcases eq_or_ne x c with hc | hc
        · simp [hc, hcd, hcd.symm, hbehind]
        · simp [hd, hc, hd.symm, hc.symm, hinside]
    · rcases eq_or_ne x e with he | he
      · simp [he]
      · rcases eq_or_ne x c with hc | hc
        · simp [hc, hce, hce.symm, hbehind]
        · simp [he, hc, he.symm, hc.symm, hinside]

/-- A text whose lines start otherwise is one that can be walked over. -/
theorem walk_lines_iff {e : α} (hcd : c ≠ d) (hce : c ≠ e) (s : List α) :
    (walk c d e .start s).isSome ↔ ∀ l ∈ lines c d s, l.head? ≠ some e := by
  have hjoin (ls : List (List α)) (hls : ∀ l ∈ ls, Unbroken c d l) :
      (walk c d e .start (join c d ls)).isSome ↔ ∀ l ∈ ls, l.head? ≠ some e := by
    induction ls with
    | nil => simp [walk]
    | cons l ls ih =>
      obtain ⟨hl, hls⟩ := List.forall_mem_cons.mp hls
      have hwalk : (walk c d e .start l).isSome ↔ l.head? ≠ some e := by
        have hinfix : ¬ [c, d, e] <:+: l := fun h =>
          hl (List.IsInfix.trans (List.IsPrefix.isInfix ⟨[e], rfl⟩) h)
        rw [(walk_isSome_iff hcd hce l).2.2, and_iff_left hinfix]
        cases l <;> simp [eq_comm]
      rw [List.forall_mem_cons, ← hwalk, ← ih hls, join_cons,
        show l ++ c :: d :: join c d ls = l ++ ([c, d] ++ join c d ls) from rfl, walk_append]
      cases walk c d e .start l with
      | none => simp
      | some p =>
        rw [Option.bind_some, walk_append, walk_end hcd hce, Option.bind_some]
        simp
  rw [← hjoin _ (lines_unbroken s), join_lines, walk_append]
  cases walk c d e .start s with
  | none => simp
  | some p => simp [walk_end hcd hce]

end Lines
