import Mathlib.Data.List.Infix
import Mathlib.Data.List.TakeWhile

/-!
# The header of a mail

A field is a name, a colon and a body up to the line end that no white space
follows; unfolding takes the other line ends away, and a body has no CR and no LF
of its own.  An address list is a list of mailboxes with commas between them: a
phrase of atoms and quoted strings and an address in angle brackets, or the
address alone.  Comments, groups and obsolete forms are left out.

A name that is put between quotes as it is comes back from them only when there
is nothing in it to escape (`readQuoted_front`).
-/

namespace MailSyntax

/-- White space that a line can be folded at. -/
def white (c : UInt8) : Bool := c == 32 || c == 9

/-- No CR and no LF. -/
def Flat (s : List UInt8) : Prop := ∀ c ∈ s, c ≠ 13 ∧ c ≠ 10

instance (s : List UInt8) : Decidable (Flat s) :=
  List.decidableBAll (fun c => c ≠ 13 ∧ c ≠ 10) s

theorem Flat.of_subset {s t : List UInt8} (h : Flat s) (ht : t ⊆ s) : Flat t :=
  fun c hc => h c (ht hc)

theorem flat_append {s t : List UInt8} : Flat (s ++ t) ↔ Flat s ∧ Flat t := List.forall_mem_append

theorem flat_cons {c : UInt8} {s : List UInt8} : Flat (c :: s) ↔ (c ≠ 13 ∧ c ≠ 10) ∧ Flat s :=
  List.forall_mem_cons

/-! ## Fields -/

/-- A line that goes on the one before. -/
def folded (s : List UInt8) : Bool := s.head?.any white

/-- The body of a field, unfolded, and what follows its line end. -/
def readBody : List UInt8 → Option (List UInt8 × List UInt8)
  | c :: d :: s =>
    if c = 13 ∧ d = 10 then
      if folded s then readBody s else some ([], s)
    else if c = 13 ∨ c = 10 then none
    else (readBody (d :: s)).map fun r => (c :: r.1, r.2)
  | _ => none

/-- A character of a field name. -/
def nameChar (c : UInt8) : Bool := decide (33 ≤ c) && decide (c ≤ 126) && decide (c ≠ 58)

/-- The loop of `readFields`, with a bound on the fields. -/
def fieldsLoop : Nat → List UInt8 → Option (List (List UInt8 × List UInt8))
  | 0, _ => none
  | n + 1, s =>
    match s.dropWhile nameChar with
    | [] => if s = [] then some [] else none
    | c :: text =>
      if s.takeWhile nameChar ≠ [] ∧ c = 58 then
        (readBody text).bind fun r => (fieldsLoop n r.2).map ((s.takeWhile nameChar, r.1) :: ·)
      else if [13, 10] <+: s then some []
      else none

/-- The names and the bodies of the fields, up to an empty line. -/
def readFields (s : List UInt8) : Option (List (List UInt8 × List UInt8)) :=
  fieldsLoop (s.length + 1) s

/-- A field name. -/
def FieldName (name : List UInt8) : Prop := name ≠ [] ∧ ∀ c ∈ name, nameChar c = true

instance (name : List UInt8) : Decidable (FieldName name) :=
  @instDecidableAnd _ _ inferInstance (List.decidableBAll (fun c => nameChar c = true) name)

theorem readBody_flat {l : List UInt8} (h : Flat l) {s : List UInt8} (hs : folded s = false) :
    readBody (l ++ 13 :: 10 :: s) = some (l, s) := by
  induction l with
  | nil => simp [readBody, hs]
  | cons x l ih =>
    obtain ⟨⟨hcr, hlf⟩, hl⟩ := flat_cons.mp h
    have hbehind := ih hl
    obtain ⟨y, t, ht⟩ := List.exists_cons_of_ne_nil
      (List.append_ne_nil_of_right_ne_nil l (List.cons_ne_nil 13 (10 :: s)))
    rw [ht] at hbehind
    rw [List.cons_append, ht, readBody, if_neg fun he => hcr he.1,
      if_neg (not_or.mpr ⟨hcr, hlf⟩), hbehind]
    rfl

theorem flat_of_readBody {s b rest : List UInt8} (h : readBody s = some (b, rest)) : Flat b := by
  fun_induction readBody s generalizing b rest with
  | case1 c d s hend hfolded ih => exact ih h
  | case2 c d s hend hfolded =>
    obtain ⟨rfl, -⟩ := Prod.mk.inj (Option.some.inj h)
    simp [Flat]
  | case3 => cases h
  | case4 c d s hend hbare ih =>
    obtain ⟨r, hr, he⟩ := Option.map_eq_some_iff.mp h
    obtain ⟨rfl, -⟩ := Prod.mk.inj he
    exact flat_cons.mpr ⟨not_or.mp hbare, ih hr⟩
  | case5 => cases h

/-! ### A list of fields -/

section Fields

variable {ι : Type} (name text : ι → List UInt8)

/-- Some fields, as they are written. -/
def fieldsText (is : List ι) : List UInt8 :=
  is.flatMap fun i => name i ++ 58 :: (text i ++ [13, 10])

theorem fieldsText_cons (i : ι) (is : List ι) : fieldsText name text (i :: is) =
    name i ++ 58 :: (text i ++ 13 :: 10 :: fieldsText name text is) := by
  simp [fieldsText]

variable {name text}

theorem folded_fieldsText {is : List ι} (h : ∀ i ∈ is, FieldName (name i)) :
    folded (fieldsText name text is) = false := by
  cases is with
  | nil => rfl
  | cons i is =>
    obtain ⟨hne, hchars⟩ := h i List.mem_cons_self
    obtain ⟨c, cs, hname⟩ := List.exists_cons_of_ne_nil hne
    have hc := hchars c (by rw [hname]; exact List.mem_cons_self)
    have hwhite : white c = false := by
      by_contra hw
      simp only [white, Bool.not_eq_false, Bool.or_eq_true, beq_iff_eq] at hw
      rcases hw with rfl | rfl <;> exact absurd hc (by decide)
    rw [fieldsText_cons, hname]
    simpa [folded] using hwhite

/-- One field. -/
theorem fieldsLoop_field {i : ι} (hi : FieldName (name i)) (n : Nat) (s : List UInt8) :
    fieldsLoop (n + 1) (name i ++ 58 :: s) =
      (readBody s).bind fun r => (fieldsLoop n r.2).map ((name i, r.1) :: ·) := by
  have hcolon : ¬ nameChar 58 = true := by decide
  rw [fieldsLoop, List.dropWhile_append_of_pos hi.2, List.dropWhile_cons_of_neg hcolon]
  simp only [List.takeWhile_append_of_pos hi.2, List.takeWhile_cons_of_neg hcolon, List.append_nil]
  rw [if_pos ⟨hi.1, trivial⟩]

/-- Bodies without a line end are read as they are written. -/
theorem fieldsLoop_flat {is : List ι} (hname : ∀ i ∈ is, FieldName (name i))
    (h : ∀ i ∈ is, Flat (text i)) (n : Nat) :
    fieldsLoop (is.length + (n + 1)) (fieldsText name text is) =
      some (is.map fun i => (name i, text i)) := by
  induction is with
  | nil => simp [fieldsText, fieldsLoop]
  | cons i is ih =>
    rw [List.forall_mem_cons] at hname h
    rw [fieldsText_cons, List.length_cons, Nat.add_right_comm, fieldsLoop_field hname.1,
      readBody_flat h.1 (folded_fieldsText hname.2), Option.bind_some, ih hname.2 h.2]
    rfl

variable (Means : List UInt8 → List UInt8 → Prop) {Ok : ι → Prop}

/-- A reader that finds what every field means has found every field: `hneed` is what it takes for
one of them, whatever follows it. -/
theorem fields_ok {is : List ι} (hname : ∀ i ∈ is, FieldName (name i))
    (hflat : ∀ i ∈ is, Ok i → Flat (text i))
    (hneed : ∀ i ∈ is, ∀ s b rest, folded s = false →
      readBody (text i ++ 13 :: 10 :: s) = some (b, rest) → Means (name i) b → Ok i)
    {n : Nat} {fields : List (List UInt8 × List UInt8)}
    (h : fieldsLoop n (fieldsText name text is) = some fields)
    (hmeans : ∀ f ∈ fields, Means f.1 f.2) : ∀ i ∈ is, Ok i := by
  induction is generalizing n fields with
  | nil => simp
  | cons i is ih =>
    rw [List.forall_mem_cons] at hname hflat hneed
    cases n with
    | zero => cases h
    | succ n =>
      rw [fieldsText_cons, fieldsLoop_field hname.1] at h
      obtain ⟨⟨b, rest⟩, hbody, hrest⟩ := Option.bind_eq_some_iff.mp h
      obtain ⟨more, hmore, rfl⟩ := Option.map_eq_some_iff.mp hrest
      rw [List.forall_mem_cons] at hmeans
      have hfolded : folded (fieldsText name text is) = false := folded_fieldsText hname.2
      have hok := hneed.1 _ b rest hfolded hbody hmeans.1
      -- the body is the text of the field, and the rest are the other fields
      rw [readBody_flat (hflat.1 hok) hfolded] at hbody
      obtain ⟨-, rfl⟩ := Prod.mk.inj (Option.some.inj hbody)
      rw [List.forall_mem_cons]
      exact ⟨hok, ih hname.2 hflat.2 hneed.2 hmore hmeans.2⟩

theorem readFields_flat {is : List ι} (hname : ∀ i ∈ is, FieldName (name i))
    (h : ∀ i ∈ is, Flat (text i)) :
    readFields (fieldsText name text is) = some (is.map fun i => (name i, text i)) := by
  have hlength : is.length ≤ (fieldsText name text is).length := by
    clear hname h
    induction is with
    | nil => exact Nat.zero_le _
    | cons i is ih =>
      rw [fieldsText_cons]
      simp only [List.length_append, List.length_cons]
      omega
  obtain ⟨k, hk⟩ := Nat.exists_eq_add_of_le hlength
  rw [readFields, hk, Nat.add_assoc]
  exact fieldsLoop_flat hname h k

end Fields

/-! ## Quoted strings -/

/-- The value of a quoted string, behind its first quote, and what follows its last one. -/
def readQuoted : List UInt8 → Option (List UInt8 × List UInt8)
  | [] => none
  | c :: s =>
    if c = 34 then some ([], s)
    else if c = 92 then
      match s with
      | [] => none
      | d :: s => (readQuoted s).map fun r => (d :: r.1, r.2)
    else (readQuoted s).map fun r => (c :: r.1, r.2)

theorem readQuoted_char {c : UInt8} (hc : c ≠ 34 ∧ c ≠ 92) (s : List UInt8) :
    readQuoted (c :: s) = (readQuoted s).map fun r => (c :: r.1, r.2) := by
  rw [readQuoted.eq_def]
  simp [hc]

theorem readQuoted_pair (d : UInt8) (s : List UInt8) :
    readQuoted (92 :: d :: s) = (readQuoted s).map fun r => (d :: r.1, r.2) := by
  rw [readQuoted.eq_def]
  simp

theorem readQuoted_close (s : List UInt8) : readQuoted (34 :: s) = some ([], s) := by
  rw [readQuoted.eq_def]
  simp

/-- Nothing in it ends a quoted string or is escaped. -/
def Quotable (s : List UInt8) : Prop := ∀ c ∈ s, c ≠ 34 ∧ c ≠ 92

instance (s : List UInt8) : Decidable (Quotable s) :=
  List.decidableBAll (fun c => c ≠ 34 ∧ c ≠ 92) s

theorem readQuoted_quotable {s : List UInt8} (h : Quotable s) (r : List UInt8) :
    readQuoted (s ++ r) = (readQuoted r).map fun t => (s ++ t.1, t.2) := by
  induction s with
  | nil => simp
  | cons c s ih =>
    rw [List.cons_append, readQuoted_char (h c List.mem_cons_self),
      ih fun x hx => h x (List.mem_cons_of_mem c hx)]
    simp [Function.comp_def]

theorem replicate_append_cons (k : Nat) (c : UInt8) (s : List UInt8) :
    List.replicate k c ++ c :: s = c :: (List.replicate k c ++ s) := by
  induction k with
  | zero => rfl
  | succ k ih => rw [List.replicate_succ, List.cons_append, ih, List.cons_append]

/-- The value of a quoted string and what is put behind it agree with the text `s` they are read
from only when there is nothing to escape in `s`.  Each pair of backslashes that agrees leaves the
value one more behind, which is what `k` counts. -/
theorem readQuoted_front {s x v rest t : List UInt8} {k : Nat}
    (h : readQuoted (s ++ x) = some (v, rest)) (hx : x.head? ≠ some 92) (ht : t.head? ≠ some 34)
    (ht' : t.head? ≠ some 92) (hagree : v ++ t = List.replicate k 92 ++ s) :
    k = 0 ∧ Quotable s := by
  induction hn : s.length using Nat.strong_induction_on generalizing s v k with
  | _ n ih =>
    subst hn
    match s with
    | [] =>
      rw [List.nil_append] at h
      rw [List.append_nil] at hagree
      cases k with
      | zero => exact ⟨rfl, by simp [Quotable]⟩
      | succ k =>
        -- a backslash is missing
        rw [List.replicate_succ] at hagree
        match x, h, hx with
        | c :: x, h, hx =>
          by_cases hc : c = 34
          · subst hc
            obtain ⟨rfl, -⟩ := Prod.mk.inj (Option.some.inj (readQuoted_close x ▸ h))
            rw [List.nil_append] at hagree
            exact absurd (by rw [hagree]; rfl) ht'
          · have hc' : c ≠ 92 := fun he => hx (by rw [he]; rfl)
            rw [readQuoted_char ⟨hc, hc'⟩] at h
            obtain ⟨r, -, hr⟩ := Option.map_eq_some_iff.mp h
            obtain ⟨rfl, -⟩ := Prod.mk.inj hr
            exact absurd (List.cons.inj hagree).1 hc'
    | c :: s =>
      rw [List.cons_append] at h
      by_cases hquote : c = 34
      · subst hquote
        obtain ⟨rfl, -⟩ := Prod.mk.inj (Option.some.inj (readQuoted_close _ ▸ h))
        rw [List.nil_append] at hagree
        cases k with
        | zero => exact absurd (by rw [hagree]; rfl) ht
        | succ k => exact absurd (by rw [hagree]; rfl) ht'
      · by_cases hescape : c = 92
        · subst hescape
          match hs : s ++ x, h with
          | [], h => cases h
          | d :: z, h =>
            rw [readQuoted_pair] at h
            obtain ⟨⟨v', rest'⟩, hread, hr⟩ := Option.map_eq_some_iff.mp h
            obtain ⟨rfl, rfl⟩ := Prod.mk.inj hr
            have hd : d = 92 := by
              cases k <;> exact (List.cons.inj hagree).1
            subst hd
            match s, hs, ih with
            | [], hs, _ =>
              rw [List.nil_append] at hs
              exact absurd (by rw [hs]; rfl) hx
            | e :: s, hs, ih =>
              obtain ⟨rfl, rfl⟩ := List.cons.inj hs
              have hnext : v' ++ t = List.replicate (k + 1) 92 ++ s := by
                rw [replicate_append_cons, List.cons_append] at hagree
                rw [(List.cons.inj hagree).2, replicate_append_cons, List.replicate_succ, List.cons_append]
              exact absurd (ih s.length (by simp only [List.length_cons]; omega) hread hnext rfl).1 (Nat.succ_ne_zero k)
        · rw [readQuoted_char ⟨hquote, hescape⟩] at h
          obtain ⟨⟨v', rest'⟩, hread, hr⟩ := Option.map_eq_some_iff.mp h
          obtain ⟨rfl, rfl⟩ := Prod.mk.inj hr
          cases k with
          | succ k => exact absurd (List.cons.inj hagree).1 hescape
          | zero =>
            have hs := ih s.length (by simp) (k := 0) hread (List.cons.inj hagree).2 rfl
            exact ⟨rfl, List.forall_mem_cons.mpr ⟨⟨hquote, hescape⟩, hs.2⟩⟩

theorem readQuoted_append {s v r : List UInt8} (h : readQuoted s = some (v, r)) (t : List UInt8) :
    readQuoted (s ++ t) = some (v, r ++ t) := by
  fun_induction readQuoted s generalizing v with
  | case1 => cases h
  | case2 s =>
    obtain ⟨rfl, rfl⟩ := Prod.mk.inj (Option.some.inj h)
    rw [List.cons_append, readQuoted_close]
  | case3 => cases h
  | case4 hquote d s ih =>
    obtain ⟨q, hq, he⟩ := Option.map_eq_some_iff.mp h
    obtain ⟨rfl, rfl⟩ := Prod.mk.inj he
    rw [List.cons_append, List.cons_append, readQuoted_pair, ih hq]
    rfl
  | case5 c s hquote hescape ih =>
    obtain ⟨q, hq, he⟩ := Option.map_eq_some_iff.mp h
    obtain ⟨rfl, rfl⟩ := Prod.mk.inj he
    rw [List.cons_append, readQuoted_char ⟨hquote, hescape⟩, ih hq]
    rfl

theorem readQuoted_flat {s v r : List UInt8} (hs : Flat s) (h : readQuoted s = some (v, r)) :
    Flat v ∧ Flat r := by
  fun_induction readQuoted s generalizing v with
  | case1 => cases h
  | case2 s =>
    obtain ⟨rfl, rfl⟩ := Prod.mk.inj (Option.some.inj h)
    exact ⟨by simp [Flat], (flat_cons.mp hs).2⟩
  | case3 => cases h
  | case4 hquote d s ih =>
    obtain ⟨q, hq, he⟩ := Option.map_eq_some_iff.mp h
    obtain ⟨rfl, rfl⟩ := Prod.mk.inj he
    obtain ⟨hd, hs⟩ := flat_cons.mp (flat_cons.mp hs).2
    obtain ⟨hv, hr⟩ := ih hs hq
    exact ⟨flat_cons.mpr ⟨hd, hv⟩, hr⟩
  | case5 c s hquote hescape ih =>
    obtain ⟨q, hq, he⟩ := Option.map_eq_some_iff.mp h
    obtain ⟨rfl, rfl⟩ := Prod.mk.inj he
    obtain ⟨hc, hs⟩ := flat_cons.mp hs
    obtain ⟨hv, hr⟩ := ih hs hq
    exact ⟨flat_cons.mpr ⟨hc, hv⟩, hr⟩

/-! ## Addresses -/

/-- A character of an atom. -/
def atext (c : UInt8) : Bool :=
  (decide (48 ≤ c) && decide (c ≤ 57)) || (decide (65 ≤ c) && decide (c ≤ 90)) ||
    (decide (97 ≤ c) && decide (c ≤ 122)) || decide (128 ≤ c) ||
    ([33, 35, 36, 37, 38, 39, 42, 43, 45, 47, 61, 63, 94, 95, 96, 123, 124, 125, 126].elem c)

/-- A character of a domain literal. -/
def dtext (c : UInt8) : Bool :=
  decide (33 ≤ c) && !(c == 91 || c == 92 || c == 93 || c == 127)

/-- A character of a dot-atom. -/
def dotAtomChar (c : UInt8) : Bool := atext c || c == 46

/-- What follows a dot-atom. -/
def readDotAtom (s : List UInt8) : Option (List UInt8) :=
  if [] ∈ (s.takeWhile dotAtomChar).splitOn 46 then none else some (s.dropWhile dotAtomChar)

/-- What follows the local part of an address. -/
def readLocal (s : List UInt8) : Option (List UInt8) :=
  if s.head? = some 34 then (readQuoted s.tail).map (·.2) else readDotAtom s

/-- What follows the domain of an address. -/
def readDomain (s : List UInt8) : Option (List UInt8) :=
  if s.head? = some 91 then
    match s.tail.dropWhile dtext with
    | [] => none
    | c :: r => if c = 93 then some r else none
  else readDotAtom s

/-- What follows an address. -/
def readAddrSpec (s : List UInt8) : Option (List UInt8) :=
  (readLocal s).bind fun r =>
    match r with
    | [] => none
    | c :: t => if c = 64 then readDomain t else none

/-- A well-formed address. -/
def AddrSpec (a : List UInt8) : Prop := Flat a ∧ readAddrSpec a = some []

instance (a : List UInt8) : Decidable (AddrSpec a) := inferInstanceAs (Decidable (_ ∧ _))

/-- A dot-atom. -/
def DotAtom (w : List UInt8) : Prop := (∀ c ∈ w, dotAtomChar c = true) ∧ [] ∉ w.splitOn 46

theorem readDotAtom_iff {s r : List UInt8} : readDotAtom s = some r ↔
    ∃ w, s = w ++ r ∧ DotAtom w ∧ r.head?.any dotAtomChar = false := by
  unfold readDotAtom
  constructor
  · intro h
    split at h
    · cases h
    · next hpieces =>
      refine ⟨s.takeWhile dotAtomChar, ?_, ⟨fun c hc => List.mem_takeWhile_imp hc, hpieces⟩, ?_⟩
      · rw [← Option.some.inj h, List.takeWhile_append_dropWhile]
      · rw [← Option.some.inj h]
        cases hr : s.dropWhile dotAtomChar with
        | nil => rfl
        | cons c r =>
          have hhead := List.head?_dropWhile_not dotAtomChar s
          rw [hr] at hhead
          simpa using hhead
  · rintro ⟨w, rfl, hw, hr⟩
    have htake : r.takeWhile dotAtomChar = [] ∧ r.dropWhile dotAtomChar = r := by
      cases r with
      | nil => exact ⟨rfl, rfl⟩
      | cons c r =>
        have hc : ¬ dotAtomChar c = true := by simpa using hr
        exact ⟨List.takeWhile_cons_of_neg hc, List.dropWhile_cons_of_neg hc⟩
    rw [List.takeWhile_append_of_pos hw.1, List.dropWhile_append_of_pos hw.1, htake.1, htake.2,
      List.append_nil, if_neg hw.2]

theorem readDotAtom_append {s r t : List UInt8} (h : readDotAtom s = some r)
    (ht : r = [] → t.head?.any dotAtomChar = false) : readDotAtom (s ++ t) = some (r ++ t) := by
  obtain ⟨w, rfl, hw, hr⟩ := readDotAtom_iff.mp h
  refine readDotAtom_iff.mpr ⟨w, List.append_assoc w r t, hw, ?_⟩
  cases r with
  | nil => exact ht rfl
  | cons c r => exact hr

theorem readDotAtom_nil : readDotAtom [] = none := by decide

theorem readLocal_append {s r t : List UInt8} (h : readLocal s = some r) (hr : r ≠ []) :
    readLocal (s ++ t) = some (r ++ t) := by
  unfold readLocal at h
  cases s with
  | nil => exact absurd (h.symm.trans readDotAtom_nil) (by simp)
  | cons c s =>
    unfold readLocal
    rw [List.cons_append, List.head?_cons, List.tail_cons]
    rw [List.head?_cons, List.tail_cons] at h
    split
    · next hquote =>
      rw [if_pos hquote] at h
      obtain ⟨q, hq, rfl⟩ := Option.map_eq_some_iff.mp h
      rw [readQuoted_append hq]
      rfl
    · next hquote =>
      rw [if_neg hquote] at h
      exact readDotAtom_append h fun he => absurd he hr

theorem readDomain_append {s t : List UInt8} (h : readDomain s = some [])
    (ht : t.head?.any dotAtomChar = false) : readDomain (s ++ t) = some t := by
  unfold readDomain at h
  cases s with
  | nil => exact absurd (h.symm.trans readDotAtom_nil) (by simp)
  | cons c s =>
    unfold readDomain
    rw [List.cons_append, List.head?_cons, List.tail_cons]
    rw [List.head?_cons, List.tail_cons] at h
    split
    · next hopen =>
      rw [if_pos hopen] at h
      rw [List.dropWhile_append]
      match hs : s.dropWhile dtext, h with
      | [], h => cases h
      | d :: r, h =>
        dsimp only at h
        split at h
        · next hd =>
          rw [Option.some.inj h]
          simp [hd]
        · cases h
    · next hopen =>
      rw [if_neg hopen] at h
      exact readDotAtom_append h fun _ => ht

/-- An address is read up to the bracket behind it. -/
theorem readAddrSpec_bracket {a : List UInt8} (h : AddrSpec a) (t : List UInt8) :
    readAddrSpec (a ++ 62 :: t) = some (62 :: t) := by
  obtain ⟨r, hlocal, hdomain⟩ := Option.bind_eq_some_iff.mp h.2
  match r, hdomain with
  | [], hdomain => cases hdomain
  | c :: r, hdomain =>
    dsimp only at hdomain
    split at hdomain
    · next hc =>
      rw [readAddrSpec, readLocal_append hlocal (List.cons_ne_nil c r), Option.bind_some,
        List.cons_append]
      dsimp only
      rw [if_pos hc, readDomain_append hdomain (by rfl)]
    · cases hdomain

/-! ## Lists of mailboxes -/

/-- A word of a phrase and what follows it. -/
def readWord : List UInt8 → Option (List UInt8 × List UInt8)
  | [] => none
  | c :: s =>
    if c = 34 then readQuoted s
    else if atext c then some ((c :: s).takeWhile atext, (c :: s).dropWhile atext)
    else none

/-- The words in front of an opening bracket, and what follows it; the number bounds them. -/
def readPhrase : Nat → List UInt8 → Option (List (List UInt8) × List UInt8)
  | 0, _ => none
  | n + 1, s =>
    match s.dropWhile white with
    | [] => none
    | c :: t =>
      if c = 60 then some ([], t)
      else (readWord (c :: t)).bind fun r => (readPhrase n r.2).map fun q => (r.1 :: q.1, q.2)

/-- A mailbox: its name, empty when there is none, and its address, and what follows it. -/
def readMailbox (s : List UInt8) : Option ((List UInt8 × List UInt8) × List UInt8) :=
  match readAddrSpec s with
  | some r => some (([], s.take (s.length - r.length)), r)
  | none =>
    (readPhrase (s.length + 1) s).bind fun q =>
      (readAddrSpec q.2).bind fun r =>
        match r with
        | [] => none
        | c :: t =>
          if c = 62 then some (([32].intercalate q.1, q.2.take (q.2.length - r.length)), t) else none

/-- The loop of `readAddresses`, with a bound on the mailboxes. -/
def addressesLoop : Nat → List UInt8 → Option (List (List UInt8 × List UInt8))
  | 0, _ => none
  | n + 1, s =>
    (readMailbox (s.dropWhile white)).bind fun r =>
      match r.2.dropWhile white with
      | [] => some [r.1]
      | c :: t => if c = 44 then (addressesLoop n t).map (r.1 :: ·) else none

/-- The mailboxes of an address list; an empty text lists none. -/
def readAddresses (s : List UInt8) : Option (List (List UInt8 × List UInt8)) :=
  if s.dropWhile white = [] then some [] else addressesLoop s.length s

/-- A mailbox, as it is written with its name between quotes. -/
def quotedMailbox (a : List UInt8 × List UInt8) : List UInt8 :=
  (if a.1 = [] then [] else 34 :: (a.1 ++ [34, 32])) ++ 60 :: (a.2 ++ [62])

/-! ### What is read has no line end of its own -/

theorem readDotAtom_flat {s r : List UInt8} (hs : Flat s) (h : readDotAtom s = some r) : Flat r := by
  obtain ⟨w, rfl, -⟩ := readDotAtom_iff.mp h
  exact (flat_append.mp hs).2

theorem readLocal_flat {s r : List UInt8} (hs : Flat s) (h : readLocal s = some r) : Flat r := by
  unfold readLocal at h
  split at h
  · obtain ⟨q, hq, rfl⟩ := Option.map_eq_some_iff.mp h
    exact (readQuoted_flat (hs.of_subset (List.tail_subset s)) hq).2
  · exact readDotAtom_flat hs h

theorem readDomain_flat {s r : List UInt8} (hs : Flat s) (h : readDomain s = some r) : Flat r := by
  unfold readDomain at h
  split at h
  · match hdrop : s.tail.dropWhile dtext, h with
    | [], h => cases h
    | c :: t, h =>
      dsimp only at h
      split at h
      · have hflat : Flat (c :: t) := hs.of_subset
          (hdrop ▸ List.Subset.trans (List.dropWhile_subset dtext) (List.tail_subset s))
        rw [← Option.some.inj h]
        exact (flat_cons.mp hflat).2
      · cases h
  · exact readDotAtom_flat hs h

theorem readAddrSpec_flat {s r : List UInt8} (hs : Flat s) (h : readAddrSpec s = some r) :
    Flat r := by
  obtain ⟨q, hlocal, hdomain⟩ := Option.bind_eq_some_iff.mp h
  match q, hlocal, hdomain with
  | [], _, hdomain => cases hdomain
  | c :: t, hlocal, hdomain =>
    dsimp only at hdomain
    split at hdomain
    · exact readDomain_flat (flat_cons.mp (readLocal_flat hs hlocal)).2 hdomain
    · cases hdomain

theorem readWord_flat {s w r : List UInt8} (hs : Flat s) (h : readWord s = some (w, r)) :
    Flat w ∧ Flat r := by
  match s with
  | [] => cases h
  | c :: s =>
    rw [readWord] at h
    split at h
    · exact readQuoted_flat (flat_cons.mp hs).2 h
    · split at h
      · obtain ⟨rfl, rfl⟩ := Prod.mk.inj (Option.some.inj h)
        exact ⟨hs.of_subset (List.takeWhile_subset atext), hs.of_subset (List.dropWhile_subset atext)⟩
      · cases h

theorem readPhrase_flat {n : Nat} {s r : List UInt8} {ws : List (List UInt8)} (hs : Flat s)
    (h : readPhrase n s = some (ws, r)) : (∀ w ∈ ws, Flat w) ∧ Flat r := by
  induction n generalizing s ws with
  | zero => cases h
  | succ n ih =>
    have hdrop := hs.of_subset (List.dropWhile_subset white)
    unfold readPhrase at h
    match hd : s.dropWhile white, h with
    | [], h => cases h
    | c :: t, h =>
      rw [hd] at hdrop
      dsimp only at h
      split at h
      · obtain ⟨rfl, rfl⟩ := Prod.mk.inj (Option.some.inj h)
        exact ⟨by simp, (flat_cons.mp hdrop).2⟩
      · obtain ⟨q, hword, hq⟩ := Option.bind_eq_some_iff.mp h
        obtain ⟨p, hphrase, he⟩ := Option.map_eq_some_iff.mp hq
        obtain ⟨rfl, rfl⟩ := Prod.mk.inj he
        obtain ⟨hw, hr⟩ := readWord_flat hdrop hword
        obtain ⟨hws, hr'⟩ := ih hr hphrase
        exact ⟨List.forall_mem_cons.mpr ⟨hw, hws⟩, hr'⟩

theorem flat_intercalate {ws : List (List UInt8)} (h : ∀ w ∈ ws, Flat w) :
    Flat ([32].intercalate ws) := by
  induction ws with
  | nil => simp [Flat]
  | cons w ws ih =>
    rw [List.forall_mem_cons] at h
    cases ws with
    | nil =>
      rw [List.intercalate_singleton]
      exact h.1
    | cons w' ws =>
      rw [List.intercalate_cons_cons, flat_append, flat_append]
      exact ⟨⟨h.1, by decide⟩, ih h.2⟩

theorem readMailbox_flat {s r : List UInt8} {a : List UInt8 × List UInt8} (hs : Flat s)
    (h : readMailbox s = some (a, r)) : Flat a.1 ∧ Flat r := by
  unfold readMailbox at h
  split at h
  · next hspec =>
    obtain ⟨rfl, rfl⟩ := Prod.mk.inj (Option.some.inj h)
    exact ⟨by simp [Flat], readAddrSpec_flat hs hspec⟩
  · obtain ⟨q, hphrase, hq⟩ := Option.bind_eq_some_iff.mp h
    obtain ⟨p, hspec, hp⟩ := Option.bind_eq_some_iff.mp hq
    obtain ⟨hws, hr⟩ := readPhrase_flat hs hphrase
    match p, hspec, hp with
    | [], _, hp => cases hp
    | c :: t, hspec, hp =>
      dsimp only at hp
      split at hp
      · obtain ⟨rfl, rfl⟩ := Prod.mk.inj (Option.some.inj hp)
        exact ⟨flat_intercalate hws, (flat_cons.mp (readAddrSpec_flat hr hspec)).2⟩
      · cases hp

theorem readAddresses_flat {s : List UInt8} {l : List (List UInt8 × List UInt8)} (hs : Flat s)
    (h : readAddresses s = some l) : ∀ a ∈ l, Flat a.1 := by
  have hloop : ∀ n s l, Flat s → addressesLoop n s = some l → ∀ a ∈ l, Flat a.1 := by
    intro n
    induction n with
    | zero =>
      intro s l _ h
      cases h
    | succ n ih =>
      intro s l hs h
      obtain ⟨⟨a, r⟩, hmailbox, hr⟩ := Option.bind_eq_some_iff.mp h
      obtain ⟨ha, hflat⟩ := readMailbox_flat (hs.of_subset (List.dropWhile_subset white)) hmailbox
      have hdrop := hflat.of_subset (List.dropWhile_subset white)
      match hd : r.dropWhile white, hr with
      | [], hr =>
        rw [← Option.some.inj hr, List.forall_mem_singleton]
        exact ha
      | c :: t, hr =>
        rw [hd] at hdrop
        dsimp only at hr
        split at hr
        · obtain ⟨l', hl', rfl⟩ := Option.map_eq_some_iff.mp hr
          exact List.forall_mem_cons.mpr ⟨ha, ih t l' (flat_cons.mp hdrop).2 hl'⟩
        · cases hr
  unfold readAddresses at h
  split at h
  · rw [← Option.some.inj h]
    simp
  · exact hloop s.length s l hs h

/-! ### Mailboxes with their names between quotes -/

theorem readAddrSpec_angle (s : List UInt8) : readAddrSpec (60 :: s) = none := rfl

theorem quotedMailbox_nil (a : List UInt8) (t : List UInt8) :
    quotedMailbox ([], a) ++ t = 60 :: (a ++ 62 :: t) := by
  simp [quotedMailbox]

theorem quotedMailbox_name {name : List UInt8} (h : name ≠ []) (a : List UInt8) (t : List UInt8) :
    quotedMailbox (name, a) ++ t = 34 :: (name ++ 34 :: 32 :: 60 :: (a ++ 62 :: t)) := by
  simp [quotedMailbox, h]

/-- A mailbox whose name needs no escape is read as it was. -/
theorem readMailbox_quotedMailbox {a : List UInt8 × List UInt8} (hname : Quotable a.1)
    (ha : AddrSpec a.2) (t : List UInt8) : readMailbox (quotedMailbox a ++ t) = some (a, t) := by
  obtain ⟨name, a⟩ := a
  have htake : (a ++ 62 :: t).take ((a ++ 62 :: t).length - (62 :: t).length) = a := by
    simp
  by_cases hempty : name = []
  · subst hempty
    rw [quotedMailbox_nil, readMailbox, readAddrSpec_angle]
    have hphrase (n : Nat) : readPhrase (n + 1) (60 :: (a ++ 62 :: t)) = some ([], a ++ 62 :: t) := rfl
    dsimp only
    rw [hphrase, Option.bind_some, readAddrSpec_bracket ha, Option.bind_some]
    dsimp only
    rw [if_pos rfl, htake]
    rfl
  · rw [quotedMailbox_name hempty]
    have hquoted : readQuoted (name ++ 34 :: 32 :: 60 :: (a ++ 62 :: t)) =
        some (name, 32 :: 60 :: (a ++ 62 :: t)) := by
      rw [readQuoted_quotable hname, readQuoted_close]
      simp
    have hspec : readAddrSpec (34 :: (name ++ 34 :: 32 :: 60 :: (a ++ 62 :: t))) = none := by
      rw [readAddrSpec, readLocal, List.head?_cons, if_pos rfl, List.tail_cons, hquoted]
      rfl
    have hphrase (n : Nat) : readPhrase (n + 2) (34 :: (name ++ 34 :: 32 :: 60 :: (a ++ 62 :: t))) =
        some ([name], a ++ 62 :: t) := by
      rw [readPhrase, List.dropWhile_cons_of_neg (by decide)]
      dsimp only
      rw [if_neg (by decide), readWord, if_pos rfl, hquoted]
      rfl
    rw [readMailbox, hspec]
    dsimp only
    rw [List.length_cons, hphrase, Option.bind_some, readAddrSpec_bracket ha, Option.bind_some]
    dsimp only
    rw [if_pos rfl, htake, List.intercalate_singleton]

theorem intercalate_cons (v : List UInt8) (ws : List (List UInt8)) :
    ∃ t, [32].intercalate (v :: ws) = v ++ t ∧ t.head? ≠ some 34 ∧ t.head? ≠ some 92 := by
  cases ws with
  | nil => exact ⟨[], by simp, by simp, by simp⟩
  | cons w ws =>
    exact ⟨32 :: [32].intercalate (w :: ws), by rw [List.intercalate_cons_cons]; simp, by simp,
      by simp⟩

/-- A name that comes back needs no escape. -/
theorem quotable_of_readMailbox {a b : List UInt8 × List UInt8} {t r : List UInt8}
    (h : readMailbox (quotedMailbox a ++ t) = some (b, r)) (hb : b.1 = a.1) : Quotable a.1 := by
  obtain ⟨name, a⟩ := a
  by_cases hempty : name = []
  · simp [hempty, Quotable]
  · rw [quotedMailbox_name hempty] at h
    unfold readMailbox at h
    split at h
    · obtain ⟨rfl, -⟩ := Prod.mk.inj (Option.some.inj h)
      exact absurd hb.symm hempty
    · obtain ⟨q, hphrase, hq⟩ := Option.bind_eq_some_iff.mp h
      obtain ⟨p, -, hp⟩ := Option.bind_eq_some_iff.mp hq
      have hname : [32].intercalate q.1 = name := by
        match p, hp with
        | [], hp => cases hp
        | c :: p, hp =>
          dsimp only at hp
          split at hp
          · exact (congrArg Prod.fst (Prod.mk.inj (Option.some.inj hp)).1).trans hb
          · cases hp
      rw [readPhrase, List.dropWhile_cons_of_neg (by decide)] at hphrase
      dsimp only at hphrase
      rw [if_neg (by decide), readWord, if_pos rfl] at hphrase
      obtain ⟨⟨v, rest⟩, hquoted, hrest⟩ := Option.bind_eq_some_iff.mp hphrase
      obtain ⟨more, -, rfl⟩ := Option.map_eq_some_iff.mp hrest
      obtain ⟨u, hu, hquote, hescape⟩ := intercalate_cons v more.1
      exact (readQuoted_front (k := 0) hquoted (by simp) hquote hescape (hu ▸ hname)).2

/-! ### Lists without commas -/

/-- The mailboxes of a list, a blank between two of them. -/
def blankList (l : List (List UInt8 × List UInt8)) : List UInt8 :=
  [32].intercalate (l.map quotedMailbox)

theorem blankList_cons (a : List UInt8 × List UInt8) (l : List (List UInt8 × List UInt8)) :
    blankList (a :: l) = quotedMailbox a ++ (if l = [] then [] else 32 :: blankList l) := by
  cases l with
  | nil => simp [blankList]
  | cons b l => simp [blankList, List.intercalate_cons_cons]

theorem dropWhile_quotedMailbox (a : List UInt8 × List UInt8) (t : List UInt8) :
    (quotedMailbox a ++ t).dropWhile white = quotedMailbox a ++ t := by
  obtain ⟨name, a⟩ := a
  by_cases hempty : name = []
  · subst hempty
    rw [quotedMailbox_nil]
    exact List.dropWhile_cons_of_neg (by decide)
  · rw [quotedMailbox_name hempty]
    exact List.dropWhile_cons_of_neg (by decide)

theorem head_quotedMailbox (a : List UInt8 × List UInt8) (t : List UInt8) :
    ∃ c u, quotedMailbox a ++ t = c :: u ∧ c ≠ 44 := by
  obtain ⟨name, a⟩ := a
  by_cases hempty : name = []
  · exact ⟨60, _, by rw [hempty, quotedMailbox_nil], by decide⟩
  · exact ⟨34, _, quotedMailbox_name hempty a t, by decide⟩

theorem readAddresses_quotedMailbox (a : List UInt8 × List UInt8) (t : List UInt8) :
    ∃ n, readAddresses (quotedMailbox a ++ t) =
      (readMailbox (quotedMailbox a ++ t)).bind fun r =>
        match r.2.dropWhile white with
        | [] => some [r.1]
        | c :: u => if c = 44 then (addressesLoop n u).map (r.1 :: ·) else none := by
  obtain ⟨c, u, hcons, -⟩ := head_quotedMailbox a t
  refine ⟨u.length, ?_⟩
  rw [readAddresses, dropWhile_quotedMailbox, if_neg (by rw [hcons]; exact List.cons_ne_nil c u)]
  rw [show (quotedMailbox a ++ t).length = u.length + 1 from congrArg List.length hcons, addressesLoop,
    dropWhile_quotedMailbox]

/-- One mailbox whose name needs no escape. -/
theorem readAddresses_blankList {l : List (List UInt8 × List UInt8)} (hlength : l.length ≤ 1)
    (hname : ∀ a ∈ l, Quotable a.1) (ha : ∀ a ∈ l, AddrSpec a.2) :
    readAddresses (blankList l) = some l := by
  match l, hlength with
  | [], _ => rfl
  | [a], _ =>
    rw [List.forall_mem_singleton] at hname ha
    obtain ⟨n, hread⟩ := readAddresses_quotedMailbox a []
    rw [blankList_cons, if_pos rfl, hread, readMailbox_quotedMailbox hname ha]
    rfl

/-- Only a list of one mailbox at most is read from a list without commas, and only a name that
needs no escape. -/
theorem blankList_need {l : List (List UInt8 × List UInt8)} (ha : ∀ a ∈ l, AddrSpec a.2)
    (h : readAddresses (blankList l) = some l) : l.length ≤ 1 ∧ ∀ a ∈ l, Quotable a.1 := by
  cases l with
  | nil => exact ⟨Nat.zero_le 1, by simp⟩
  | cons a l =>
    rw [List.forall_mem_cons] at ha
    rw [blankList_cons] at h
    obtain ⟨n, hread⟩ := readAddresses_quotedMailbox a (if l = [] then [] else 32 :: blankList l)
    rw [hread] at h
    obtain ⟨⟨b, r⟩, hmailbox, hrest⟩ := Option.bind_eq_some_iff.mp h
    have hb : b = a := by
      dsimp only at hrest
      split at hrest
      · exact (List.cons.inj (Option.some.inj hrest)).1
      · split at hrest
        · obtain ⟨l', -, hl'⟩ := Option.map_eq_some_iff.mp hrest
          exact (List.cons.inj hl').1
        · cases hrest
    have hname := quotable_of_readMailbox hmailbox (congrArg Prod.fst hb)
    cases l with
    | nil => exact ⟨Nat.le_refl 1, List.forall_mem_singleton.mpr hname⟩
    | cons b' l =>
      -- a blank and another mailbox stand where a comma should
      exfalso
      rw [readMailbox_quotedMailbox hname ha.1] at hmailbox
      obtain ⟨-, rfl⟩ := Prod.mk.inj (Option.some.inj hmailbox)
      have hblank : (32 :: blankList (b' :: l)).dropWhile white = blankList (b' :: l) := by
        rw [List.dropWhile_cons_of_pos (by decide), blankList_cons, dropWhile_quotedMailbox]
      obtain ⟨c, u, hcons, hc⟩ := head_quotedMailbox b' (if l = [] then [] else 32 :: blankList l)
      rw [if_neg (List.cons_ne_nil b' l), hblank, blankList_cons, hcons] at hrest
      dsimp only at hrest
      rw [if_neg hc] at hrest
      cases hrest

theorem flat_quotedMailbox {a : List UInt8 × List UInt8} (hname : Flat a.1) (ha : AddrSpec a.2) :
    Flat (quotedMailbox a) := by
  have happ := flat_append.mpr ⟨ha.1, show Flat [62] by decide⟩
  have hcons := flat_cons.mpr ⟨show (60 : UInt8) ≠ 13 ∧ (60 : UInt8) ≠ 10 by decide, happ⟩
  refine flat_append.mpr ⟨?_, hcons⟩
  split
  · simp [Flat]
  · exact flat_cons.mpr ⟨by decide, flat_append.mpr ⟨hname, by decide⟩⟩

theorem flat_blankList {l : List (List UInt8 × List UInt8)} (hname : ∀ a ∈ l, Flat a.1)
    (ha : ∀ a ∈ l, AddrSpec a.2) : Flat (blankList l) := by
  refine flat_intercalate ?_
  rw [List.forall_mem_map]
  exact fun a hmem => flat_quotedMailbox (hname a hmem) (ha a hmem)

end MailSyntax
