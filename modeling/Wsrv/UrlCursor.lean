import Wsrv.PercentCodec
import Wsrv.RequestDecode

/-!
# The cursor of `url_decode`

`url_decode` walks over `src.c_str()` with a pointer.  At a percent sign it steps
over the two characters behind it without a look at what they are, so that an
escape that is cut short takes the pointer behind the terminator.  The pointer
stays inside the string exactly when every escape that it comes to is whole
(`walk_stays_iff`); there the walk is the decoder (`walk_decoded`).
-/

namespace Wsrv.UrlCursor

/-! ## The walk -/

/-- `src.c_str()[i]`, where there is one: the last one is the terminator. -/
def charAt (src : Str) (i : Nat) : Option UInt8 := (src ++ [0])[i]?

/-- The indices that are read, and what is decoded; `none` behind a read outside of the string. -/
structure Walk where
  reads : List Nat
  decoded : Option Str
  deriving DecidableEq

/-- A turn of the loop, and the turns behind it. -/
def Walk.after (reads : List Nat) (out : Str) (w : Walk) : Walk :=
  ⟨reads ++ w.reads, w.decoded.map (out ++ ·)⟩

/-- What `sprintf(tmp, "%c", val) ; ret += tmp` appends. -/
def escaped (a b : UInt8) : Str :=
  let val := 16 * hexDecode a + hexDecode b
  if val = 0 then [] else [val]

theorem lt_of_charAt {src : Str} {i : Nat} {c : UInt8} (h : charAt src i = some c) :
    i < src.length + 1 := by
  obtain ⟨hi, -⟩ := List.getElem?_eq_some_iff.mp h
  simpa using hi

/-- The loop of `url_decode`, with its cursor at the index `p`. -/
def walk (src : Str) (p : Nat) : Walk :=
  match _h : charAt src p with
  | none => ⟨[p], none⟩
  | some c =>
    if c = 0 then ⟨[p], some []⟩
    else if c = '+'.toUInt8 then (walk src (p + 1)).after [p] [' '.toUInt8]
    else if c = '%'.toUInt8 then
      match charAt src (p + 1) with
      | none => ⟨[p, p + 1], none⟩
      | some a =>
        match charAt src (p + 2) with
        | none => ⟨[p, p + 1, p + 2], none⟩
        | some b => (walk src (p + 3)).after [p, p + 1, p + 2] (escaped a b)
    else (walk src (p + 1)).after [p] [c]
termination_by src.length + 1 - p
decreasing_by
  all_goals
    have := lt_of_charAt _h
    omega

/-- Every read is inside of the string or at its terminator, and the last one is a NUL. -/
structure Stays (src : Str) (w : Walk) : Prop where
  inside : ∀ i ∈ w.reads, i ≤ src.length
  stop : ∃ p, w.reads.getLast? = some p ∧ charAt src p = some 0

/-- Every percent sign before the first NUL, from left to right, has two characters behind it. -/
inductive Escaped : Str → Prop
  | done : Escaped []
  | nul (rest : Str) : Escaped (0 :: rest)
  | char {c : UInt8} {rest : Str} (h0 : c ≠ 0) (hp : c ≠ '%'.toUInt8) (h : Escaped rest) :
      Escaped (c :: rest)
  | escape (a b : UInt8) {rest : Str} (h : Escaped rest) : Escaped ('%'.toUInt8 :: a :: b :: rest)

/-! ## One turn -/

theorem charAt_drop {src rest : Str} {p : Nat} (h : src.drop p = rest) (hp : p ≤ src.length)
    (i : Nat) : charAt src (p + i) = (rest ++ [0])[i]? := by
  rw [charAt, ← h, ← List.drop_append_of_le_length hp, List.getElem?_drop]

theorem charAt_outside {src : Str} {i : Nat} (h : src.length < i) : charAt src i = none :=
  List.getElem?_eq_none (by rw [List.length_append, List.length_singleton]; omega)

theorem walk_reads_ne_nil (src : Str) (p : Nat) : (walk src p).reads ≠ [] := by
  rw [walk]
  split
  · simp
  · split_ifs
    · simp
    · simp [Walk.after]
    · split
      · simp
      · split <;> simp [Walk.after]
    · simp [Walk.after]

theorem stays_after {src : Str} {reads : List Nat} {out : Str} {p : Nat} :
    Stays src ((walk src p).after reads out) ↔
      (∀ i ∈ reads, i ≤ src.length) ∧ Stays src (walk src p) := by
  have hlast : (reads ++ (walk src p).reads).getLast? = (walk src p).reads.getLast? :=
    List.getLast?_append_of_ne_nil _ (walk_reads_ne_nil src p)
  constructor
  · rintro ⟨hinside, q, hq, hnul⟩
    refine ⟨fun i hi => hinside i (List.mem_append_left _ hi), ?_, q, ?_, hnul⟩
    · exact fun i hi => hinside i (List.mem_append_right _ hi)
    · rwa [← hlast]
  · rintro ⟨hreads, hinside, q, hq, hnul⟩
    refine ⟨fun i hi => ?_, q, ?_, hnul⟩
    · exact (List.mem_append.mp hi).elim (hreads i) (hinside i)
    · exact hlast.trans hq

/-- Behind the terminator the walk is lost. -/
theorem not_stays_outside {src : Str} {p : Nat} (h : src.length < p) : ¬ Stays src (walk src p) := by
  rw [walk, charAt_outside h]
  rintro ⟨hinside, -⟩
  have := hinside p List.mem_cons_self
  omega

/-! ## The whole walk -/

/-- The walk over what is left of the string, by the characters it begins with. -/
theorem walk_rest (src : Str) {rest : Str} {p : Nat} (h : src.drop p = rest) (hp : p ≤ src.length) :
    Stays src (walk src p) ↔ Escaped rest := by
  induction hn : rest.length using Nat.strong_induction_on generalizing rest p with
  | _ n ih =>
    subst hn
    have hchar := charAt_drop h hp
    have hlength : src.length = p + rest.length := by
      rw [← h, List.length_drop]
      omega
    rw [walk]
    cases rest with
    | nil =>
      rw [show charAt src p = some 0 from hchar 0]
      refine ⟨fun _ => .done, fun _ => ⟨?_, p, rfl, hchar 0⟩⟩
      simpa using hp
    | cons c rest =>
      have hstep (k : Nat) (hk : k ≤ (c :: rest).length) :
          src.drop (p + k) = (c :: rest).drop k ∧ p + k ≤ src.length := by
        rw [← h, List.drop_drop]
        exact ⟨rfl, by omega⟩
      rw [show charAt src p = some c from hchar 0]
      simp only []
      split_ifs with h0 hplus hpercent
      · -- the loop stops at a NUL
        subst h0
        refine ⟨fun _ => .nul rest, fun _ => ⟨?_, p, rfl, hchar 0⟩⟩
        simpa using hp
      · subst hplus
        obtain ⟨hdrop, hle⟩ := hstep 1 (by simp)
        rw [stays_after, ih rest.length (by simp) hdrop hle rfl]
        constructor
        · rintro ⟨-, hrest⟩
          exact .char (by decide) (by decide) hrest
        · intro hescaped
          cases hescaped with
          | char _ _ hrest => exact ⟨by simpa using hp, hrest⟩
      · subst hpercent
        match rest, hstep, hchar, hlength, ih with
        | [], _, hchar, hlength, _ =>
          -- `%` is the last character: the second digit is read behind the terminator
          rw [show charAt src (p + 1) = some 0 from hchar 1, charAt_outside (by simp at hlength; omega)]
          refine ⟨fun hstays => ?_, fun hescaped => by cases hescaped; contradiction⟩
          have := hstays.inside (p + 2) (by simp)
          simp at hlength
          omega
        | [a], _, hchar, hlength, _ =>
          -- the terminator is taken for the second digit, and the loop goes on behind it
          rw [show charAt src (p + 1) = some a from hchar 1,
            show charAt src (p + 2) = some 0 from hchar 2]
          refine ⟨fun hstays => ?_, fun hescaped => by cases hescaped; contradiction⟩
          have hnext := (stays_after.mp hstays).2
          exact absurd hnext (not_stays_outside (by simp at hlength; omega))
        | a :: b :: rest, hstep, hchar, hlength, ih =>
          obtain ⟨hdrop, hle⟩ := hstep 3 (by simp)
          rw [show charAt src (p + 1) = some a from hchar 1,
            show charAt src (p + 2) = some b from hchar 2, stays_after,
            ih rest.length (by simp; omega) hdrop hle rfl]
          constructor
          · rintro ⟨-, hrest⟩
            exact .escape a b hrest
          · intro hescaped
            cases hescaped with
            | char _ hp' _ => exact absurd rfl hp'
            | escape _ _ hrest => exact ⟨by simp; omega, hrest⟩
      · obtain ⟨hdrop, hle⟩ := hstep 1 (by simp)
        rw [stays_after, ih rest.length (by simp) hdrop hle rfl]
        constructor
        · rintro ⟨-, hrest⟩
          exact .char h0 hpercent hrest
        · intro hescaped
          cases hescaped with
          | nul => exact absurd rfl h0
          | char _ _ hrest => exact ⟨by simpa using hp, hrest⟩
          | escape => exact absurd rfl hpercent

/-- **The cursor stays inside exactly when the escapes are whole.** -/
theorem walk_stays_iff (src : Str) : Stays src (walk src 0) ↔ Escaped src :=
  walk_rest src List.drop_zero (Nat.zero_le _)

/-- A request target that ends in a percent sign is accepted and decoded. -/
theorem percent_leaves :
    ¬ Stays (str "/%") (walk (str "/%") 0) ∧
      RequestParser.urlParts (str "/%") = .error .undefined := by
  refine ⟨fun h => ?_, by decide +kernel⟩
  have hreads : 3 ∈ (walk (str "/%") 0).reads := by decide +kernel
  exact absurd (h.inside 3 hreads) (by decide)

/-! ## The decoder -/

/-- **On a C string the walk decodes what `urlDecode` does.** -/
theorem walk_decoded {src : Str} (hsrc : 0 ∉ src) : (walk src 0).decoded = urlDecode src := by
  rw [urlDecode, cstr_of_no_nul hsrc]
  suffices hrest : ∀ (rest : Str) (p : Nat), src.drop p = rest → p ≤ src.length →
      (walk src p).decoded = urlDecodeLoop rest from hrest src 0 List.drop_zero (Nat.zero_le _)
  intro rest
  induction hn : rest.length using Nat.strong_induction_on generalizing rest with
  | _ n ih =>
    subst hn
    intro p h hp
    have hchar := charAt_drop h hp
    have hlength : src.length = p + rest.length := by
      rw [← h, List.length_drop]
      omega
    rw [walk, urlDecodeLoop.eq_def]
    cases rest with
    | nil =>
      rw [show charAt src p = some 0 from hchar 0]
      rfl
    | cons c rest =>
      have hstep (k : Nat) (hk : k ≤ (c :: rest).length) :
          src.drop (p + k) = (c :: rest).drop k ∧ p + k ≤ src.length := by
        rw [← h, List.drop_drop]
        exact ⟨rfl, by omega⟩
      have h0 : c ≠ 0 := by
        rintro rfl
        exact hsrc (List.mem_of_mem_drop (h ▸ List.mem_cons_self))
      rw [show charAt src p = some c from hchar 0]
      simp only [h0, if_false]
      split_ifs with hplus hpercent
      · obtain ⟨hdrop, hle⟩ := hstep 1 (by simp)
        rw [Walk.after, ih rest.length (by simp) rest rfl _ hdrop hle]
        rfl
      · match rest, hstep, hchar, hlength, ih with
        | [], _, hchar, hlength, _ =>
          rw [show charAt src (p + 1) = some 0 from hchar 1, charAt_outside (by simp at hlength; omega)]
        | [a], _, hchar, hlength, _ =>
          rw [show charAt src (p + 1) = some a from hchar 1,
            show charAt src (p + 2) = some 0 from hchar 2]
          show (walk src (p + 3)).decoded.map _ = none
          rw [walk, charAt_outside (by simp at hlength; omega)]
          rfl
        | a :: b :: rest, hstep, hchar, _, ih =>
          obtain ⟨hdrop, hle⟩ := hstep 3 (by simp)
          rw [show charAt src (p + 1) = some a from hchar 1,
            show charAt src (p + 2) = some b from hchar 2]
          show (walk src (p + 3)).decoded.map _ = _
          rw [ih rest.length (by simp; omega) rest rfl _ hdrop hle]
          by_cases hval : 16 * hexDecode a + hexDecode b = 0 <;> simp [escaped, hval]
      · obtain ⟨hdrop, hle⟩ := hstep 1 (by simp)
        rw [Walk.after, ih rest.length (by simp) rest rfl _ hdrop hle]
        rfl

theorem outside_of_charAt {src : Str} {i : Nat} (h : charAt src i = none) : src.length < i := by
  have hnone := List.getElem?_eq_none_iff.mp h
  rw [List.length_append, List.length_singleton] at hnone
  omega

/-- Every read of a turn is in front of the next one. -/
theorem after_decoded {src : Str} {reads : List Nat} {out : Str} {p : Nat}
    (h : ∀ i ∈ reads, i < p) (hp : (walk src p).decoded.isSome = true ↔ Stays src (walk src p)) :
    ((walk src p).after reads out).decoded.isSome = true ↔ Stays src ((walk src p).after reads out) := by
  rw [stays_after, Walk.after, Option.isSome_map, hp]
  refine ⟨fun hstays => ⟨fun i hi => ?_, hstays⟩, And.right⟩
  by_contra hout
  exact not_stays_outside ((not_le.mp hout).trans (h i hi)) hstays

/-- **The walk has a result exactly when** it stays inside of the string. -/
theorem decoded_isSome_iff (src : Str) (p : Nat) :
    (walk src p).decoded.isSome = true ↔ Stays src (walk src p) := by
  induction p using walk.induct src with
  | case1 p hchar =>
    refine iff_of_false ?_ (not_stays_outside (outside_of_charAt hchar))
    rw [walk, hchar]
    exact Bool.false_ne_true
  | case2 p hchar =>
    have hp := lt_of_charAt hchar
    rw [walk, hchar]
    exact iff_of_true rfl ⟨by simpa using Nat.lt_succ_iff.mp hp, p, rfl, hchar⟩
  | case3 p hchar h0 ih =>
    rw [walk, hchar]
    simp only [if_neg h0, if_true]
    exact after_decoded (by simp) ih
  | case4 p hfirst hchar h0 hplus =>
    rw [walk, hchar]
    simp only [if_neg h0, if_neg hplus, if_true, hfirst]
    refine iff_of_false Bool.false_ne_true fun hstays => ?_
    exact absurd (hstays.inside (p + 1) (by simp)) (Nat.not_le.mpr (outside_of_charAt hfirst))
  | case5 p a hfirst hsecond hchar h0 hplus =>
    rw [walk, hchar]
    simp only [if_neg h0, if_neg hplus, if_true, hfirst, hsecond]
    refine iff_of_false Bool.false_ne_true fun hstays => ?_
    exact absurd (hstays.inside (p + 2) (by simp)) (Nat.not_le.mpr (outside_of_charAt hsecond))
  | case6 p a hfirst b hsecond hchar h0 hplus ih =>
    rw [walk, hchar]
    simp only [if_neg h0, if_neg hplus, if_true, hfirst, hsecond]
    exact after_decoded (by simp) ih
  | case7 p c hchar h0 hplus hpercent ih =>
    rw [walk, hchar]
    simp only [if_neg h0, if_neg hplus, if_neg hpercent]
    exact after_decoded (by simp) ih

end Wsrv.UrlCursor
