import Wsrv.XmlCursor

/-!
# Look-ahead

The operations of `ReadAheadStreamAdapter` on any bytes.  `pending` is what is
still to be read: a byte above 127 is a negative `int` when it comes from the
stream, and a positive one when it was put back or follows a carriage return.
`expect` takes a negative character for the end of the input and returns
without putting back what it has read, and so it does at the end; `skipWhite`
swallows such a character; and `next` gives nothing when the end of the stream
has been met, also when there are characters that were put back.
-/

namespace Wsrv.ReadAheadStreamAdapter

open Effect

/-! ## What is pending -/

/-- What `read` makes of the stream. -/
def pendingInput : Str → List Int
  | [] => []
  | c :: s =>
    if c = CR then
      match s with
      | [] => []
      | d :: s => (d.toNat : Int) :: pendingInput s
    else toChar c :: pendingInput s

def pending (s : ReadAheadStreamAdapter) : List Int :=
  s.readAhead.map (fun c => (c.toNat : Int)) ++ pendingInput s.input

/-- What every operation keeps: the array has room, and the end of the stream is met at its end. -/
structure Valid (s : ReadAheadStreamAdapter) : Prop where
  room : s.readAhead.length ≤ 8
  eof : s.eof = true → s.input = []
  fail : s.fail = true → s.eof = true

theorem Valid.start (doc : Str) : Valid { input := doc } :=
  ⟨Nat.zero_le 8, (fun he => nomatch he), fun hf => nomatch hf⟩

/-! ## One character -/

/-- What `read` and `next` see of an adapter. -/
structure Awaits (s : ReadAheadStreamAdapter) (p : List Int) (eof fail : Bool) : Prop where
  pending : s.pending = p
  eof : s.eof = eof
  fail : s.fail = fail

/-- A read either gives the first of the pending characters or meets the end. -/
theorem fetch_awaits {s : ReadAheadStreamAdapter} (h : Valid s) :
    (∃ c p, s.pending = c :: p ∧ (fetch s).1 = c ∧ Awaits (fetch s).2 p s.eof s.fail ∧
        Valid (fetch s).2 ∧ (fetch s).2.readAhead.length = s.readAhead.length - 1) ∨
      (s.pending = [] ∧ (fetch s).1 = -1 ∧ Awaits (fetch s).2 [] true true ∧ Valid (fetch s).2) := by
  rcases s with ⟨input, eof, fail, line, column, readAhead⟩
  cases readAhead with
  | cons c readAhead =>
    have hroom : readAhead.length ≤ 8 := Nat.le_of_succ_le h.room
    exact .inl ⟨_, _, rfl, rfl, ⟨rfl, rfl, rfl⟩, ⟨hroom, h.eof, h.fail⟩, rfl⟩
  | nil =>
    cases input with
    | nil => exact .inr ⟨rfl, rfl, ⟨rfl, rfl, rfl⟩, ⟨Nat.zero_le 8, fun _ => rfl, fun _ => rfl⟩⟩
    | cons c input =>
      have hopen : eof = false := Bool.eq_false_iff.mpr fun he => nomatch h.eof he
      have hfail : fail = false := Bool.eq_false_iff.mpr fun hf => nomatch hopen ▸ h.fail hf
      subst hopen hfail
      by_cases hc : c = CR
      · subst hc
        cases input with
        | nil => exact .inr ⟨rfl, rfl, ⟨rfl, rfl, rfl⟩, ⟨Nat.zero_le 8, fun _ => rfl, fun _ => rfl⟩⟩
        | cons d input =>
          refine .inl ⟨(d.toNat : Int), pendingInput input, ?_, rfl, ⟨rfl, rfl, rfl⟩,
            ⟨Nat.zero_le 8, (fun he => nomatch he), (fun hf => nomatch hf)⟩, rfl⟩
          rw [pending, pendingInput.eq_def]
          rfl
      · have hfetch : fetch ⟨c :: input, false, false, line, column, []⟩ =
            (toChar c, ⟨input, false, false, line, column, []⟩) := if_neg hc
        rw [hfetch]
        refine .inl ⟨toChar c, pendingInput input, ?_, rfl, ⟨rfl, rfl, rfl⟩,
          ⟨Nat.zero_le 8, (fun he => nomatch he), (fun hf => nomatch hf)⟩, rfl⟩
        rw [pending, pendingInput.eq_def]
        simp only [if_neg hc]
        rfl

theorem read_cases {s : ReadAheadStreamAdapter} (h : Valid s) :
    (∃ c p s', s.pending = c :: p ∧ read s = (.ok c, s') ∧ Awaits s' p s.eof s.fail ∧ Valid s' ∧
        s'.readAhead.length = s.readAhead.length - 1) ∨
      ∃ s', s.pending = [] ∧ read s = (.ok (-1), s') ∧ Awaits s' [] true true ∧ Valid s' := by
  have hrun : read s = (.ok (fetch s).1,
      if (fetch s).1 = '\n'.toNat then { (fetch s).2 with line := (fetch s).2.line + 1, column := 1 }
      else { (fetch s).2 with column := (fetch s).2.column + 1 }) := rfl
  rcases fetch_awaits h with ⟨c, p, hpending, hchar, hsees, hvalid, hroom⟩ |
    ⟨hpending, hchar, hsees, hvalid⟩
  · refine .inl ⟨c, p, _, hpending, by rw [hrun, hchar], ?_⟩
    split
    · exact ⟨⟨hsees.pending, hsees.eof, hsees.fail⟩, ⟨hvalid.room, hvalid.eof, hvalid.fail⟩, hroom⟩
    · exact ⟨⟨hsees.pending, hsees.eof, hsees.fail⟩, ⟨hvalid.room, hvalid.eof, hvalid.fail⟩, hroom⟩
  · refine .inr ⟨_, hpending, by rw [hrun, hchar], ?_⟩
    split
    · exact ⟨⟨hsees.pending, hsees.eof, hsees.fail⟩, ⟨hvalid.room, hvalid.eof, hvalid.fail⟩⟩
    · exact ⟨⟨hsees.pending, hsees.eof, hsees.fail⟩, ⟨hvalid.room, hvalid.eof, hvalid.fail⟩⟩

theorem toChar_lt (c : UInt8) : toChar c < 256 := by
  have hc := c.toNat_lt
  unfold toChar
  split <;> omega

theorem toChar_neg_iff {c : UInt8} : toChar c < 0 ↔ ¬ c < 128 := by
  have hc := c.toNat_lt
  unfold toChar
  split
  · next hlt => exact ⟨fun h => absurd h (by omega), fun h => absurd hlt h⟩
  · next hge => exact ⟨fun _ => hge, fun _ => by omega⟩

theorem pending_lt (s : ReadAheadStreamAdapter) : ∀ c ∈ s.pending, c < 256 := by
  have hbyte : ∀ c : UInt8, (c.toNat : Int) < 256 := fun c => Int.ofNat_lt.mpr c.toNat_lt
  have hinput : ∀ r, ∀ c ∈ pendingInput r, c < 256 := by
    intro r
    induction r using pendingInput.induct with
    | case1 => exact fun c hc => nomatch hc
    | case2 => exact fun c hc => nomatch hc
    | case3 d r ih =>
      rw [pendingInput, if_pos rfl, List.forall_mem_cons]
      exact ⟨hbyte d, ih⟩
    | case4 c r hc ih =>
      rw [pendingInput.eq_def]
      simp only [if_neg hc, List.forall_mem_cons]
      exact ⟨toChar_lt c, ih⟩
  intro c hc
  rcases List.mem_append.mp hc with hc | hc
  · obtain ⟨d, -, rfl⟩ := List.mem_map.mp hc
    exact hbyte d
  · exact hinput _ c hc

theorem toNat_toByte {c : Int} (h : 0 ≤ c) (h' : c < 256) : ((toByte c).toNat : Int) = c := by
  rw [toByte, UInt8.toNat_ofNat']
  omega

theorem putback_cases {s : ReadAheadStreamAdapter} (h : Valid s) (c : UInt8) :
    (8 ≤ s.readAhead.length ∧ putback c s = (.error .undefined, s)) ∨
      ∃ s', putback c s = (.ok (), s') ∧ Awaits s' ((c.toNat : Int) :: s.pending) s.eof s.fail ∧
        Valid s' ∧ s'.readAhead.length = s.readAhead.length + 1 := by
  unfold putback
  rw [bind_ok (get_run s)]
  by_cases hroom : 8 ≤ s.readAhead.length
  · exact .inl ⟨hroom, bind_error (by rw [throwIf_run, if_pos hroom])⟩
  · rw [bind_ok (by rw [throwIf_run, if_neg hroom])]
    refine .inr ⟨_, rfl, ?_⟩
    have hlength : s.readAhead.length + 1 ≤ 8 := by omega
    split
    · exact ⟨⟨rfl, rfl, rfl⟩, ⟨hlength, h.eof, h.fail⟩, rfl⟩
    · exact ⟨⟨rfl, rfl, rfl⟩, ⟨hlength, h.eof, h.fail⟩, rfl⟩

/-- Characters are put back as long as there is room. -/
theorem putbackAll_cases (buf : Str) {s : ReadAheadStreamAdapter} (h : Valid s) :
    (8 < s.readAhead.length + buf.length ∧ ∃ s', putbackAll buf s = (.error .undefined, s')) ∨
      (s.readAhead.length + buf.length ≤ 8 ∧
        ∃ s', putbackAll buf s = (.ok (), s') ∧ Valid s' ∧
          Awaits s' (buf.reverse.map (fun c => (c.toNat : Int)) ++ s.pending) s.eof s.fail) := by
  induction buf generalizing s with
  | nil => exact .inr ⟨h.room, s, rfl, h, ⟨rfl, rfl, rfl⟩⟩
  | cons c buf ih =>
    rw [List.length_cons, putbackAll]
    rcases putback_cases h c with ⟨hfull, hrun⟩ | ⟨s₁, hrun, hsees, hvalid, hlength⟩
    · exact .inl ⟨by omega, s, bind_error hrun⟩
    · rw [bind_ok hrun, List.reverse_cons, List.map_append, List.append_assoc]
      have hrest := ih hvalid
      rw [hlength, hsees.pending, hsees.eof, hsees.fail] at hrest
      rcases hrest with ⟨hfull, hrest⟩ | ⟨hfits, hrest⟩
      · exact .inl ⟨by omega, hrest⟩
      · exact .inr ⟨by omega, hrest⟩

/-! ## `expect` -/

/-- Where the comparison of the pending characters with a literal ends. -/
inductive Comparison
  | found | ended | negative | differs

def compare : List Int → Str → Comparison
  | _, [] => .found
  | [], _ :: _ => .ended
  | c :: p, x :: seq => if c < 0 then .negative else if toChar x ≠ c then .differs else compare p seq

/-- The number of characters in front of that place. -/
def agreeing : List Int → Str → Nat
  | c :: p, x :: seq => if c < 0 ∨ toChar x ≠ c then 0 else agreeing p seq + 1
  | _, _ => 0

theorem agreeing_le (p : List Int) (seq : Str) : agreeing p seq ≤ seq.length := by
  induction seq generalizing p with
  | nil => cases p <;> exact le_rfl
  | cons x seq ih =>
    cases p with
    | nil => exact Nat.zero_le _
    | cons c p =>
      rw [agreeing]
      split
      · exact Nat.zero_le _
      · exact Nat.succ_le_succ (ih p)

theorem agreeing_found {p : List Int} {seq : Str} (h : compare p seq = .found) :
    agreeing p seq = seq.length := by
  induction seq generalizing p with
  | nil => cases p <;> rfl
  | cons x seq ih =>
    cases p with
    | nil => cases h
    | cons c p =>
      rw [compare] at h
      split at h
      · cases h
      · next hneg =>
        split at h
        · cases h
        · next heq =>
          rw [agreeing, if_neg (not_or.mpr ⟨hneg, heq⟩), ih h, List.length_cons]

/-- The characters that agree do not fit into the buffer. -/
theorem expectLoop_full (seq buf : Str) {s : ReadAheadStreamAdapter} (h : Valid s)
    (hbuf : buf.length ≤ 256) (hfull : 256 < buf.length + agreeing s.pending seq) :
    ∃ s', expectLoop seq buf s = (.error .undefined, s') := by
  induction seq generalizing buf s with
  | nil =>
    have hnone := agreeing_le s.pending []
    rw [List.length_nil] at hnone
    omega
  | cons x seq ih =>
    rw [expectLoop]
    rcases read_cases h with ⟨c, p, s₁, hpending, hread, hsees, hvalid, -⟩ |
      ⟨s₁, hpending, -⟩
    · rw [hpending, agreeing] at hfull
      split at hfull
      · omega
      · next hagree =>
        obtain ⟨hneg, heq⟩ := not_or.mp hagree
        rw [bind_ok hread, if_neg hneg]
        by_cases hlast : 256 ≤ buf.length
        · rw [if_pos hlast]
          exact ⟨s₁, rfl⟩
        · rw [if_neg hlast, if_neg heq]
          refine ih (toByte c :: buf) hvalid ?_ ?_
          · rw [List.length_cons]
            omega
          · rw [hsees.pending, List.length_cons]
            omega
    · rw [hpending] at hfull
      have hnone : agreeing [] (x :: seq) = 0 := rfl
      omega

theorem expectLoop_spec (seq buf : Str) {s : ReadAheadStreamAdapter} (h : Valid s)
    (hroom : s.readAhead.length + buf.length ≤ max 8 buf.length)
    (hfits : buf.length + agreeing s.pending seq ≤ 256) :
    match compare s.pending seq with
    | .found =>
      ∃ s', expectLoop seq buf s = (.ok true, s') ∧
        Awaits s' (s.pending.drop seq.length) s.eof s.fail ∧ seq.map toChar <+: s.pending
    | .ended => ∃ s', expectLoop seq buf s = (.ok false, s') ∧ Awaits s' [] true true ∧ Valid s'
    | .negative =>
      ∃ s', expectLoop seq buf s = (.ok false, s') ∧
        Awaits s' (s.pending.drop (agreeing s.pending seq + 1)) s.eof s.fail ∧ Valid s'
    | .differs =>
      if buf.length + agreeing s.pending seq < 8 then
        ∃ s', expectLoop seq buf s = (.ok false, s') ∧
          Awaits s' (buf.reverse.map (fun c => (c.toNat : Int)) ++ s.pending) s.eof s.fail ∧ Valid s'
      else ∃ s', expectLoop seq buf s = (.error .undefined, s') := by
  induction seq generalizing buf s with
  | nil =>
    rw [compare]
    exact ⟨s, rfl, ⟨rfl, rfl, rfl⟩, List.nil_prefix⟩
  | cons x seq ih =>
    rw [expectLoop]
    rcases read_cases h with ⟨c, p, s₁, hpending, hread, hsees, hvalid, hlength⟩ |
      ⟨s₁, hpending, hread, hsees, hvalid⟩
    · rw [hpending, bind_ok hread]
      have hlt : c < 256 := pending_lt s c (hpending ▸ List.mem_cons_self)
      by_cases hneg : c < 0
      · have hagree : agreeing (c :: p) (x :: seq) = 0 := if_pos (Or.inl hneg)
        rw [compare, if_pos hneg, hagree, if_pos hneg]
        exact ⟨s₁, rfl, hsees, hvalid⟩
      · rw [compare, if_neg hneg, if_neg hneg]
        by_cases hne : toChar x ≠ c
        · -- A mismatch puts back what was read.
          have hagree : agreeing (c :: p) (x :: seq) = 0 := if_pos (Or.inr hne)
          rw [if_pos hne, hagree, if_pos hne, Nat.add_zero]
          have hbyte := toNat_toByte (Int.not_lt.mp hneg) hlt
          by_cases hlast : 256 ≤ buf.length
          · rw [if_pos hlast, if_neg (by omega)]
            exact ⟨s₁, rfl⟩
          rw [if_neg hlast]
          rcases putbackAll_cases (toByte c :: buf) hvalid with ⟨hfull, s₂, hrun⟩ |
            ⟨hfits, s₂, hrun, hvalid₂, hsees₂⟩
          · rw [List.length_cons] at hfull
            rw [if_neg (by omega)]
            exact ⟨s₂, bind_error hrun⟩
          · rw [List.length_cons] at hfits
            rw [if_pos (by omega)]
            refine ⟨s₂, bind_ok hrun, ?_, hvalid₂⟩
            rw [hsees.pending, hsees.eof, hsees.fail, List.reverse_cons, List.map_append,
              List.append_assoc] at hsees₂
            rwa [List.map_singleton, hbyte] at hsees₂
        · have hagree : agreeing (c :: p) (x :: seq) = agreeing p seq + 1 := if_neg (by tauto)
          rw [hpending, hagree] at hfits
          rw [if_neg hne, hagree, if_neg (show ¬ 256 ≤ buf.length by omega), if_neg hne]
          have hbyte := toNat_toByte (Int.not_lt.mp hneg) hlt
          have hrest := ih (toByte c :: buf) hvalid (by rw [List.length_cons, hlength]; omega)
            (by rw [hsees.pending, List.length_cons]; omega)
          rw [hsees.pending, hsees.eof, hsees.fail, List.length_cons] at hrest
          cases hcompare : compare p seq with
          | found =>
            rw [hcompare] at hrest
            obtain ⟨s', hrun, hsees', hfound⟩ := hrest
            refine ⟨s', hrun, hsees', ?_⟩
            rw [List.map_cons, not_not.mp hne]
            exact List.cons_prefix_cons.mpr ⟨rfl, hfound⟩
          | ended =>
            rw [hcompare] at hrest
            exact hrest
          | negative =>
            rw [hcompare] at hrest
            exact hrest
          | differs =>
            rw [hcompare] at hrest
            simp only [List.reverse_cons, List.map_append, List.append_assoc, List.map_singleton,
              hbyte] at hrest
            rwa [Nat.add_right_comm] at hrest
    · rw [hpending, bind_ok hread]
      exact ⟨s₁, rfl, hsees, hvalid⟩

/-! ### The literal and the characters -/

theorem compare_found_iff {p : List Int} {seq : Str} :
    compare p seq = .found ↔ Ascii seq ∧ seq.map toChar <+: p := by
  induction seq generalizing p with
  | nil => exact ⟨fun _ => ⟨(fun _ h => nomatch h), List.nil_prefix⟩, fun _ => by rw [compare]⟩
  | cons x seq ih =>
    cases p with
    | nil => exact ⟨(fun h => nomatch h), (fun h => nomatch List.prefix_nil.mp h.2)⟩
    | cons c p =>
      rw [compare, List.map_cons, List.cons_prefix_cons, Ascii, List.forall_mem_cons]
      split
      · next hneg =>
        refine ⟨(fun h => nomatch h), fun h => ?_⟩
        rw [← h.2.1, toChar_neg_iff] at hneg
        exact absurd h.1.1 hneg
      · next hpos =>
        split
        · next hne => exact ⟨(fun h => nomatch h), fun h => absurd h.2.1 hne⟩
        · next heq =>
          rw [not_not] at heq
          rw [ih, Ascii]
          rw [← heq, toChar_neg_iff, not_not] at hpos
          exact ⟨fun h => ⟨⟨hpos, h.1⟩, heq, h.2⟩, fun h => ⟨h.1.2, h.2.2⟩⟩

/-- The first character that is not the one of the literal. -/
structure Differs (p : List Int) (seq common : Str) (c : Int) : Prop where
  rest : ∃ x tail, seq = common ++ x :: tail ∧ toChar x ≠ c
  pending : ∃ p', p = common.map toChar ++ c :: p'
  ascii : Ascii common
  pos : 0 ≤ c

theorem Differs.compare_eq {p : List Int} {seq common : Str} {c : Int} (h : Differs p seq common c) :
    compare p seq = .differs ∧ agreeing p seq = common.length := by
  obtain ⟨⟨x, tail, rfl, hne⟩, ⟨p', rfl⟩, hascii, hpos⟩ := h
  induction common with
  | nil =>
    rw [List.nil_append, List.map_nil, List.nil_append, compare, if_neg (Int.not_lt.mpr hpos), if_pos hne]
    exact ⟨rfl, if_pos (Or.inr hne)⟩
  | cons d common ih =>
    rw [Ascii, List.forall_mem_cons] at hascii
    have hd : ¬ toChar d < 0 := by
      rw [toChar_ascii hascii.1]
      omega
    rw [List.cons_append, List.map_cons, List.cons_append, compare, if_neg hd, if_neg (by simp)]
    have hagree : agreeing (toChar d :: (common.map toChar ++ c :: p')) (d :: (common ++ x :: tail)) =
        agreeing (common.map toChar ++ c :: p') (common ++ x :: tail) + 1 :=
      if_neg (not_or.mpr ⟨hd, not_not.mpr rfl⟩)
    rw [hagree, List.length_cons, (ih hascii.2).2]
    exact ⟨(ih hascii.2).1, rfl⟩

theorem compare_differs {p : List Int} {seq : Str} (h : compare p seq = .differs) :
    ∃ common c, Differs p seq common c := by
  induction seq generalizing p with
  | nil =>
    rw [compare] at h
    exact nomatch h
  | cons x seq ih =>
    cases p with
    | nil => exact nomatch h
    | cons c p =>
      rw [compare] at h
      split at h
      · exact nomatch h
      · next hpos =>
        split at h
        · next hne => exact ⟨[], c, ⟨x, seq, rfl, hne⟩, ⟨p, rfl⟩, (fun _ h => nomatch h), Int.not_lt.mp hpos⟩
        · next heq =>
          rw [not_not] at heq
          obtain ⟨common, d, ⟨y, tail, rfl, hne⟩, ⟨p', rfl⟩, hascii, hd⟩ := ih h
          rw [← heq, toChar_neg_iff, not_not] at hpos
          refine ⟨x :: common, d, ⟨y, tail, rfl, hne⟩, ⟨p', by rw [← heq]; rfl⟩, ?_, hd⟩
          rw [Ascii, List.forall_mem_cons]
          exact ⟨hpos, hascii⟩

/-! ## `skipWhite` and `next` -/

theorem length_pending_lt_size (s : ReadAheadStreamAdapter) : s.pending.length < s.size := by
  have hinput : ∀ r, (pendingInput r).length ≤ r.length := by
    intro r
    induction r using pendingInput.induct with
    | case1 => exact le_rfl
    | case2 => exact Nat.zero_le _
    | case3 d r ih =>
      rw [pendingInput, if_pos rfl, List.length_cons, List.length_cons, List.length_cons]
      omega
    | case4 c r hc ih =>
      rw [pendingInput.eq_def]
      simp only [if_neg hc, List.length_cons]
      omega
  have hlength := hinput s.input
  rw [pending, List.length_append, List.length_map, size]
  omega

/-- The character behind the white space, which is swallowed when it is negative. -/
theorem skipWhiteLoop_spec (n : Nat) {s : ReadAheadStreamAdapter} (h : Valid s)
    (hn : s.pending.length < n) (hfail : s.fail = false) :
    ∃ s', skipWhiteLoop n s = (.ok (), s') ∧
      match s.pending.dropWhile isWhite with
      | [] => Awaits s' [] true true
      | c :: p => Awaits s' (if c < 0 then p else c :: p) s.eof false := by
  induction n generalizing s with
  | zero => exact absurd hn (Nat.not_lt_zero _)
  | succ n ih =>
    rw [skipWhiteLoop]
    rcases read_cases h with ⟨c, p, s₁, hpending, hread, hsees, hvalid, hlength⟩ |
      ⟨s₁, hpending, hread, hsees, -⟩
    · rw [hpending, bind_ok hread]
      rw [hpending, List.length_cons] at hn
      have hfail₁ : s₁.fail = false := hsees.fail.trans hfail
      by_cases hneg : c < 0
      · have hblack : isWhite c = false := by
          rw [isWhite]
          simp only [Bool.or_eq_false_iff, beq_eq_false_iff_ne]
          refine ⟨⟨⟨?_, ?_⟩, ?_⟩, ?_⟩ <;> (rintro rfl; exact absurd hneg (by decide))
        rw [if_pos hneg, List.dropWhile_cons_of_neg (by rw [hblack]; exact Bool.false_ne_true)]
        simp only [if_pos hneg]
        exact ⟨s₁, rfl, hsees.pending, hsees.eof, hfail₁⟩
      · rw [if_neg hneg, bind_ok (get_run s₁), hfail₁, Bool.not_false, Bool.true_and]
        by_cases hwhite : isWhite c = true
        · rw [if_pos hwhite, List.dropWhile_cons_of_pos hwhite]
          have hrest := ih hvalid (by rw [hsees.pending]; omega) hfail₁
          rwa [hsees.pending, hsees.eof] at hrest
        · rw [if_neg hwhite, List.dropWhile_cons_of_neg hwhite]
          simp only [if_neg hneg]
          rcases putback_cases hvalid (toByte c) with ⟨hfull, -⟩ | ⟨s₂, hrun, hsees₂, -, -⟩
          · have hroom := h.room
            omega
          · refine ⟨s₂, hrun, ?_, hsees₂.eof.trans hsees.eof, hsees₂.fail.trans hfail₁⟩
            rw [hsees₂.pending, hsees.pending, toNat_toByte (Int.not_lt.mp hneg)
              (pending_lt s c (hpending ▸ List.mem_cons_self))]
    · rw [hpending, bind_ok hread]
      exact ⟨s₁, rfl, hsees⟩

/-- Once a read has failed no character counts as white. -/
theorem skipWhite_failed {s : ReadAheadStreamAdapter} (h : Valid s) (hfail : s.fail = true) :
    ∃ s', skipWhite s = (.ok (), s') ∧ s'.pending = s.pending := by
  have hinput := h.eof (h.fail hfail)
  have hrun : skipWhite s = skipWhiteLoop (s.readAhead.length + 1 + 1) s := by
    rw [skipWhite, sized, bind_ok (get_run s), size, hinput]
    rfl
  rw [hrun, skipWhiteLoop]
  rcases read_cases h with ⟨c, p, s₁, hpending, hread, hsees, hvalid, hlength⟩ |
    ⟨s₁, hpending, hread, hsees, -⟩
  · have hpos : ¬ c < 0 := by
      have hmem : c ∈ s.pending := hpending ▸ List.mem_cons_self
      rw [pending, hinput, pendingInput, List.append_nil] at hmem
      obtain ⟨d, -, rfl⟩ := List.mem_map.mp hmem
      omega
    rw [bind_ok hread, if_neg hpos, bind_ok (get_run s₁), hsees.fail, hfail, Bool.not_true,
      Bool.false_and, if_neg Bool.false_ne_true]
    rcases putback_cases hvalid (toByte c) with ⟨hfull, -⟩ | ⟨s₂, hrun, hsees₂, -, -⟩
    · have hroom := h.room
      omega
    · refine ⟨s₂, hrun, ?_⟩
      rw [hsees₂.pending, hsees.pending, hpending, toNat_toByte (Int.not_lt.mp hpos)
        (pending_lt s c (hpending ▸ List.mem_cons_self))]
  · rw [bind_ok hread]
    exact ⟨s₁, rfl, hsees.pending.trans hpending.symm⟩

theorem skipWhite_spec {s : ReadAheadStreamAdapter} (h : Valid s) (hfail : s.fail = false) :
    ∃ s', skipWhite s = (.ok (), s') ∧
      match s.pending.dropWhile isWhite with
      | [] => Awaits s' [] true true
      | c :: p => Awaits s' (if c < 0 then p else c :: p) s.eof false := by
  have hrun : skipWhite s = skipWhiteLoop s.size s := bind_ok (get_run s)
  rw [hrun]
  exact skipWhiteLoop_spec s.size h (length_pending_lt_size s) hfail

/-- At the end of the stream `next` gives a character once. -/
theorem next_cases {s : ReadAheadStreamAdapter} (h : Valid s) :
    (s.eof = true ∧ next s = (.ok none, s)) ∨
      s.eof = false ∧ ∃ c s', next s = (.ok (some (toByte c)), s') ∧ Valid s' ∧
        ((∃ p, s.pending = c :: p ∧ Awaits s' p false s.fail) ∨
          (s.pending = [] ∧ c = -1 ∧ Awaits s' [] true true)) := by
  unfold next
  rw [bind_ok (get_run s)]
  cases heof : s.eof with
  | true => exact .inl ⟨rfl, rfl⟩
  | false =>
    refine .inr ⟨rfl, ?_⟩
    rw [if_neg Bool.false_ne_true]
    rcases read_cases h with ⟨c, p, s₁, hpending, hread, hsees, hvalid, -⟩ |
      ⟨s₁, hpending, hread, hsees, hvalid⟩
    · exact ⟨c, s₁, bind_ok hread, hvalid, .inl ⟨p, hpending, heof ▸ hsees⟩⟩
    · exact ⟨-1, s₁, bind_ok hread, hvalid, .inr ⟨hpending, rfl, hsees⟩⟩

/-! ## What is delivered -/

/-- What calls of `read` and of `next`, in any order, deliver. -/
def observe : List Bool → Cursor (List (Int ⊕ Option UInt8))
  | [] => return []
  | true :: calls => do
    let c ← next
    let rest ← observe calls
    return .inr c :: rest
  | false :: calls => do
    let c ← read
    let rest ← observe calls
    return .inl c :: rest

def Unchanged (s s' : ReadAheadStreamAdapter) : Prop :=
  ∀ calls, (observe calls s).1 = (observe calls s').1

theorem observe_next {s s₁ : ReadAheadStreamAdapter} {c : Option UInt8} (h : next s = (.ok c, s₁))
    (calls : List Bool) :
    (observe (true :: calls) s).1 = (observe calls s₁).1.map (List.cons (.inr c)) := by
  rw [observe, bind_ok h]
  rcases hrest : observe calls s₁ with ⟨_ | rest, s₂⟩
  · rw [bind_error hrest]
    rfl
  · rw [bind_ok hrest]
    rfl

theorem observe_read {s s₁ : ReadAheadStreamAdapter} {c : Int} (h : read s = (.ok c, s₁))
    (calls : List Bool) :
    (observe (false :: calls) s).1 = (observe calls s₁).1.map (List.cons (.inl c)) := by
  rw [observe, bind_ok h]
  rcases hrest : observe calls s₁ with ⟨_ | rest, s₂⟩
  · rw [bind_error hrest]
    rfl
  · rw [bind_ok hrest]
    rfl

theorem map_cons_inj {α ε : Type} {a b : α} {x y : Except ε (List α)}
    (h : x.map (List.cons a) = y.map (List.cons b)) : x = y := by
  rcases x with e | l <;> rcases y with e' | l'
  · exact congrArg _ (Except.error.inj h)
  · exact nomatch h
  · exact nomatch h
  · exact congrArg _ (List.cons.inj (Except.ok.inj h)).2

/-- The pending characters and the flag say what is delivered. -/
theorem Unchanged.of_pending {s s' : ReadAheadStreamAdapter} (h : Valid s) (h' : Valid s')
    (hpending : s.pending = s'.pending) (heof : s.eof = s'.eof) : Unchanged s s' := by
  intro calls
  induction calls generalizing s s' with
  | nil => rfl
  | cons call calls ih =>
    cases call with
    | true =>
      rcases next_cases h with ⟨he, hrun⟩ | ⟨he, c, s₁, hrun, hv, hgives⟩ <;>
        rcases next_cases h' with ⟨he', hrun'⟩ | ⟨he', c', s₁', hrun', hv', hgives'⟩
      · rw [observe_next hrun, observe_next hrun', ih h h' hpending heof]
      · exact nomatch he.symm.trans (heof.trans he')
      · exact nomatch he'.symm.trans (heof.symm.trans he)
      · have hsame : c = c' ∧ s₁.pending = s₁'.pending ∧ s₁.eof = s₁'.eof := by
          rcases hgives with ⟨p, hp, hsees⟩ | ⟨hp, rfl, hsees⟩ <;>
            rcases hgives' with ⟨p', hp', hsees'⟩ | ⟨hp', rfl, hsees'⟩
          · obtain ⟨rfl, rfl⟩ := List.cons.inj (hp.symm.trans (hpending.trans hp'))
            exact ⟨rfl, hsees.pending.trans hsees'.pending.symm, hsees.eof.trans hsees'.eof.symm⟩
          · exact nomatch hp.symm.trans (hpending.trans hp')
          · exact nomatch hp.symm.trans (hpending.trans hp')
          · exact ⟨rfl, hsees.pending.trans hsees'.pending.symm, hsees.eof.trans hsees'.eof.symm⟩
        rw [observe_next hrun, observe_next hrun', ih hv hv' hsame.2.1 hsame.2.2, hsame.1]
    | false =>
      rcases read_cases h with ⟨c, p, s₁, hp, hrun, hsees, hv, -⟩ | ⟨s₁, hp, hrun, hsees, hv⟩ <;>
        rcases read_cases h' with ⟨c', p', s₁', hp', hrun', hsees', hv', -⟩ |
          ⟨s₁', hp', hrun', hsees', hv'⟩
      · obtain ⟨rfl, rfl⟩ := List.cons.inj (hp.symm.trans (hpending.trans hp'))
        rw [observe_read hrun, observe_read hrun', ih hv hv' (hsees.pending.trans hsees'.pending.symm)
          (hsees.eof.trans (heof.trans hsees'.eof.symm))]
      · exact nomatch hp.symm.trans (hpending.trans hp')
      · exact nomatch hp.symm.trans (hpending.trans hp')
      · rw [observe_read hrun, observe_read hrun', ih hv hv' (hsees.pending.trans hsees'.pending.symm)
          (hsees.eof.trans hsees'.eof.symm)]

/-- One call of `next` tells whether the end has been met. -/
theorem Unchanged.eof {s s' : ReadAheadStreamAdapter} (hu : Unchanged s s') (h : Valid s)
    (h' : Valid s') : s.eof = s'.eof := by
  have hone := hu [true]
  rcases next_cases h with ⟨he, hrun⟩ | ⟨he, c, s₁, hrun, -, -⟩ <;>
    rcases next_cases h' with ⟨he', hrun'⟩ | ⟨he', c', s₁', hrun', -, -⟩
  · rw [he, he']
  · rw [observe_next hrun, observe_next hrun'] at hone
    exact nomatch Sum.inr.inj (List.cons.inj (Except.ok.inj hone)).1
  · rw [observe_next hrun, observe_next hrun'] at hone
    exact nomatch Sum.inr.inj (List.cons.inj (Except.ok.inj hone)).1
  · rw [he, he']

/-- One call of `read` tells the first character. -/
theorem Unchanged.read {s s' s₁ s₁' : ReadAheadStreamAdapter} {c c' : Int} (hu : Unchanged s s')
    (hrun : read s = (.ok c, s₁)) (hrun' : read s' = (.ok c', s₁')) : c = c' := by
  have hone := hu [false]
  rw [observe_read hrun, observe_read hrun'] at hone
  exact Sum.inl.inj (List.cons.inj (Except.ok.inj hone)).1

/-- Calls of `next` tell the number of characters. -/
theorem Unchanged.length {s s' : ReadAheadStreamAdapter} (hu : Unchanged s s') (h : Valid s)
    (h' : Valid s') (heof : s.eof = false) : s.pending.length = s'.pending.length := by
  generalize hn : s.pending.length = n
  induction n generalizing s s' with
  | zero =>
    rcases next_cases h with ⟨he, -⟩ | ⟨-, c, s₁, hrun, hv, ⟨p, hp, -⟩ | ⟨hp, -, hsees⟩⟩
    · exact nomatch he.symm.trans heof
    · exact nomatch hp ▸ hn
    · rcases next_cases h' with ⟨he', -⟩ | ⟨-, c', s₁', hrun', hv', ⟨p', hp', hsees'⟩ | ⟨hp', -, -⟩⟩
      · exact nomatch he'.symm.trans ((hu.eof h h').symm.trans heof)
      · have hrest : Unchanged s₁ s₁' := fun calls => by
          have hcalls := hu (true :: calls)
          rw [observe_next hrun, observe_next hrun'] at hcalls
          exact map_cons_inj hcalls
        exact nomatch hsees.eof.symm.trans ((hrest.eof hv hv').trans hsees'.eof)
      · rw [hp']
        rfl
  | succ n ih =>
    rcases next_cases h with ⟨he, -⟩ | ⟨-, c, s₁, hrun, hv, ⟨p, hp, hsees⟩ | ⟨hp, -, -⟩⟩
    · exact nomatch he.symm.trans heof
    · rcases next_cases h' with ⟨he', -⟩ | ⟨-, c', s₁', hrun', hv', hgives'⟩
      · exact nomatch he'.symm.trans ((hu.eof h h').symm.trans heof)
      · have hrest : Unchanged s₁ s₁' := fun calls => by
          have hcalls := hu (true :: calls)
          rw [observe_next hrun, observe_next hrun'] at hcalls
          exact map_cons_inj hcalls
        rcases hgives' with ⟨p', hp', hsees'⟩ | ⟨-, -, hsees'⟩
        · have hlength := ih hrest hv hv' hsees.eof (by
            rw [hp] at hn
            rw [hsees.pending]
            exact Nat.succ.inj hn)
          rw [hp', List.length_cons, hlength, hsees'.pending]
        · exact nomatch hsees.eof.symm.trans ((hrest.eof hv hv').trans hsees'.eof)
    · exact nomatch hp ▸ hn

/-! ## What every operation keeps -/

/-- An operation leads from a valid adapter to a valid one. -/
def KeepsValid {α : Type} (x : Cursor α) : Prop := Triple Valid x (fun _ => Valid) fun _ _ => True

theorem read_valid : KeepsValid read := fun s h => by
  rcases read_cases h with ⟨c, p, s₁, -, hrun, -, hvalid, -⟩ | ⟨s₁, -, hrun, -, hvalid⟩ <;>
    exact ⟨fun a s' heq => (Prod.mk.inj (hrun.symm.trans heq)).2 ▸ hvalid, fun _ _ _ => trivial⟩

theorem next_valid : KeepsValid next := fun s h => by
  rcases next_cases h with ⟨-, hrun⟩ | ⟨-, c, s₁, hrun, hvalid, -⟩
  · exact ⟨fun a s' heq => (Prod.mk.inj (hrun.symm.trans heq)).2 ▸ h, fun _ _ _ => trivial⟩
  · exact ⟨fun a s' heq => (Prod.mk.inj (hrun.symm.trans heq)).2 ▸ hvalid, fun _ _ _ => trivial⟩

theorem putback_valid (c : UInt8) : KeepsValid (putback c) := fun s h => by
  rcases putback_cases h c with ⟨-, hrun⟩ | ⟨s₁, hrun, -, hvalid, -⟩
  · exact ⟨(fun a s' heq => nomatch (Prod.mk.inj (hrun.symm.trans heq)).1), fun _ _ _ => trivial⟩
  · exact ⟨fun a s' heq => (Prod.mk.inj (hrun.symm.trans heq)).2 ▸ hvalid, fun _ _ _ => trivial⟩

theorem expect_valid (seq : Str) : KeepsValid (expect seq) :=
  expect_keeps read_valid putback_valid (fun _ _ => trivial) seq

theorem skipWhite_valid : KeepsValid skipWhite :=
  skipWhite_keeps read_valid putback_valid fun _ _ => trivial

theorem peek_valid : KeepsValid peek := fun s h => by
  refine ⟨fun a s' heq => ?_, fun _ _ _ => trivial⟩
  rcases s with ⟨input, eof, fail, line, column, readAhead⟩
  rcases readAhead with _ | ⟨c, readAhead⟩
  · rcases input with _ | ⟨c, input⟩
    · obtain ⟨-, rfl⟩ := Prod.mk.inj heq
      exact ⟨h.room, fun _ => rfl, fun _ => rfl⟩
    · obtain ⟨-, rfl⟩ := Prod.mk.inj heq
      exact h
  · obtain ⟨-, rfl⟩ := Prod.mk.inj heq
    exact h

/-- What the parser calls. -/
inductive Operation
  | read | next | peek | skipWhite
  | putback (c : UInt8)
  | expect (seq : Str)

def Operation.run : Operation → Cursor Unit
  | .read => do let _ ← ReadAheadStreamAdapter.read
  | .next => do let _ ← ReadAheadStreamAdapter.next
  | .peek => do let _ ← ReadAheadStreamAdapter.peek
  | .skipWhite => ReadAheadStreamAdapter.skipWhite
  | .putback c => ReadAheadStreamAdapter.putback c
  | .expect seq => do let _ ← ReadAheadStreamAdapter.expect seq

theorem Operation.valid (op : Operation) : KeepsValid op.run := by
  have hdone {α : Type} {x : Cursor α} (hx : KeepsValid x) : KeepsValid (do let _ ← x) :=
    Triple.bind hx fun _ => Triple.pure fun _ h => h
  cases op with
  | read => exact hdone read_valid
  | next => exact hdone next_valid
  | peek => exact hdone peek_valid
  | skipWhite => exact skipWhite_valid
  | putback c => exact putback_valid c
  | expect seq => exact hdone (expect_valid seq)

/-- **Every adapter of a run is valid**, by induction on the operations. -/
theorem operations_valid (doc : Str) (ops : List Operation) {s : ReadAheadStreamAdapter}
    (h : ops.forM Operation.run { input := doc } = (.ok (), s)) : Valid s := by
  have hkeeps : KeepsValid (ops.forM Operation.run) := by
    clear h
    induction ops with
    | nil => exact Triple.pure fun _ hs => hs
    | cons op ops ih => exact Triple.bind op.valid fun _ => ih
  exact (hkeeps _ (Valid.start doc)).1 () s h

/-! ## Transparent look-ahead -/

/-- **Look-ahead is transparent.** -/
structure Transparent (seq : Str) (s : ReadAheadStreamAdapter) : Prop where
  expect :
    (∃ s', expect seq s = (.ok true, s') ∧ s.pending = seq.map toChar ++ s'.pending) ∨
      ∃ s', expect seq s = (.ok false, s') ∧ Unchanged s s'
  skipWhite : ∃ s', skipWhite s = (.ok (), s') ∧ s'.pending = s.pending.dropWhile isWhite
  next : (next s).1 = .ok none → s.pending = []

/-- The literal is there; or the first other character is not negative and one of the first eight;
or there is nothing more and the adapter knows it.  White space is followed by a character that is
not negative, and there is none once a read has failed.  Nothing was put back behind the end. -/
structure Clear (seq : Str) (s : ReadAheadStreamAdapter) : Prop where
  expect :
    (Ascii seq ∧ seq.length ≤ 256 ∧ seq.map toChar <+: s.pending) ∨
      (∃ common c, Differs s.pending seq common c ∧ common.length < 8) ∨
        (s.pending = [] ∧ s.eof = true)
  skipWhite : ∀ c ∈ (s.pending.dropWhile isWhite).head?, 0 ≤ c
  failed : s.fail = true → ∀ c ∈ s.pending.head?, isWhite c = false
  next : s.eof = true → s.pending = []

/-- A negative character is in the stream, whose end has not been met. -/
theorem eof_of_negative {s : ReadAheadStreamAdapter} (h : Valid s) {c : Int} (hc : c ∈ s.pending)
    (hneg : c < 0) : s.eof = false := by
  rw [Bool.eq_false_iff]
  intro heof
  rw [pending, h.eof heof, pendingInput, List.append_nil] at hc
  obtain ⟨d, -, rfl⟩ := List.mem_map.mp hc
  omega

theorem compare_negative {p : List Int} {seq : Str} (h : compare p seq = .negative) :
    agreeing p seq < p.length ∧ ∃ c ∈ p, c < 0 := by
  induction seq generalizing p with
  | nil =>
    rw [compare] at h
    exact nomatch h
  | cons x seq ih =>
    cases p with
    | nil => exact nomatch h
    | cons c p =>
      rw [compare] at h
      split at h
      · next hneg =>
        have hagree : agreeing (c :: p) (x :: seq) = 0 := if_pos (Or.inl hneg)
        rw [hagree]
        exact ⟨Nat.succ_pos _, c, List.mem_cons_self, hneg⟩
      · next hpos =>
        split at h
        · exact nomatch h
        · next heq =>
          have hagree : agreeing (c :: p) (x :: seq) = agreeing p seq + 1 :=
            if_neg (not_or.mpr ⟨hpos, heq⟩)
          obtain ⟨hlt, d, hd, hneg⟩ := ih h
          rw [hagree]
          exact ⟨Nat.succ_lt_succ hlt, d, List.mem_cons_of_mem c hd, hneg⟩

theorem expect_iff (seq : Str) {s : ReadAheadStreamAdapter} (h : Valid s) :
    ((∃ s', expect seq s = (.ok true, s') ∧ s.pending = seq.map toChar ++ s'.pending) ∨
        ∃ s', expect seq s = (.ok false, s') ∧ Unchanged s s') ↔
      (Ascii seq ∧ seq.length ≤ 256 ∧ seq.map toChar <+: s.pending) ∨
        (∃ common c, Differs s.pending seq common c ∧ common.length < 8) ∨
          (s.pending = [] ∧ s.eof = true) := by
  unfold expect
  by_cases hfits : 256 < agreeing s.pending seq
  · obtain ⟨s', hrun⟩ := expectLoop_full seq [] h (Nat.zero_le _) (by rwa [List.length_nil, Nat.zero_add])
    constructor
    · rintro (⟨s₂, hrun₂, -⟩ | ⟨s₂, hrun₂, -⟩) <;>
        exact nomatch (Prod.mk.inj (hrun.symm.trans hrun₂)).1
    · rintro (⟨-, hlength, -⟩ | ⟨common, c, hdiffers, hlt⟩ | ⟨hp, -⟩)
      · have hle := agreeing_le s.pending seq
        omega
      · have hcommon := hdiffers.compare_eq.2
        omega
      · have hnone : agreeing s.pending seq = 0 := by
          rw [hp]
          cases seq <;> rfl
        omega
  have hspec := expectLoop_spec seq [] h (by
    rw [List.length_nil]
    exact h.room.trans (le_max_left 8 0)) (by rw [List.length_nil, Nat.zero_add]; omega)
  cases hcompare : compare s.pending seq with
  | found =>
    rw [hcompare] at hspec
    obtain ⟨s', hrun, hsees, hfound⟩ := hspec
    obtain ⟨hascii, hfront⟩ := compare_found_iff.mp hcompare
    have hlength : seq.length ≤ 256 := by
      rw [← agreeing_found hcompare]
      omega
    refine ⟨fun _ => .inl ⟨hascii, hlength, hfront⟩, fun _ => .inl ⟨s', hrun, ?_⟩⟩
    obtain ⟨rest, hrest⟩ := hfound
    rw [hsees.pending, ← hrest, ← List.length_map toChar, List.drop_left]
  | ended =>
    rw [hcompare] at hspec
    obtain ⟨s', hrun, hsees, hvalid⟩ := hspec
    constructor
    · rintro (⟨s₂, hrun₂, -⟩ | ⟨s₂, hrun₂, hu⟩)
      · exact nomatch (Prod.mk.inj (hrun.symm.trans hrun₂)).1
      · obtain rfl := (Prod.mk.inj (hrun.symm.trans hrun₂)).2
        have heof := (hu.eof h hvalid).trans hsees.eof
        refine .inr (.inr ⟨?_, heof⟩)
        rcases read_cases h with ⟨c, p, s₁, hp, hread, -⟩ | ⟨s₁, hp, -⟩
        · rcases read_cases hvalid with ⟨c', p', s₁', hp', -⟩ | ⟨s₁', -, hread', -⟩
          · exact nomatch hp'.symm.trans hsees.pending
          · have hchar := hu.read hread hread'
            have hopen := eof_of_negative h (hp ▸ List.mem_cons_self) (by rw [hchar]; decide)
            exact nomatch heof.symm.trans hopen
        · exact hp
    · rintro (⟨hascii, -, hfront⟩ | ⟨common, c, hdiffers, -⟩ | ⟨hp, heof⟩)
      · exact nomatch hcompare.symm.trans (compare_found_iff.mpr ⟨hascii, hfront⟩)
      · exact nomatch hcompare.symm.trans hdiffers.compare_eq.1
      · exact .inr ⟨s', hrun, .of_pending h hvalid (hp.trans hsees.pending.symm)
          (heof.trans hsees.eof.symm)⟩
  | negative =>
    rw [hcompare] at hspec
    obtain ⟨s', hrun, hsees, hvalid⟩ := hspec
    obtain ⟨hlt, c, hc, hneg⟩ := compare_negative hcompare
    have heof := eof_of_negative h hc hneg
    constructor
    · rintro (⟨s₂, hrun₂, -⟩ | ⟨s₂, hrun₂, hu⟩)
      · exact nomatch (Prod.mk.inj (hrun.symm.trans hrun₂)).1
      · obtain rfl := (Prod.mk.inj (hrun.symm.trans hrun₂)).2
        have hlength := hu.length h hvalid heof
        rw [hsees.pending, List.length_drop] at hlength
        omega
    · rintro (⟨hascii, -, hfront⟩ | ⟨common, c, hdiffers, -⟩ | ⟨-, heof'⟩)
      · exact nomatch hcompare.symm.trans (compare_found_iff.mpr ⟨hascii, hfront⟩)
      · exact nomatch hcompare.symm.trans hdiffers.compare_eq.1
      · exact nomatch heof'.symm.trans heof
  | differs =>
    rw [hcompare] at hspec
    simp only [List.length_nil, Nat.zero_add] at hspec
    split at hspec
    · next hlt =>
      obtain ⟨s', hrun, hsees, hvalid⟩ := hspec
      obtain ⟨common, c, hdiffers⟩ := compare_differs hcompare
      exact ⟨fun _ => .inr (.inl ⟨common, c, hdiffers, hdiffers.compare_eq.2 ▸ hlt⟩),
        fun _ => .inr ⟨s', hrun, .of_pending h hvalid hsees.pending.symm hsees.eof.symm⟩⟩
    · next hge =>
      obtain ⟨s', hrun⟩ := hspec
      constructor
      · rintro (⟨s₂, hrun₂, -⟩ | ⟨s₂, hrun₂, -⟩) <;>
          exact nomatch (Prod.mk.inj (hrun.symm.trans hrun₂)).1
      · rintro (⟨hascii, -, hfront⟩ | ⟨common, c, hdiffers, hlt⟩ | ⟨hp, -⟩)
        · exact nomatch hcompare.symm.trans (compare_found_iff.mpr ⟨hascii, hfront⟩)
        · exact absurd (hdiffers.compare_eq.2 ▸ hlt) hge
        · rw [hp] at hcompare
          cases seq <;> exact nomatch hcompare

theorem skipWhite_iff {s : ReadAheadStreamAdapter} (h : Valid s) :
    (∃ s', skipWhite s = (.ok (), s') ∧ s'.pending = s.pending.dropWhile isWhite) ↔
      (∀ c ∈ (s.pending.dropWhile isWhite).head?, 0 ≤ c) ∧
        (s.fail = true → ∀ c ∈ s.pending.head?, isWhite c = false) := by
  cases hfail : s.fail with
  | true =>
    obtain ⟨s', hrun, hpending⟩ := skipWhite_failed h hfail
    have hpos : ∀ c ∈ s.pending, 0 ≤ c := fun c hc => by
      by_contra hneg
      exact nomatch (h.fail hfail).symm.trans (eof_of_negative h hc (Int.not_le.mp hneg))
    have hkept : (∃ s', skipWhite s = (.ok (), s') ∧ s'.pending = s.pending.dropWhile isWhite) ↔
        s.pending = s.pending.dropWhile isWhite := by
      constructor
      · rintro ⟨s₂, hrun₂, hdrop⟩
        obtain rfl := (Prod.mk.inj (hrun.symm.trans hrun₂)).2
        exact hpending.symm.trans hdrop
      · exact fun hdrop => ⟨s', hrun, hpending.trans hdrop⟩
    rw [hkept]
    cases hp : s.pending with
    | nil => exact ⟨fun _ => ⟨(fun _ hc => nomatch hc), fun _ _ hc => nomatch hc⟩, fun _ => rfl⟩
    | cons c p =>
      have hc : 0 ≤ c := hpos c (hp ▸ List.mem_cons_self)
      by_cases hwhite : isWhite c = true
      · constructor
        · intro hdrop
          have hlength := congrArg List.length hdrop
          rw [List.dropWhile_cons_of_pos hwhite, List.length_cons] at hlength
          have hle := (List.dropWhile_sublist isWhite (l := p)).length_le
          omega
        · exact fun hright => nomatch hwhite.symm.trans (hright.2 rfl c rfl)
      · rw [List.dropWhile_cons_of_neg hwhite]
        refine ⟨fun _ => ⟨fun d hd => ?_, fun _ d hd => ?_⟩, fun _ => rfl⟩
        · exact Option.some.inj hd ▸ hc
        · exact Option.some.inj hd ▸ Bool.eq_false_iff.mpr hwhite
  | false =>
    have hnever : (false = true → ∀ c ∈ s.pending.head?, isWhite c = false) := fun hf => nomatch hf
    rw [iff_true_intro hnever, and_true]
    obtain ⟨s', hrun, hsees⟩ := skipWhite_spec h hfail
    have hkept : (∃ s', skipWhite s = (.ok (), s') ∧ s'.pending = s.pending.dropWhile isWhite) ↔
        s'.pending = s.pending.dropWhile isWhite := by
      constructor
      · rintro ⟨s₂, hrun₂, hdrop⟩
        obtain rfl := (Prod.mk.inj (hrun.symm.trans hrun₂)).2
        exact hdrop
      · exact fun hdrop => ⟨s', hrun, hdrop⟩
    rw [hkept]
    cases hdrop : s.pending.dropWhile isWhite with
    | nil =>
      rw [hdrop] at hsees
      exact ⟨(fun _ _ hc => nomatch hc), fun _ => hsees.pending⟩
    | cons c p =>
      rw [hdrop] at hsees
      by_cases hneg : c < 0
      · have hrest := hsees.pending
        rw [if_pos hneg] at hrest
        rw [hrest]
        exact ⟨fun hsame => absurd hsame List.ne_cons_self,
          fun hpos => absurd hneg (Int.not_lt.mpr (hpos c rfl))⟩
      · have hrest := hsees.pending
        rw [if_neg hneg] at hrest
        exact ⟨fun _ d hd => Option.some.inj hd ▸ Int.not_lt.mp hneg, fun _ => hrest⟩

/-- The end of a document, in the middle of a literal: the character that fitted is lost. -/
theorem expect_at_end : ¬ Transparent (str "<?xml") { input := str "<" } := by
  intro h
  rcases (expect_iff (str "<?xml") (.start (str "<"))).mp h.expect with ⟨-, -, hfound⟩ | ⟨common, c, hdiffers, -⟩ | ⟨hp, -⟩
  · exact absurd hfound.length_le (by decide)
  · exact nomatch hdiffers.compare_eq.1
  · exact nomatch hp

/-- **Look-ahead is transparent** exactly where it is clear. -/
theorem lookAhead_iff (seq : Str) {s : ReadAheadStreamAdapter} (h : Valid s) :
    Transparent seq s ↔ Clear seq s := by
  have hnext : ((next s).1 = .ok none → s.pending = []) ↔ (s.eof = true → s.pending = []) := by
    rcases next_cases h with ⟨heof, hrun⟩ | ⟨heof, c, s', hrun, -⟩
    · rw [hrun, heof]
      exact ⟨fun hp _ => hp rfl, fun hp _ => hp rfl⟩
    · rw [hrun, heof]
      exact ⟨(fun _ hf => nomatch hf), fun _ hc => nomatch Except.ok.inj hc⟩
  constructor
  · intro ht
    obtain ⟨hwhite, hfailed⟩ := (skipWhite_iff h).mp ht.skipWhite
    exact ⟨(expect_iff seq h).mp ht.expect, hwhite, hfailed, hnext.mp ht.next⟩
  · intro hc
    exact ⟨(expect_iff seq h).mpr hc.expect, (skipWhite_iff h).mpr ⟨hc.skipWhite, hc.failed⟩,
      hnext.mpr hc.next⟩

/-- A literal that is not there, in front of other characters. -/
theorem transparent_mismatch : Transparent (str "<?xml") { input := str "<gpx>" } :=
  (lookAhead_iff (str "<?xml") (.start (str "<gpx>"))).mpr
    { expect := .inr (.inl ⟨str "<", 'g'.toNat, ⟨⟨'?'.toUInt8, str "xml", rfl, by decide⟩,
        ⟨pendingInput (str "px>"), by decide⟩, fun c hc => List.mem_singleton.mp hc ▸ (by decide : '<'.toUInt8 < 128),
        Int.natCast_nonneg _⟩, by decide⟩)
      skipWhite := fun c hc => by
        have hchar : toChar '<'.toUInt8 = c := Option.some.inj hc
        rw [← hchar]
        decide
      failed := fun hf => nomatch hf
      next := fun he => nomatch he }

end Wsrv.ReadAheadStreamAdapter
