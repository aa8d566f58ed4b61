import Wsrv.XmlCursor

/-!
# What the cursor sees

`seen` are the characters that `next` gives one after the other, of whatever
value.  `read` gives one of the upper half as a negative number when it comes
from the stream, so that `expect` takes it for the end: it returns without
putting anything back.  What it leaves is always an end of what there was
(`expect_sees`).
-/

namespace Wsrv.ReadAheadStreamAdapter

open Effect

/-- The characters that were put back, and those of the stream. -/
def seen (s : ReadAheadStreamAdapter) : Str := s.readAhead ++ uncarried s.input

/-- The characters `r` are still to be read, and the end has not been noticed. -/
structure Sees (s : ReadAheadStreamAdapter) (r : Str) : Prop where
  room : s.readAhead.length ≤ 8
  rest : s.seen = r
  eof : s.eof = false
  fail : s.fail = false

/-- The end has been noticed. -/
structure Over (s : ReadAheadStreamAdapter) : Prop where
  rest : s.seen = []
  eof : s.eof = true
  fail : s.fail = true

theorem Sees.not_over {s : ReadAheadStreamAdapter} {r : Str} (h : Sees s r) : ¬ Over s := fun ho => by
  have := h.eof.symm.trans ho.eof
  contradiction

theorem Sees.le_size {s : ReadAheadStreamAdapter} {r : Str} (h : Sees s r) :
    r.length + 2 ≤ s.size := by
  have hinput := length_uncarried_le s.input
  rw [← h.rest, seen, List.length_append, size]
  omega

/-! ## One character -/

theorem uncarried_eq_nil {s : Str} (h : uncarried s = []) : s = [] ∨ s = [CR] := by
  match s with
  | [] => exact .inl rfl
  | c :: s =>
    by_cases hc : c = CR
    · subst hc
      match s with
      | [] => exact .inr rfl
      | d :: s =>
        rw [uncarried_carriage] at h
        cases h
    · rw [uncarried_cons hc] at h
      cases h

theorem uncarried_eq_cons {s r : Str} {c : UInt8} (h : uncarried s = c :: r) :
    ∃ s', uncarried s' = r ∧ (s = c :: s' ∧ c ≠ CR ∨ s = CR :: c :: s') := by
  match s with
  | [] => cases h
  | d :: s =>
    by_cases hd : d = CR
    · subst hd
      match s with
      | [] => cases h
      | e :: s =>
        rw [uncarried_carriage] at h
        obtain ⟨rfl, hr⟩ := List.cons.inj h
        exact ⟨s, hr, .inr rfl⟩
    · rw [uncarried_cons hd] at h
      obtain ⟨rfl, hr⟩ := List.cons.inj h
      exact ⟨s, hr, .inl ⟨rfl, hd⟩⟩

/-- The first of the characters that are seen; from the stream it may be negative. -/
theorem fetch_sees {s : ReadAheadStreamAdapter} {c : UInt8} {r : Str} (h : Sees s (c :: r)) :
    ((fetch s).1 = c.toNat ∨ (fetch s).1 = toChar c) ∧ Sees (fetch s).2 r ∧
      (fetch s).2.readAhead.length ≤ s.readAhead.length - 1 := by
  obtain ⟨hroom, hrest, heof, hfail⟩ := h
  rcases s with ⟨input, eof, fail, line, column, readAhead⟩
  simp only [seen] at hroom hrest heof hfail
  cases readAhead with
  | cons d readAhead =>
    obtain ⟨rfl, hr⟩ := List.cons.inj hrest
    exact ⟨.inl rfl, ⟨(Nat.le_succ _).trans hroom, hr, heof, hfail⟩, le_rfl⟩
  | nil =>
    obtain ⟨input', hr, ⟨rfl, hc⟩ | rfl⟩ := uncarried_eq_cons hrest
    · have hfetch : fetch ⟨c :: input', eof, fail, line, column, []⟩ =
          (toChar c, ⟨input', eof, fail, line, column, []⟩) := if_neg hc
      rw [hfetch]
      exact ⟨.inr rfl, ⟨hroom, hr, heof, hfail⟩, le_rfl⟩
    · exact ⟨.inl rfl, ⟨hroom, hr, heof, hfail⟩, le_rfl⟩

/-- Behind the last character the end is noticed. -/
theorem fetch_end {s : ReadAheadStreamAdapter} (h : s.seen = []) :
    (fetch s).1 = -1 ∧ Over (fetch s).2 := by
  rcases s with ⟨input, eof, fail, line, column, readAhead⟩
  obtain ⟨rfl, hinput⟩ := List.append_eq_nil_iff.mp h
  rcases uncarried_eq_nil hinput with rfl | rfl
  · exact ⟨rfl, rfl, rfl, rfl⟩
  · exact ⟨rfl, rfl, rfl, rfl⟩

/-- What `read` leaves, with the position counted. -/
def counted (c : Int) (s : ReadAheadStreamAdapter) : ReadAheadStreamAdapter :=
  if c = '\n'.toNat then { s with line := s.line + 1, column := 1 }
  else { s with column := s.column + 1 }

theorem read_fetch (s : ReadAheadStreamAdapter) :
    read s = (.ok (fetch s).1, counted (fetch s).1 (fetch s).2) := rfl

theorem counted_sees {c : Int} {s : ReadAheadStreamAdapter} {r : Str} (h : Sees s r) :
    Sees (counted c s) r := by
  unfold counted
  split
  · exact ⟨h.room, h.rest, h.eof, h.fail⟩
  · exact ⟨h.room, h.rest, h.eof, h.fail⟩

theorem counted_over {c : Int} {s : ReadAheadStreamAdapter} (h : Over s) : Over (counted c s) := by
  unfold counted
  split
  · exact ⟨h.rest, h.eof, h.fail⟩
  · exact ⟨h.rest, h.eof, h.fail⟩

@[simp] theorem counted_readAhead (c : Int) (s : ReadAheadStreamAdapter) :
    (counted c s).readAhead = s.readAhead := by
  unfold counted
  split <;> rfl

theorem read_sees {s : ReadAheadStreamAdapter} {c : UInt8} {r : Str} (h : Sees s (c :: r)) :
    ∃ x s', read s = (.ok x, s') ∧ (x = c.toNat ∨ x = toChar c) ∧ Sees s' r ∧
      s'.readAhead.length ≤ s.readAhead.length - 1 := by
  obtain ⟨hchar, hrest, hroom⟩ := fetch_sees h
  exact ⟨_, _, read_fetch s, hchar, counted_sees hrest, by rwa [counted_readAhead]⟩

theorem read_end {s : ReadAheadStreamAdapter} (h : s.seen = []) :
    ∃ s', read s = (.ok (-1), s') ∧ Over s' := by
  obtain ⟨hchar, hover⟩ := fetch_end h
  exact ⟨_, by rw [read_fetch, hchar], counted_over hover⟩

theorem next_sees {s : ReadAheadStreamAdapter} {c : UInt8} {r : Str} (h : Sees s (c :: r)) :
    ∃ s', next s = (.ok (some c), s') ∧ Sees s' r := by
  obtain ⟨x, s', hrun, hx, hrest, -⟩ := read_sees h
  refine ⟨s', ?_, hrest⟩
  unfold next
  rw [bind_ok (get_run s), h.eof, if_neg Bool.false_ne_true, bind_ok hrun, toByte_of_read hx]
  rfl

/-- There is one character more than there are. -/
theorem next_end {s : ReadAheadStreamAdapter} (h : Sees s []) :
    ∃ s', next s = (.ok (some 255), s') ∧ Over s' := by
  obtain ⟨s', hrun, hover⟩ := read_end h.rest
  refine ⟨s', ?_, hover⟩
  unfold next
  rw [bind_ok (get_run s), h.eof, if_neg Bool.false_ne_true, bind_ok hrun]
  rfl

theorem next_over {s : ReadAheadStreamAdapter} (h : Over s) : next s = (.ok none, s) := by
  unfold next
  rw [bind_ok (get_run s), h.eof]
  rfl

theorem putback_sees {s : ReadAheadStreamAdapter} {r : Str} (h : Sees s r)
    (hroom : s.readAhead.length < 8) (c : UInt8) :
    ∃ s', putback c s = (.ok (), s') ∧ Sees s' (c :: r) ∧
      s'.readAhead.length = s.readAhead.length + 1 := by
  obtain ⟨-, rfl, heof, hfail⟩ := h
  unfold putback
  rw [bind_ok (get_run s), bind_ok (by rw [throwIf_run, if_neg (by omega)])]
  refine ⟨_, rfl, ?_⟩
  split
  · exact ⟨⟨hroom, rfl, heof, hfail⟩, rfl⟩
  · exact ⟨⟨hroom, rfl, heof, hfail⟩, rfl⟩

/-! ## Several characters -/

theorem putbackAll_sees (buf : Str) {s : ReadAheadStreamAdapter} {r : Str} (h : Sees s r)
    (hroom : s.readAhead.length + buf.length ≤ 8) :
    ∃ s', putbackAll buf s = (.ok (), s') ∧ Sees s' (buf.reverse ++ r) := by
  induction buf generalizing s r with
  | nil => exact ⟨s, rfl, h⟩
  | cons c buf ih =>
    rw [List.length_cons] at hroom
    obtain ⟨s₁, hrun₁, hsees₁, hlength⟩ := putback_sees h (by omega) c
    obtain ⟨s₂, hrun₂, hsees₂⟩ := ih hsees₁ (by omega)
    refine ⟨s₂, (bind_ok hrun₁).trans hrun₂, ?_⟩
    rwa [List.reverse_cons, List.append_assoc]

/-- What `expect` leaves when it fails: an end of what there was, or the end. -/
def Fails (s : ReadAheadStreamAdapter) (r : Str) : Prop :=
  Over s ∨ ∃ lost r', r = lost ++ r' ∧ Sees s r'

theorem expectLoop_sees (seq buf : Str) {s : ReadAheadStreamAdapter} {r : Str} (h : Sees s r)
    (hroom : s.readAhead.length + buf.length ≤ 8) (hlength : buf.length + seq.length ≤ 8) :
    ∃ b s', expectLoop seq buf s = (.ok b, s') ∧
      (b = true ∧ (∃ r', Sees s' r' ∧ r = seq ++ r') ∨
        b = false ∧ Fails s' (buf.reverse ++ r)) := by
  induction seq generalizing s r buf with
  | nil => exact ⟨true, s, rfl, .inl ⟨rfl, r, h, rfl⟩⟩
  | cons p seq ih =>
    rw [List.length_cons] at hlength
    cases r with
    | nil =>
      -- the end is met, and nothing is put back
      obtain ⟨s₁, hrun₁, hover⟩ := read_end h.rest
      exact ⟨false, s₁, (bind_ok hrun₁).trans rfl, .inr ⟨rfl, .inl hover⟩⟩
    | cons c r =>
      obtain ⟨x, s₁, hrun₁, hx, hsees₁, hroom₁⟩ := read_sees h
      by_cases hneg : x < 0
      · refine ⟨false, s₁, ?_, .inr ⟨rfl, .inr ⟨buf.reverse ++ [c], r, by simp, hsees₁⟩⟩⟩
        exact (bind_ok hrun₁).trans (by rw [if_pos hneg]; rfl)
      · by_cases hne : toChar p ≠ x
        · obtain ⟨s₂, hrun₂, hsees₂⟩ := putbackAll_sees (c :: buf) hsees₁ (by
            rw [List.length_cons]
            omega)
          rw [List.reverse_cons, List.append_assoc, List.singleton_append] at hsees₂
          refine ⟨false, s₂, ?_, .inr ⟨rfl, .inr ⟨[], _, rfl, hsees₂⟩⟩⟩
          refine (bind_ok hrun₁).trans ?_
          rw [if_neg hneg, if_neg (by omega), if_pos hne, toByte_of_read hx, bind_ok hrun₂]
          rfl
        · have hpc : p = c := by
            have hbyte := congrArg toByte (not_not.mp hne)
            rwa [toByte_toChar, toByte_of_read hx] at hbyte
          obtain ⟨b, s', hrun, hres⟩ := ih (c :: buf) hsees₁ (by
            rw [List.length_cons]
            omega) (by
            rw [List.length_cons]
            omega)
          refine ⟨b, s', ?_, ?_⟩
          · refine (bind_ok hrun₁).trans ?_
            rw [if_neg hneg, if_neg (by omega), if_neg hne, toByte_of_read hx]
            exact hrun
          · rw [List.reverse_cons, List.append_assoc, List.singleton_append] at hres
            rcases hres with ⟨hb, r', hsees', rfl⟩ | hfails
            · exact .inl ⟨hb, r', hsees', by rw [hpc, List.cons_append]⟩
            · exact .inr hfails

/-- `expect` takes all of its characters, or leaves an end of what there was. -/
theorem expect_sees (seq : Str) {s : ReadAheadStreamAdapter} {r : Str} (h : Sees s r)
    (hseq : seq.length ≤ 8) :
    ∃ b s', expect seq s = (.ok b, s') ∧
      (b = true ∧ (∃ r', Sees s' r' ∧ r = seq ++ r') ∨ b = false ∧ Fails s' r) :=
  expectLoop_sees seq [] h (by simpa using h.room) (by simpa using hseq)

/-- ASCII characters are found. -/
theorem expect_found (seq : Str) (hseq : ∀ c ∈ seq, c < 128) (hlength : seq.length ≤ 8)
    {s : ReadAheadStreamAdapter} {r : Str} (h : Sees s (seq ++ r)) :
    ∃ s', expect seq s = (.ok true, s') ∧ Sees s' r := by
  suffices hloop : ∀ buf : Str, buf.length + seq.length ≤ 8 →
      ∃ s', expectLoop seq buf s = (.ok true, s') ∧ Sees s' r from
    hloop [] (by rwa [List.length_nil, Nat.zero_add])
  clear hlength
  induction seq generalizing s with
  | nil => exact fun _ _ => ⟨s, rfl, h⟩
  | cons p seq ih =>
    intro buf hlength
    rw [List.length_cons] at hlength
    rw [List.forall_mem_cons] at hseq
    obtain ⟨x, s₁, hrun₁, hx, hsees₁, -⟩ := read_sees h
    have hchar : x = p.toNat := by
      rw [toChar_ascii hseq.1, or_self] at hx
      exact hx
    obtain ⟨s', hrun, hsees'⟩ := ih hseq.2 hsees₁ (toByte x :: buf) (by
      rw [List.length_cons]
      omega)
    refine ⟨s', (bind_ok hrun₁).trans ?_, hsees'⟩
    rw [if_neg (by omega), if_neg (by omega), if_neg (by rw [toChar_ascii hseq.1, hchar]; simp)]
    exact hrun

theorem expect_over (p : UInt8) (seq : Str) {s : ReadAheadStreamAdapter} (h : Over s) :
    ∃ s', expect (p :: seq) s = (.ok false, s') ∧ Over s' := by
  obtain ⟨s', hrun, hover⟩ := read_end h.rest
  exact ⟨s', (bind_ok hrun).trans rfl, hover⟩

theorem whileNext_over {α : Type} (body : UInt8 → α → Cursor (Bool × α)) (k : Nat) (a : α)
    {s : ReadAheadStreamAdapter} (h : Over s) : whileNext body (k + 1) a s = (.ok a, s) :=
  (bind_ok (next_over h)).trans rfl

end Wsrv.ReadAheadStreamAdapter
