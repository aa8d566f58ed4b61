import Wsrv.XmlTags

/-!
# The bounds of the XML parser

`read_ahead_` never holds more than eight characters: what `expect` puts back
was read before.  Every loop ends, since what is left to read shrinks.  So a
call of `next` returns or throws an `XmlPullParserException` (`next_defined`),
and the calls come to an end (`nextToken_progress`).
-/

namespace Wsrv

open Effect

/-- No array is left, and no loop runs for ever. -/
def IsFatal {σ : Type} (e : XmlStop) (_ : σ) : Prop := e ≠ .undefined

namespace ReadAheadStreamAdapter

/-! ## Room -/

/-- The characters that are left, and the end. -/
def left (s : ReadAheadStreamAdapter) : Nat :=
  if s.eof then 0 else s.readAhead.length + s.input.length + 1

/-- At most `n` characters have been put back, and at most `N` are left. -/
structure Room (n N : Nat) (s : ReadAheadStreamAdapter) : Prop where
  held : s.readAhead.length ≤ n
  left : s.left ≤ N

variable {α : Type} {n n' N N' : Nat} {s : ReadAheadStreamAdapter}

theorem Room.mono (h : Room n N s) (hn : n ≤ n') (hN : N ≤ N') : Room n' N' s :=
  ⟨h.held.trans hn, h.left.trans hN⟩

theorem left_lt_size (s : ReadAheadStreamAdapter) : s.left < s.size := by
  unfold left size
  split <;> omega

/-- Where the next character comes from: what was put back, the input, or its end. -/
theorem fetch_cases (s : ReadAheadStreamAdapter) :
    (∃ c readAhead, s.readAhead = c :: readAhead ∧
        fetch s = ((c.toNat : Int), { s with readAhead := readAhead })) ∨
      (∃ c input, s.readAhead = [] ∧ input.length < s.input.length ∧
        fetch s = (c, { s with input := input })) ∨
      s.readAhead = [] ∧ fetch s = (-1, { s with input := [], eof := true, fail := true }) := by
  rcases s with ⟨input, eof, fail, line, column, readAhead⟩
  match readAhead, input with
  | c :: readAhead, _ => exact .inl ⟨c, readAhead, rfl, rfl⟩
  | [], [] => exact .inr (.inr ⟨rfl, rfl⟩)
  | [], [c] =>
    unfold fetch
    by_cases hc : c = CR
    · exact .inr (.inr ⟨rfl, if_pos hc⟩)
    · exact .inr (.inl ⟨toChar c, [], rfl, Nat.zero_lt_one, if_neg hc⟩)
  | [], c :: d :: input =>
    unfold fetch
    by_cases hc : c = CR
    · exact .inr (.inl ⟨(d.toNat : Int), input, rfl, by simp only [List.length_cons]; omega, if_pos hc⟩)
    · exact .inr (.inl ⟨toChar c, d :: input, rfl, Nat.lt_succ_self _, if_neg hc⟩)

/-- A character is taken. -/
theorem fetch_room (h : Room n N s) : Room (n - 1) (N - 1) (fetch s).2 := by
  obtain ⟨hheld, hleft⟩ := h
  unfold left at hleft
  rcases fetch_cases s with ⟨c, readAhead, hread, hfetch⟩ | ⟨c, input, hread, hlt, hfetch⟩ |
    ⟨hread, hfetch⟩
  · rw [hread, List.length_cons] at hheld hleft
    rw [hfetch]
    refine ⟨by simp only; omega, ?_⟩
    simp only [left]
    split
    · exact Nat.zero_le _
    · rename_i heof
      rw [if_neg heof] at hleft
      omega
  · rw [hread, List.length_nil] at hheld hleft
    rw [hfetch]
    refine ⟨by simp only [hread, List.length_nil]; omega, ?_⟩
    simp only [left, hread, List.length_nil]
    split
    · exact Nat.zero_le _
    · rename_i heof
      rw [if_neg heof] at hleft
      omega
  · rw [hfetch]
    exact ⟨by simp only [hread, List.length_nil]; omega, Nat.zero_le _⟩

/-! ## Characters -/

abbrev Fits (n N : Nat) (x : Cursor α) (Q : α → ReadAheadStreamAdapter → Prop) : Prop :=
  Triple (Room n N) x Q IsFatal

theorem read_run (s : ReadAheadStreamAdapter) :
    ∃ line column, read s = (.ok (fetch s).1, { (fetch s).2 with line := line, column := column }) := by
  have hrun : read s = (.ok (fetch s).1,
      if (fetch s).1 = '\n'.toNat then { (fetch s).2 with line := (fetch s).2.line + 1, column := 1 }
      else { (fetch s).2 with column := (fetch s).2.column + 1 }) := rfl
  rw [hrun]
  split
  · exact ⟨_, _, rfl⟩
  · exact ⟨_, _, rfl⟩

theorem read_room : Fits n N read fun _ => Room (n - 1) (N - 1) := fun s hs => by
  obtain ⟨line, column, hrun⟩ := read_run s
  obtain ⟨hheld, hleft⟩ := fetch_room hs
  refine ⟨fun c s' h => ?_, fun e s' h => ?_⟩
  · cases hrun.symm.trans h
    exact ⟨hheld, hleft⟩
  · cases hrun.symm.trans h

/-- `next` fails when nothing is left, and takes a character otherwise. -/
theorem next_room : Fits n N next fun r s =>
    r = none ∧ Room n N s ∨ 1 ≤ N ∧ Room (n - 1) (N - 1) s := fun s hs => by
  unfold next
  rw [bind_ok (get_run s)]
  by_cases heof : s.eof = true
  · rw [if_pos heof]
    refine ⟨fun r s' h => ?_, fun e s' h => ?_⟩
    · cases h
      exact .inl ⟨rfl, hs⟩
    · cases h
  · have hone : 1 ≤ N := by
      have hleft := hs.left
      rw [left, if_neg heof] at hleft
      omega
    rw [if_neg heof]
    have htake : Fits n N (do return some (toByte (← read))) fun r s =>
        r = none ∧ Room n N s ∨ 1 ≤ N ∧ Room (n - 1) (N - 1) s :=
      read_room.bind fun c => .pure fun s' hs' => .inr ⟨hone, hs'⟩
    exact htake s hs

/-- A character that has been taken is put back. -/
theorem putback_room (hn : n < 8) (c : UInt8) :
    Fits n (N - 1) (putback c) fun _ => Room (n + 1) N := by
  refine (Triple.get (Q := fun s' s => s' = s ∧ Room n (N - 1) s) fun s hs => ⟨rfl, hs⟩).bind
    fun s' => ?_
  rintro s ⟨rfl, hs⟩
  obtain ⟨hheld, hleft⟩ := hs
  have hroom : ¬ 8 ≤ s'.readAhead.length := by omega
  rw [bind_ok (by rw [throwIf_run, if_neg hroom])]
  have hback : Room (n + 1) N { s' with readAhead := c :: s'.readAhead } := by
    refine ⟨by rw [List.length_cons]; omega, ?_⟩
    unfold left at hleft ⊢
    simp only [List.length_cons]
    split
    · exact Nat.zero_le _
    · rename_i heof
      rw [if_neg heof] at hleft
      omega
  refine ⟨fun r s'' h => ?_, fun e s'' h => ?_⟩
  · cases h
    split
    · exact ⟨hback.held, hback.left⟩
    · exact ⟨hback.held, hback.left⟩
  · cases h

theorem peek_room : Fits n N peek fun _ => Room n N := fun s hs => by
  have hrun : ∃ c eof fail, peek s = (.ok c, { s with eof := eof, fail := fail }) ∧
      (eof = true ∨ eof = s.eof) := by
    rcases s with ⟨input, eof, fail, line, column, readAhead⟩
    match readAhead, input with
    | c :: readAhead, _ => exact ⟨_, eof, fail, rfl, .inr rfl⟩
    | [], c :: input => exact ⟨_, eof, fail, rfl, .inr rfl⟩
    | [], [] => exact ⟨_, true, fail || eof, rfl, .inl rfl⟩
  obtain ⟨c, eof, fail, hrun, heof⟩ := hrun
  refine ⟨fun c s' h => ?_, fun e s' h => ?_⟩
  · cases hrun.symm.trans h
    rcases heof with rfl | rfl
    · exact ⟨hs.held, Nat.zero_le _⟩
    · exact ⟨hs.held, hs.left⟩
  · cases hrun.symm.trans h

/-! ## Several characters -/

/-- What `expect` puts back was read before. -/
theorem putbackAll_room (buf : Str) (hn : n + buf.length ≤ 8) :
    Fits n (N - buf.length) (putbackAll buf) fun _ => Room (n + buf.length) N := by
  induction buf generalizing n N with
  | nil => exact .pure fun _ h => h
  | cons c buf ih =>
    rw [List.length_cons] at hn
    have hrest := ih (n := n + 1) (N := N) (by omega)
    refine Triple.bind ?_ fun _ => hrest.weaken (fun _ h => h) fun _ s hs => hs.mono ?_ le_rfl
    · rw [List.length_cons, ← Nat.sub_sub]
      exact putback_room (by omega) c
    · rw [List.length_cons]
      omega

theorem expectLoop_room (seq buf : Str) (hn : n + buf.length ≤ 8)
    (hlength : buf.length + seq.length ≤ 8) :
    Fits n (N - buf.length) (expectLoop seq buf) fun _ => Room 8 N := by
  induction seq generalizing n buf with
  | nil => exact .pure fun s hs => hs.mono (by omega) (Nat.sub_le _ _)
  | cons p seq ih =>
    rw [List.length_cons] at hlength
    have hbuf (c : UInt8) : N - buf.length - 1 = N - (c :: buf).length := by
      rw [List.length_cons, Nat.sub_sub]
    refine read_room.bind fun c => Triple.ite (fun _ => ?_) fun _ => ?_
    · exact .pure fun s hs => hs.mono (by omega) (by omega)
    rw [if_neg (by omega)]
    refine Triple.ite (fun _ => ?_) fun _ => ?_
    · rw [hbuf (toByte c)]
      have hback := putbackAll_room (n := n - 1) (N := N) (toByte c :: buf) (by
        rw [List.length_cons]
        omega)
      refine hback.bind fun _ => .pure fun s hs => hs.mono ?_ le_rfl
      rw [List.length_cons]
      omega
    · rw [hbuf (toByte c)]
      exact ih (n := n - 1) (toByte c :: buf) (by rw [List.length_cons]; omega)
        (by rw [List.length_cons]; omega)

theorem expect_room {seq : Str} (h : seq.length ≤ 8) :
    Fits 8 N (expect seq) fun _ => Room 8 N :=
  expectLoop_room seq [] le_rfl (by simpa using h)

/-- White space is taken until the end or the first other character. -/
theorem skipWhiteLoop_room (k : Nat) (hn : n ≤ 8) :
    Triple (fun s => Room n N s ∧ s.readAhead.length + s.input.length < k) (skipWhiteLoop k)
      (fun _ => Room 8 N) IsFatal := by
  induction k generalizing n N with
  | zero => exact .throw fun s hs => absurd hs.2 (Nat.not_lt_zero _)
  | succ k ih =>
    have hread : Triple (fun s => Room n N s ∧ s.readAhead.length + s.input.length < k + 1) read
        (fun c s => Room (n - 1) (N - 1) s ∧ (0 ≤ c → s.readAhead.length + s.input.length < k))
        IsFatal := fun s hs => by
      obtain ⟨line, column, hrun⟩ := read_run s
      obtain ⟨hheld, hleft⟩ := fetch_room hs.1
      refine ⟨fun c s' h => ?_, fun e s' h => ?_⟩
      · cases hrun.symm.trans h
        refine ⟨⟨hheld, hleft⟩, fun hc => ?_⟩
        have hlt := hs.2
        rcases fetch_cases s with ⟨c, readAhead, hread, hfetch⟩ | ⟨c, input, hread, hinput, hfetch⟩ |
          ⟨hread, hfetch⟩
        · rw [hread, List.length_cons] at hlt
          rw [hfetch]
          simp only
          omega
        · rw [hfetch]
          simp only
          omega
        · rw [hfetch] at hc
          simp only at hc
          omega
      · cases hrun.symm.trans h
    refine hread.bind fun c => Triple.ite (fun hc => ?_) fun hc => ?_
    · exact .pure fun s hs => hs.1.mono (by omega) (by omega)
    · refine (Triple.get fun s hs => hs).bind fun s' => Triple.ite (fun _ => ?_) fun _ => ?_
      · exact (ih (n := n - 1) (N := N - 1) (by omega)).weaken
          (fun s hs => ⟨hs.1, hs.2 (by omega)⟩) fun _ s hs => hs.mono le_rfl (by omega)
      · exact (putback_room (n := n - 1) (by omega) _).weaken (fun s hs => hs.1)
          fun _ s hs => hs.mono (by omega) le_rfl

theorem skipWhite_room (hn : n ≤ 8) : Fits n N skipWhite fun _ => Room 8 N := fun s hs => by
  unfold skipWhite sized
  rw [bind_ok (get_run s)]
  exact skipWhiteLoop_room s.size hn s ⟨hs, by unfold size; omega⟩

/-! ## Loops -/

/-- A loop has more turns than there is left to read. -/
theorem sized_room {loop : Nat → Cursor α} {Q : α → ReadAheadStreamAdapter → Prop}
    (h : ∀ M k, M ≤ N → M < k → Fits n M (loop k) Q) : Fits n N (sized loop) Q := fun s hs => by
  unfold sized
  rw [bind_ok (get_run s)]
  exact h s.left s.size hs.left s.left_lt_size s ⟨hs.held, le_rfl⟩

/-- A turn keeps what `next` took, or ends the loop where it began. -/
def Turns (body : UInt8 → α → Cursor (Bool × α)) : Prop :=
  ∀ c a N, Fits 7 (N - 1) (body c a) fun r s =>
    r.1 = false ∧ r.2 = a ∧ Room 8 N s ∨ Room 8 (N - 1) s

theorem whileNext_room {body : UInt8 → α → Cursor (Bool × α)} (hbody : Turns body) (k : Nat)
    (hk : N < k) (a : α) : Fits 8 N (whileNext body k a) fun a' s =>
      a' = a ∧ Room 8 N s ∨ 1 ≤ N ∧ Room 8 (N - 1) s := by
  induction k generalizing N a with
  | zero => omega
  | succ k ih =>
    refine next_room.bind fun r => ?_
    cases r with
    | none =>
      refine .pure fun s hs => .inl ⟨rfl, ?_⟩
      rcases hs with ⟨-, hs⟩ | ⟨-, hs⟩
      · exact hs
      · exact hs.mono (by omega) (by omega)
    | some c =>
      by_cases hN : 1 ≤ N
      · refine ((hbody c a N).weaken ?_ fun _ _ h => h).bind fun r => ?_
        · rintro s (⟨h, -⟩ | ⟨-, hs⟩)
          · cases h
          · exact hs
        · obtain ⟨goOn, a'⟩ := r
          refine Triple.ite (fun hgo => ?_) fun _ => .pure fun s hs => ?_
          · refine (ih (N := N - 1) (by omega) a').weaken ?_ ?_
            · rintro s (⟨h, -⟩ | hs)
              · rw [hgo] at h
                cases h
              · exact hs
            · rintro a'' s (⟨-, hs⟩ | ⟨-, hs⟩)
              · exact .inr ⟨hN, hs⟩
              · exact .inr ⟨hN, hs.mono le_rfl (by omega)⟩
          · rcases hs with ⟨-, rfl, hs⟩ | hs
            · exact .inl ⟨rfl, hs⟩
            · exact .inr ⟨hN, hs⟩
      · -- nothing was left to take
        intro s hs
        rcases hs with ⟨h, -⟩ | ⟨h, -⟩
        · cases h
        · exact absurd h hN

/-- A whole loop; where it changed anything, a character was taken. -/
theorem sized_whileNext {body : UInt8 → α → Cursor (Bool × α)} (hbody : Turns body) (a : α) :
    Fits 8 N (sized fun k => whileNext body k a) fun a' s =>
      a' = a ∧ Room 8 N s ∨ 1 ≤ N ∧ Room 8 (N - 1) s := by
  refine sized_room fun _ k hM hk => (whileNext_room hbody k hk a).weaken (fun _ h => h) ?_
  rintro a' s (⟨ha, hs⟩ | ⟨hone, hs⟩)
  · exact .inl ⟨ha, hs.mono le_rfl hM⟩
  · exact .inr ⟨by omega, hs.mono le_rfl (by omega)⟩

theorem sized_whileNext_room {body : UInt8 → α → Cursor (Bool × α)} (hbody : Turns body) (a : α) :
    Fits 8 N (sized fun k => whileNext body k a) fun _ => Room 8 N := by
  refine (sized_whileNext hbody a).weaken (fun _ h => h) ?_
  rintro a' s (⟨-, hs⟩ | ⟨-, hs⟩)
  · exact hs
  · exact hs.mono le_rfl (by omega)

end ReadAheadStreamAdapter

namespace XmlPullParser

open ReadAheadStreamAdapter

variable {α : Type} {n N : Nat}

/-! ## Names, references and values -/

theorem parseName_turns : Turns fun c name =>
    if isValidNameChar c name.length then return (true, name ++ [c])
    else do
      putback c
      return (false, name) := fun c a N => by
  refine Triple.ite (fun _ => .pure fun s hs => .inr (hs.mono (by omega) le_rfl)) fun _ => ?_
  exact (putback_room (by omega) c).bind fun _ => .pure fun s hs => .inl ⟨rfl, rfl, hs⟩

/-- A name takes its characters. -/
theorem parseName_room : Fits 8 N parseName fun name s =>
    name = [] ∧ Room 8 N s ∨ 1 ≤ N ∧ Room 8 (N - 1) s := sized_whileNext parseName_turns []

theorem escapeLoop_room (k : Nat) (hn : n ≤ 8) (quot : Str) :
    Fits n N (escapeLoop k quot) fun _ => Room 8 N := by
  have hstop (r : Option UInt8) (quot : Str) : Triple (fun s => r = none ∧ Room n N s ∨
      1 ≤ N ∧ Room (n - 1) (N - 1) s) (pure quot : Cursor Str) (fun _ => Room 8 N) IsFatal := by
    refine .pure ?_
    rintro s (⟨-, hs⟩ | ⟨-, hs⟩)
    · exact hs.mono hn le_rfl
    · exact hs.mono (by omega) (by omega)
  induction k generalizing n N quot with
  | zero => exact next_room.bind fun r => hstop r quot
  | succ k ih =>
    refine next_room.bind fun r => ?_
    cases r with
    | none => exact hstop none quot
    | some c =>
      refine Triple.ite (fun _ => hstop (some c) quot) fun _ => ?_
      refine (ih (n := n) (N := N) hn _ hstop).weaken ?_ fun _ _ h => h
      rintro s (⟨h, -⟩ | ⟨-, hs⟩)
      · cases h
      · exact hs.mono (by omega) (by omega)

theorem escapeString_room (hn : n ≤ 8) : Fits n N escapeString fun _ => Room 8 N :=
  (escapeLoop_room 5 hn []).bind fun _ => .pure fun _ h => h

theorem valueStep_turns (oc : UInt8) : Turns (valueStep oc) := fun c a N => by
  have hstop (r : Bool × ValueScan) : Fits 7 (N - 1) (pure r : Cursor _) fun r s =>
      r.1 = false ∧ r.2 = a ∧ Room 8 N s ∨ Room 8 (N - 1) s :=
    .pure fun s hs => .inr (hs.mono (by omega) le_rfl)
  refine Triple.ite (fun _ => ?_) fun _ => Triple.ite (fun _ => hstop _) fun _ =>
    Triple.ite (fun _ => hstop _) fun _ => hstop _
  refine (escapeString_room (by omega)).bind fun r => ?_
  cases r with
  | none => exact .pure fun s hs => .inr hs
  | some t => exact .pure fun s hs => .inr hs

theorem parseAttributeValue_room : Fits 8 N parseAttributeValue fun _ => Room 8 N := by
  refine next_room.bind fun r => ?_
  cases r with
  | none =>
    refine .pure ?_
    rintro s (⟨-, hs⟩ | ⟨-, hs⟩)
    · exact hs
    · exact hs.mono (by omega) (by omega)
  | some oc =>
    have hsome : Fits 8 N (do
        let v ← sized fun n => whileNext (valueStep oc) n { last := oc }
        return (!v.failed && v.last == oc, v.val)) fun _ => Room 8 N :=
      (sized_whileNext_room (valueStep_turns oc) _).bind fun _ => .pure fun _ h => h
    refine (Triple.ite (fun _ => .pure fun _ h => h) fun _ => hsome).weaken ?_ fun _ _ h => h
    rintro s (⟨h, -⟩ | ⟨-, hs⟩)
    · cases h
    · exact hs.mono (by omega) (by omega)

/-- Every turn takes a name. -/
theorem attributeLoop_room (k : Nat) (hk : N < k) (attrs : Dictionary) :
    Fits 8 N (attributeLoop k attrs) fun _ => Room 8 N := by
  induction k generalizing N attrs with
  | zero => omega
  | succ k ih =>
    refine parseName_room.bind fun name => ?_
    by_cases hname : name = []
    · rw [if_pos hname]
      refine .pure ?_
      rintro s (⟨-, hs⟩ | ⟨-, hs⟩)
      · exact hs
      · exact hs.mono le_rfl (by omega)
    · rw [if_neg hname]
      by_cases hN : 1 ≤ N
      · refine Triple.weaken (P := Room 8 (N - 1)) (Q := fun _ => Room 8 (N - 1)) ?_ ?_
          fun _ s hs => hs.mono le_rfl (by omega)
        · refine (skipWhite_room le_rfl).bind fun _ => (expect_room (by decide)).bind fun ok =>
            Triple.ite (fun _ => .pure fun _ h => h) fun _ => ?_
          refine (skipWhite_room le_rfl).bind fun _ => parseAttributeValue_room.bind fun v =>
            Triple.ite (fun _ => .pure fun _ h => h) fun _ => ?_
          refine (skipWhite_room le_rfl).bind fun _ => peek_room.bind fun c =>
            Triple.ite (fun _ => .pure fun _ h => h) fun _ => ?_
          exact (Triple.get fun _ h => h).bind fun s =>
            Triple.ite (fun _ => .pure fun _ h => h) fun _ => ih (N := N - 1) (by omega) _
        · rintro s (⟨h, -⟩ | ⟨-, hs⟩)
          · exact absurd h hname
          · exact hs
      · intro s hs
        rcases hs with ⟨h, -⟩ | ⟨h, -⟩
        · exact absurd h hname
        · exact absurd h hN

/-! ## Texts -/

theorem textStep_turns : Turns textStep := fun c a N => by
  have hgo (r : Bool × TextScan) : Fits 7 (N - 1) (pure r : Cursor _) fun r s =>
      r.1 = false ∧ r.2 = a ∧ Room 8 N s ∨ Room 8 (N - 1) s :=
    .pure fun s hs => .inr (hs.mono (by omega) le_rfl)
  refine Triple.ite (fun _ => hgo _) fun _ => Triple.ite (fun _ => ?_) fun _ =>
    Triple.ite (fun _ => ?_) fun _ => hgo _
  · exact (putback_room (by omega) c).bind fun _ => .pure fun s hs => .inl ⟨rfl, rfl, hs⟩
  · refine (escapeString_room (by omega)).bind fun r => ?_
    cases r with
    | none => exact .pure fun s hs => .inr hs
    | some t => exact .pure fun s hs => .inr hs

theorem subsetStep_turns : Turns subsetStep := fun _ _ _ =>
  .pure fun _ hs => .inr (hs.mono (by omega) le_rfl)

theorem docTypeStep_turns : Turns docTypeStep := fun c a N => by
  refine Triple.ite (fun _ => .pure fun s hs => .inr (hs.mono (by omega) le_rfl)) fun _ =>
    Triple.ite (fun _ => ?_) fun _ => .pure fun s hs => .inr (hs.mono (by omega) le_rfl)
  exact ((sized_whileNext_room subsetStep_turns 1).weaken (fun s hs => hs.mono (by omega) le_rfl)
    fun _ _ h => h).bind fun _ => .pure fun s hs => .inr hs

theorem cdataStep_turns : Turns cdataStep := fun c a N => by
  refine Triple.ite (fun _ => .pure fun s hs => .inr (hs.mono (by omega) le_rfl)) fun _ => ?_
  have hlen : (str "]>").length ≤ 8 := by decide
  exact ((expect_room hlen).weaken
    (fun s hs => hs.mono (by omega) le_rfl) fun _ _ h => h).bind fun ok =>
      Triple.ite (fun _ => .pure fun s hs => .inr hs) fun _ => .pure fun s hs => .inr hs

theorem untilStep_turns {ending : Str} (h : ending.length ≤ 8) : Turns (untilStep ending) :=
  fun c a N => by
    exact ((expect_room h).weaken (fun s hs => hs.mono (by omega) le_rfl) fun _ _ h => h).bind
      fun ok => Triple.ite (fun _ => .pure fun s hs => .inr hs) fun _ => .pure fun s hs => .inr hs

/-! ## Operations of the parser -/

/-- The cursor has room, and the token is the one of the call before. -/
structure Roomy (t : TokenType) (N : Nat) (s : XmlPullParser) : Prop where
  room : Room 8 N s.cursor
  token : s.token = t

variable {t : TokenType}

theorem triple_onCursor {x : Cursor α} {P : ReadAheadStreamAdapter → Prop}
    {Q : α → ReadAheadStreamAdapter → Prop} (h : Triple P x Q IsFatal) :
    Triple (fun s : XmlPullParser => P s.cursor ∧ s.token = t) (onCursor x)
      (fun a s => Q a s.cursor ∧ s.token = t) IsFatal := fun s hs => by
  obtain ⟨hok, herror⟩ := h s.cursor hs.1
  rcases hrun : x s.cursor with ⟨e | a, c⟩
  · have herr : onCursor x s = (.error e, { s with cursor := c }) := by rw [onCursor, hrun]
    refine ⟨fun a s' heq => ?_, fun e' s' heq => ?_⟩
    · cases herr.symm.trans heq
    · cases herr.symm.trans heq
      exact herror e c hrun
  · have hret : onCursor x s = (.ok a, { s with cursor := c }) := by rw [onCursor, hrun]
    refine ⟨fun a' s' heq => ?_, fun e s' heq => ?_⟩
    · cases hret.symm.trans heq
      exact ⟨hok a c hrun, hs.2⟩
    · cases hret.symm.trans heq

theorem onCursor_roomy {x : Cursor α} (h : Fits 8 N x fun _ => Room 8 N) :
    Triple (Roomy t N) (onCursor x) (fun _ => Roomy t N) IsFatal :=
  (triple_onCursor h).weaken (fun _ hs => ⟨hs.room, hs.token⟩) fun _ _ hs => ⟨hs.1, hs.2⟩

/-- The other members may be set. -/
theorem modify_then {f : XmlPullParser → XmlPullParser} {g : PUnit → Parser α}
    {Q : α → XmlPullParser → Prop}
    (h : ∀ s, (f s).cursor = s.cursor ∧ (f s).token = s.token)
    (hg : Triple (Roomy t N) (g ⟨⟩) Q IsFatal) : Triple (Roomy t N) (modify f >>= g) Q IsFatal :=
  (Triple.modify (Q := fun _ => Roomy t N) fun s hs =>
    ⟨(h s).1 ▸ hs.room, (h s).2.trans hs.token⟩).bind fun _ => hg

theorem fatal_roomy {P : XmlPullParser → Prop} {Q : α → XmlPullParser → Prop} (msg : String) :
    Triple P (fatal msg) Q IsFatal :=
  (Triple.get fun _ h => h).bind fun _ => .throw fun _ _ => by simp [IsFatal]

theorem parseBOM_roomy : Triple (Roomy t N) parseBOM (fun _ => Roomy t N) IsFatal :=
  onCursor_roomy (expect_room (by decide))

theorem parseAttributeList_roomy :
    Triple (Roomy t N) parseAttributeList (fun _ => Roomy t N) IsFatal :=
  modify_then (fun _ => ⟨rfl, rfl⟩) <| onCursor_roomy <| sized_room fun _ k hM hk =>
    (attributeLoop_room k hk ∅).weaken (fun _ h => h) fun _ _ hs => hs.mono le_rfl hM

theorem skipWhite_roomy : Triple (Roomy t N) (onCursor skipWhite) (fun _ => Roomy t N) IsFatal :=
  onCursor_roomy (skipWhite_room le_rfl)

theorem expect_roomy {seq : Str} (h : seq.length ≤ 8) :
    Triple (Roomy t N) (onCursor (expect seq)) (fun _ => Roomy t N) IsFatal :=
  onCursor_roomy (expect_room h)

theorem peek_roomy : Triple (Roomy t N) (onCursor peek) (fun _ => Roomy t N) IsFatal :=
  onCursor_roomy peek_room

theorem parseName_roomy : Triple (Roomy t N) (onCursor parseName) (fun _ => Roomy t N) IsFatal := by
  refine onCursor_roomy (parseName_room.weaken (fun _ h => h) ?_)
  rintro name s (⟨-, hs⟩ | ⟨-, hs⟩)
  · exact hs
  · exact hs.mono le_rfl (by omega)

theorem done_roomy (a : α) : Triple (Roomy t N) (pure a : Parser α) (fun _ => Roomy t N) IsFatal :=
  .pure fun _ h => h

theorem parseXmlDecl_roomy : Triple (Roomy t N) parseXmlDecl (fun _ => Roomy t N) IsFatal := by
  refine (expect_roomy (by decide)).bind fun ok => Triple.ite (fun _ => ?_) fun _ => done_roomy _
  refine skipWhite_roomy.bind fun _ => parseAttributeList_roomy.bind fun r =>
    Triple.ite (fun _ => fatal_roomy _) fun _ => ?_
  exact skipWhite_roomy.bind fun _ => (expect_roomy (by decide)).bind fun ok =>
    Triple.ite (fun _ => fatal_roomy _) fun _ => done_roomy _

theorem parseStartElement_roomy :
    Triple (Roomy t N) parseStartElement (fun _ => Roomy t N) IsFatal := by
  refine peek_roomy.bind fun c => Triple.ite (fun _ => done_roomy _) fun _ => ?_
  refine skipWhite_roomy.bind fun _ => parseName_roomy.bind fun name =>
    modify_then (fun _ => ⟨rfl, rfl⟩) <| Triple.ite (fun _ => fatal_roomy _) fun _ => ?_
  refine skipWhite_roomy.bind fun _ => parseAttributeList_roomy.bind fun r =>
    modify_then (fun _ => ⟨rfl, rfl⟩) <| Triple.ite (fun _ => fatal_roomy _) fun _ => ?_
  have hend : Triple (Roomy t N) (do
      modify fun s => { s with elementStack := ⟨s.localName, s.pfx, s.ns⟩ :: s.elementStack }
      if ← onCursor (expect (str "/>")) then
        modify fun s => { s with isEmptyElementTag := true }
        return true
      else if ← onCursor (expect (str ">")) then
        modify fun s => { s with isEmptyElementTag := false }
        return true
      else return false) (fun _ => Roomy t N) IsFatal := by
    refine modify_then (fun _ => ⟨rfl, rfl⟩) <| (expect_roomy (by decide)).bind fun ok =>
      Triple.ite (fun _ => ?_) fun _ => ?_
    · exact modify_then (fun _ => ⟨rfl, rfl⟩) <| done_roomy _
    · refine (expect_roomy (by decide)).bind fun ok => Triple.ite (fun _ => ?_) fun _ => done_roomy _
      exact modify_then (fun _ => ⟨rfl, rfl⟩) <| done_roomy _
  refine skipWhite_roomy.bind fun _ => (Triple.get fun _ h => h).bind fun s =>
    Triple.ite (fun _ => ?_) fun _ => ?_
  · exact modify_then (fun _ => ⟨rfl, rfl⟩) <| modify_then (fun _ => ⟨rfl, rfl⟩) <| modify_then (fun _ => ⟨rfl, rfl⟩) <| hend
  · exact modify_then (fun _ => ⟨rfl, rfl⟩) <| hend

theorem parseEndElement_roomy :
    Triple (Roomy t N) parseEndElement (fun _ => Roomy t N) IsFatal := by
  refine peek_roomy.bind fun c => Triple.ite (fun _ => done_roomy _) fun _ =>
    Triple.ite (fun _ => ?_) fun _ => done_roomy _
  have hread : Fits 8 N read fun _ => Room 8 N :=
    read_room.weaken (fun _ h => h) fun _ s hs => hs.mono (by omega) (by omega)
  refine (onCursor_roomy hread).bind fun _ => skipWhite_roomy.bind fun _ =>
    parseName_roomy.bind fun name => modify_then (fun _ => ⟨rfl, rfl⟩) <| Triple.ite (fun _ => fatal_roomy _) fun _ => ?_
  exact skipWhite_roomy.bind fun _ => (expect_roomy (by decide)).bind fun ok =>
    Triple.ite (fun _ => done_roomy _) fun _ => fatal_roomy _

theorem parseCharacters_roomy :
    Triple (Roomy t N) parseCharacters (fun _ => Roomy t N) IsFatal :=
  (onCursor_roomy (sized_whileNext_room textStep_turns _)).bind fun _ =>
    modify_then (fun _ => ⟨rfl, rfl⟩) <| Triple.ite (fun _ => fatal_roomy _) fun _ => done_roomy _

theorem parseDocType_roomy : Triple (Roomy t N) parseDocType (fun _ => Roomy t N) IsFatal :=
  (expect_roomy (by decide)).bind fun ok => Triple.ite
    (fun _ => (onCursor_roomy (sized_whileNext_room docTypeStep_turns _)).bind fun _ => done_roomy _)
    fun _ => done_roomy _

theorem parseCData_roomy : Triple (Roomy t N) parseCData (fun _ => Roomy t N) IsFatal :=
  (expect_roomy (by decide)).bind fun ok => Triple.ite
    (fun _ => (onCursor_roomy (sized_whileNext_room cdataStep_turns _)).bind fun _ =>
      modify_then (fun _ => ⟨rfl, rfl⟩) <| done_roomy _)
    fun _ => done_roomy _

theorem parseComment_roomy : Triple (Roomy t N) parseComment (fun _ => Roomy t N) IsFatal :=
  (expect_roomy (by decide)).bind fun ok => Triple.ite
    (fun _ => (onCursor_roomy (sized_whileNext_room (untilStep_turns (by decide)) _)).bind fun _ =>
      modify_then (fun _ => ⟨rfl, rfl⟩) <| (Triple.get fun _ h => h).bind fun _ =>
        Triple.ite (fun _ => fatal_roomy _) fun _ => done_roomy _)
    fun _ => done_roomy _

theorem parsePI_roomy : Triple (Roomy t N) parsePI (fun _ => Roomy t N) IsFatal :=
  (expect_roomy (by decide)).bind fun ok => Triple.ite
    (fun _ => (onCursor_roomy (sized_whileNext_room (untilStep_turns (by decide)) _)).bind fun _ =>
      modify_then (fun _ => ⟨rfl, rfl⟩) <| done_roomy _)
    fun _ => done_roomy _

/-! ## Tokens -/

/-- A call that closes no empty element reads a token or comes to the end. -/
def Took (N : Nat) (t : TokenType) (s : XmlPullParser) : Prop :=
  t = .END_DOCUMENT ∧ Room 8 N s.cursor ∨ 1 ≤ N ∧ Room 8 (N - 1) s.cursor

theorem modify_room {f : XmlPullParser → XmlPullParser} {g : PUnit → Parser α}
    {Q : α → XmlPullParser → Prop} (h : ∀ s, (f s).cursor = s.cursor)
    (hg : Triple (fun s => Room 8 N s.cursor) (g ⟨⟩) Q IsFatal) :
    Triple (fun s => Room 8 N s.cursor) (modify f >>= g) Q IsFatal :=
  (Triple.modify (Q := fun _ (s : XmlPullParser) => Room 8 N s.cursor) fun s hs => h s ▸ hs).bind
    fun _ => hg

theorem setToken_room (t' : TokenType) :
    Triple (fun s => Room 8 N s.cursor) (setToken t') (fun a s => a = t' ∧ Room 8 N s.cursor)
      IsFatal :=
  modify_room (fun _ => rfl) <| .pure fun _ h => ⟨rfl, h⟩

theorem matchEndTag_room :
    Triple (fun s => Room 8 N s.cursor) matchEndTag (fun _ s => Room 8 N s.cursor) IsFatal := by
  refine modify_room (fun s => ?_) <| (Triple.get fun _ h => h).bind fun s => ?_
  · split <;> rfl
  · split
    · refine Triple.ite (fun _ => ?_) fun _ => .throw fun _ _ => by simp [IsFatal]
      exact modify_room (fun _ => rfl) <| .pure fun _ h => h
    · exact .throw fun _ _ => by simp [IsFatal]

theorem parseMarkup_room :
    Triple (Roomy t N) parseMarkup (fun _ s => Room 8 N s.cursor) IsFatal := by
  have hset {t' : TokenType} :
      Triple (Roomy t N) (setToken t') (fun _ s => Room 8 N s.cursor) IsFatal :=
    (setToken_room t').weaken (fun _ hs => hs.room) fun _ _ h => h.2
  refine parseStartElement_roomy.bind fun _ => Triple.ite (fun _ => modify_then (fun _ => ⟨rfl, rfl⟩) hset) fun _ => ?_
  refine parseEndElement_roomy.bind fun _ => Triple.ite
    (fun _ => matchEndTag_room.weaken (fun _ hs => hs.room) fun _ _ h => h) fun _ => ?_
  refine parseDocType_roomy.bind fun _ => Triple.ite (fun _ => hset) fun _ => ?_
  refine parseCData_roomy.bind fun _ => Triple.ite (fun _ => hset) fun _ => ?_
  refine parseComment_roomy.bind fun _ => Triple.ite (fun _ => hset) fun _ => ?_
  refine parsePI_roomy.bind fun _ => Triple.ite (fun _ => hset) fun _ => ?_
  exact (Triple.get fun _ h => h).bind fun _ => .pure fun _ hs => hs.room

/-- What was put back in front is read first. -/
theorem next_front {c : UInt8} : Triple (fun s => Room 8 N s ∧ s.eof = false ∧ s.readAhead.head? = some c)
    ReadAheadStreamAdapter.next (fun r s => r = some c ∧ Room 7 (N - 1) s) IsFatal := by
  rintro s ⟨hs, heof, hhead⟩
  obtain ⟨rest, hrest⟩ := List.head?_eq_some_iff.mp hhead
  have hroom := fetch_room hs
  obtain ⟨line, column, hrun⟩ := read_run s
  have hfetch : (fetch s).1 = c.toNat := by
    rcases fetch_cases s with ⟨d, readAhead, hread, hfetch⟩ | ⟨d, input, hread, -⟩ | ⟨hread, -⟩
    · rw [hrest] at hread
      cases hread
      rw [hfetch]
    · rw [hrest] at hread
      cases hread
    · rw [hrest] at hread
      cases hread
  have hnext : ReadAheadStreamAdapter.next s =
      (.ok (some c), { (fetch s).2 with line := line, column := column }) := by
    unfold ReadAheadStreamAdapter.next
    rw [bind_ok (get_run s), heof, if_neg Bool.false_ne_true, bind_ok hrun, hfetch, toByte_toNat]
    rfl
  refine ⟨fun r s' h => ?_, fun e s' h => ?_⟩
  · cases hnext.symm.trans h
    exact ⟨rfl, hroom.held, hroom.left⟩
  · cases hnext.symm.trans h

/-- A text that begins with the character put back takes it. -/
theorem textLoop_front {c : UInt8} (hc : c ≠ '<'.toUInt8) :
    Triple (fun s => Room 8 N s ∧ s.eof = false ∧ s.readAhead.head? = some c)
      (sized fun n => whileNext textStep n {}) (fun _ => Room 8 (N - 1)) IsFatal := by
  rintro s ⟨hs, heof, hhead⟩
  unfold sized
  rw [bind_ok (get_run s)]
  obtain ⟨k, hk⟩ : ∃ k, s.size = k + 1 := ⟨s.readAhead.length + s.input.length + 1, rfl⟩
  have hsome : s.left - 1 < k := by
    rw [left, heof, if_neg Bool.false_ne_true]
    rw [size] at hk
    omega
  rw [hk]
  have hfirst : Fits 7 (s.left - 1) (textStep c {}) fun _ => Room 8 (s.left - 1) := by
    refine Triple.ite (fun _ => .pure fun s hs => hs.mono (by omega) le_rfl) fun _ => ?_
    rw [if_neg hc]
    refine Triple.ite (fun _ => ?_) fun _ => .pure fun s hs => hs.mono (by omega) le_rfl
    refine (escapeString_room (by omega)).bind fun r => ?_
    cases r with
    | none => exact .pure fun _ h => h
    | some _ => exact .pure fun _ h => h
  have hloop : Triple (fun s' => Room 8 s.left s' ∧ s'.eof = false ∧ s'.readAhead.head? = some c)
      (whileNext textStep (k + 1) {}) (fun _ => Room 8 (s.left - 1)) IsFatal := by
    refine next_front.bind fun r => ?_
    rintro s' ⟨rfl, hs'⟩
    refine (hfirst.bind fun r => ?_) s' hs'
    refine Triple.ite (fun _ => (whileNext_room textStep_turns k hsome _).weaken (fun _ h => h) ?_)
      fun _ => .pure fun _ h => h
    rintro a s (⟨-, h⟩ | ⟨-, h⟩)
    · exact h
    · exact h.mono le_rfl (by omega)
  exact (hloop.weaken (fun _ h => h) fun _ _ h => h.mono le_rfl (Nat.sub_le_sub_right hs.left 1)) s
    ⟨⟨hs.held, le_rfl⟩, heof, hhead⟩

theorem parseCharacters_front {c : UInt8} (hc : c ≠ '<'.toUInt8) :
    Triple (fun s : XmlPullParser => (Room 8 N s.cursor ∧ s.cursor.eof = false ∧
        s.cursor.readAhead.head? = some c) ∧ s.token = t) parseCharacters
      (fun _ s => Room 8 (N - 1) s.cursor) IsFatal := by
  refine (triple_onCursor (textLoop_front hc)).bind fun scan => ?_
  refine Triple.weaken (P := Roomy t (N - 1)) ?_ (fun s hs => ⟨hs.1, hs.2⟩)
    fun _ s (hs : Roomy t (N - 1) s) => hs.room
  exact modify_then (fun _ => ⟨rfl, rfl⟩) <| Triple.ite (fun _ => fatal_roomy _) fun _ => done_roomy _

theorem putback_front (hn : n < 8) (c : UInt8) :
    Triple (fun s => Room n (N - 1) s ∧ s.eof = false) (putback c)
      (fun _ s => Room (n + 1) N s ∧ s.eof = false ∧ s.readAhead.head? = some c) IsFatal := by
  rintro s ⟨hs, heof⟩
  obtain ⟨hok, herror⟩ := putback_room hn c s hs
  refine ⟨fun r s' h => ⟨hok r s' h, ?_⟩, herror⟩
  unfold putback at h
  rw [bind_ok (get_run s), bind_ok (by rw [throwIf_run, if_neg (by have := hs.held; omega)])] at h
  cases h
  split
  · exact ⟨heof, rfl⟩
  · exact ⟨heof, rfl⟩

/-- A text, or no token at all: the first character of it is taken. -/
theorem readText_room {c : UInt8} (hc : c ≠ '<'.toUInt8) :
    Triple (fun s : XmlPullParser => Room 7 (N - 1) s.cursor ∧ s.token = t)
      (do
        onCursor (putback c)
        if ← parseCharacters then setToken .TEXT else return (← get).token)
      (fun _ s => Room 8 (N - 1) s.cursor) IsFatal := by
  have hend {M : Nat} (text : Bool) : Triple (fun s : XmlPullParser => Room 8 M s.cursor)
      (if text then setToken .TEXT else return (← get).token) (fun _ s => Room 8 M s.cursor)
      IsFatal :=
    Triple.ite (fun _ => (setToken_room _).weaken (fun _ h => h) fun _ _ h => h.2) fun _ => (Triple.get fun _ h => h).bind fun _ =>
      .pure fun _ h => h
  rintro s ⟨hs, htoken⟩
  cases heof : s.cursor.eof with
  | true =>
    -- nothing is left, and what is put back is not read
    have hnone : Room 7 (0 - 1) s.cursor := ⟨hs.held, by rw [left, heof]; exact le_rfl⟩
    have htext : Triple (fun s : XmlPullParser => Room 8 0 s.cursor ∧ s.token = t) parseCharacters
        (fun _ s => Room 8 0 s.cursor) IsFatal :=
      parseCharacters_roomy.weaken (fun s hs => ⟨hs.1, hs.2⟩) fun _ _ hs => hs.room
    exact (((triple_onCursor (putback_room (N := 0) (by omega) c)).bind fun _ =>
      htext.bind fun text => hend text).weaken (fun _ h => h)
        fun _ _ h => h.mono le_rfl (Nat.zero_le _)) s ⟨hnone, htoken⟩
  | false =>
    exact ((triple_onCursor (putback_front (by omega) c)).bind fun _ =>
      (parseCharacters_front (t := t) hc).bind fun text => hend text) s ⟨⟨hs, heof⟩, htoken⟩

/-- **Every call that closes no empty element takes a character, or comes to the end.** -/
theorem readToken_took : Triple (fun s => Room 8 N s.cursor ∧
      ¬ (s.token = .START_TAG ∧ s.isEmptyElementTag = true)) readToken (Took N) IsFatal := by
  rintro s ⟨hs, hfull⟩
  unfold readToken
  rw [bind_ok (get_run s), if_neg hfull]
  refine ((triple_onCursor (t := s.token) next_room).bind fun r => ?_) s ⟨hs, rfl⟩
  cases r with
  | none =>
    refine ((setToken_room (N := N) .END_DOCUMENT).weaken ?_ ?_)
    · rintro s' ⟨⟨-, hs'⟩ | ⟨-, hs'⟩, -⟩
      · exact hs'
      · exact hs'.mono (by omega) (by omega)
    · rintro t' s' ⟨rfl, hs'⟩
      exact .inl ⟨rfl, hs'⟩
  | some c =>
    by_cases hN : 1 ≤ N
    · have hafter : Triple (fun s' : XmlPullParser => Room 7 (N - 1) s'.cursor ∧ s'.token = s.token)
          (if c = '<'.toUInt8 then parseMarkup
            else do
              onCursor (putback c)
              if ← parseCharacters then setToken .TEXT else return (← get).token)
          (fun _ s => Room 8 (N - 1) s.cursor) IsFatal :=
        Triple.ite (fun _ => parseMarkup_room.weaken
            (fun s' hs' => ⟨hs'.1.mono (by omega) le_rfl, hs'.2⟩) fun _ _ h => h)
          fun hc => readText_room hc
      refine hafter.weaken ?_ fun _ _ h => .inr ⟨hN, h⟩
      rintro s' ⟨⟨h, -⟩ | ⟨-, hs'⟩, htoken⟩
      · cases h
      · exact ⟨hs', htoken⟩
    · rintro s' ⟨⟨h, -⟩ | ⟨h, -⟩, -⟩
      · cases h
      · exact absurd h hN

theorem parseProlog_roomy : Triple (Roomy t N) parseProlog (fun _ => Roomy t N) IsFatal := by
  refine (Triple.get fun _ h => h).bind fun s => Triple.ite (fun _ => ?_) fun _ => done_roomy _
  exact parseBOM_roomy.bind fun _ => skipWhite_roomy.bind fun _ => parseXmlDecl_roomy.bind fun _ =>
    skipWhite_roomy

theorem nextToken_took : Triple (fun s => Room 8 N s.cursor ∧
      ¬ (s.token = .START_TAG ∧ s.isEmptyElementTag = true)) nextToken (Took N) IsFatal := by
  rintro s ⟨hs, hfull⟩
  by_cases hstart : s.token = .START_DOCUMENT
  · refine (parseProlog_roomy.bind fun _ => readToken_took.weaken ?_ fun _ _ h => h) s ⟨hs, rfl⟩
    intro s' hs'
    refine ⟨hs'.room, fun h => ?_⟩
    rw [hs'.token, hstart] at h
    exact absurd h.1 (by decide)
  · rw [nextToken_started hstart]
    exact readToken_took s ⟨hs, hfull⟩

/-- A token that is no event has taken a character. -/
theorem nextToken_room : Triple (fun s => Room 8 N s.cursor) nextToken (fun t' s =>
      Room 8 N s.cursor ∧ (TokenType.skipped t' = true → 1 ≤ N ∧ Room 8 (N - 1) s.cursor)) IsFatal := by
  intro s hs
  by_cases hempty : s.token = .START_TAG ∧ s.isEmptyElementTag = true
  · rw [nextToken_empty hempty.1 hempty.2]
    refine ⟨fun t' s' h => ?_, fun e s' h => ?_⟩
    · cases h
      exact ⟨hs, fun h => absurd h (by decide)⟩
    · cases h
  · refine (nextToken_took.weaken (fun _ h => h) ?_) s ⟨hs, hempty⟩
    rintro t' s' (⟨rfl, hs'⟩ | ⟨hN, hs'⟩)
    · exact ⟨hs', fun h => absurd h (by decide)⟩
    · exact ⟨hs'.mono le_rfl (by omega), fun _ => ⟨hN, hs'⟩⟩

theorem nextLoop_room (k : Nat) (hk : N < k) :
    Triple (fun s => Room 8 N s.cursor) (nextLoop k) (fun _ s => Room 8 N s.cursor) IsFatal := by
  induction k generalizing N with
  | zero => omega
  | succ k ih =>
    refine nextToken_room.bind fun t' => Triple.ite (fun hskip => ?_) fun _ => .pure fun _ h => h.1
    rintro s ⟨-, htook⟩
    obtain ⟨hN, hs⟩ := htook hskip
    exact ((ih (N := N - 1) (by omega)).weaken (fun _ h => h)
      fun _ _ h => h.mono le_rfl (by omega)) s hs

/-- **No call of `next` leaves `read_ahead_` or fails to end**: it returns, or it throws an
`XmlPullParserException`. -/
theorem next_defined : Triple (fun s => Room 8 N s.cursor) next (fun _ s => Room 8 N s.cursor)
    IsFatal := by
  intro s hs
  unfold next
  rw [bind_ok (get_run s)]
  have hrest (t' : TokenType) : Triple (fun s' => Room 8 s.cursor.left s'.cursor) (do
        modify fun s : XmlPullParser => { s with event := (TokenType.event? t').or s.event }
        return (← get).event : Parser (Option TokenType))
      (fun _ s' => Room 8 s.cursor.left s'.cursor) IsFatal :=
    modify_room (fun _ => rfl) <| (Triple.get fun _ h => h).bind fun _ => .pure fun _ h => h
  exact (((nextLoop_room _ s.cursor.left_lt_size).bind hrest).weaken (fun _ h => h)
    fun _ _ h => h.mono le_rfl hs.left) s ⟨hs.held, le_rfl⟩

/-! ## The end of the calls -/

/-- What the calls have still to do: to read what is left, and to close an empty element. -/
def pending (s : XmlPullParser) : Nat :=
  2 * s.cursor.left + if s.token = .START_TAG ∧ s.isEmptyElementTag = true then 1 else 0

/-- **The calls of `nextToken` come to an end.** -/
theorem nextToken_progress {s s' : XmlPullParser} {t' : TokenType}
    (hs : s.cursor.readAhead.length ≤ 8) (h : nextToken s = (.ok t', s')) :
    s'.cursor.readAhead.length ≤ 8 ∧ (t' = .END_DOCUMENT ∨ pending s' < pending s) := by
  by_cases hempty : s.token = .START_TAG ∧ s.isEmptyElementTag = true
  · rw [nextToken_empty hempty.1 hempty.2] at h
    cases h
    refine ⟨hs, .inr ?_⟩
    rw [pending, pending, if_pos hempty, if_neg (by simp [closeElement])]
    exact Nat.lt_succ_self _
  · have hroom : Room 8 s.cursor.left s.cursor := ⟨hs, le_rfl⟩
    rcases (nextToken_took s ⟨hroom, hempty⟩).1 t' s' h with ⟨hend, hs'⟩ | ⟨hone, hs'⟩
    · exact ⟨hs'.held, .inl hend⟩
    · refine ⟨hs'.held, .inr ?_⟩
      have hleft := hs'.left
      rw [pending, pending, if_neg hempty]
      split <;> omega

theorem nextLoop_progress (k : Nat) {s s' : XmlPullParser} {t' : TokenType}
    (hs : s.cursor.readAhead.length ≤ 8) (h : nextLoop k s = (.ok t', s')) :
    s'.cursor.readAhead.length ≤ 8 ∧ (t' = .END_DOCUMENT ∨ pending s' < pending s) := by
  induction k generalizing s with
  | zero => cases h
  | succ k ih =>
    rw [nextLoop] at h
    rcases hrun : nextToken s with ⟨e | t₁, s₁⟩
    · rw [bind_error hrun] at h
      cases h
    · rw [bind_ok hrun] at h
      obtain ⟨hs₁, hless⟩ := nextToken_progress hs hrun
      by_cases hskip : TokenType.skipped t₁ = true
      · rw [if_pos hskip] at h
        obtain ⟨hs', hend⟩ := ih hs₁ h
        have hlt : pending s₁ < pending s := hless.resolve_left fun hend => by
          rw [hend] at hskip
          exact absurd hskip (by decide)
        exact ⟨hs', hend.imp_right fun hlt' => hlt'.trans hlt⟩
      · rw [if_neg hskip] at h
        cases h
        exact ⟨hs₁, hless⟩

/-- **The calls of `next` come to an end.** -/
theorem next_progress {s s' : XmlPullParser} {event : Option TokenType}
    (hs : s.cursor.readAhead.length ≤ 8) (h : next s = (.ok event, s')) :
    s'.cursor.readAhead.length ≤ 8 ∧ (event = some .END_DOCUMENT ∨ pending s' < pending s) := by
  unfold next at h
  rw [bind_ok (get_run s)] at h
  rcases hrun : nextLoop s.cursor.size s with ⟨e | t₁, s₁⟩
  · rw [bind_error hrun] at h
    cases h
  · rw [bind_ok hrun, bind_ok (modify_run _ _)] at h
    cases h
    obtain ⟨hs₁, hend | hless⟩ := nextLoop_progress _ hs hrun
    · rw [hend]
      exact ⟨hs₁, .inl rfl⟩
    · exact ⟨hs₁, .inr hless⟩

end XmlPullParser

end Wsrv
