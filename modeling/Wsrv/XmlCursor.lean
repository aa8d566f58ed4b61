import Wsrv.Text
import Wsrv.Lib.Effect

/-!
# The cursor of the XML parser

`ReadAheadStreamAdapter<8>` reads a stream character by character and takes
back at most eight of them.  `read` steps over a carriage return, whatever
follows it.  The end of the input is noticed by a failed `get`: the first `next`
behind the last character still gives one, the byte 255.

`Reads n s r` says that the text `r` is still to be read and at most `n`
characters of it have been put back; `Gives` is what an operation gives on a
text.
-/

namespace Wsrv

/-- Why a call of the XML parser does not return. -/
inductive XmlStop
  /-- An `XmlPullParserException`. -/
  | fatal (msg : Str) (line column : Int)
  /-- `read_ahead_` or the buffer of `expect` is full. -/
  | undefined
  deriving DecidableEq

/-- The stream and the characters that were put back, the last one first. -/
structure ReadAheadStreamAdapter where
  input : Str
  eof : Bool := false
  fail : Bool := false
  line : Int := 1
  column : Int := 1
  readAhead : Str := []

abbrev Cursor := Effect ReadAheadStreamAdapter XmlStop

namespace ReadAheadStreamAdapter

open Effect

/-! ## Operations -/

/-- A byte as a `char`. -/
def toChar (c : UInt8) : Int := if c < 128 then c.toNat else c.toNat - 256

/-- An `int` as an `unsigned char`. -/
def toByte (c : Int) : UInt8 := UInt8.ofNat (c % 256).toNat

/-- The character `read` gives, before it is counted. -/
def fetch (s : ReadAheadStreamAdapter) : Int × ReadAheadStreamAdapter :=
  match s.readAhead, s.input with
  | c :: readAhead, _ => (c.toNat, { s with readAhead := readAhead })
  | [], [] => (-1, { s with eof := true, fail := true })
  | [], c :: input =>
    if c = CR then
      match input with
      | [] => (-1, { s with input := [], eof := true, fail := true })
      | d :: input => (d.toNat, { s with input := input })
    else (toChar c, { s with input := input })

def read : Cursor Int := do
  let (c, s) := fetch (← get)
  set (if c = '\n'.toNat then { s with line := s.line + 1, column := 1 }
    else { s with column := s.column + 1 })
  return c

def next : Cursor (Option UInt8) := do
  if (← get).eof then return none
  else return some (toByte (← read))

def putback (c : UInt8) : Cursor Unit := do
  let s ← get
  throwIf (8 ≤ s.readAhead.length) .undefined
  set (if c = LF then
      { s with readAhead := c :: s.readAhead, line := s.line - 1, column := 1 }
    else { s with readAhead := c :: s.readAhead, column := s.column - 1 })

def putbackAll : Str → Cursor Unit
  | [] => return
  | c :: buf => do
    putback c
    putbackAll buf

/-- The loop of `expect`; `buf`, an array of 256 characters, holds what was read, the last one
first. -/
def expectLoop : Str → Str → Cursor Bool
  | [], _ => return true
  | p :: seq, buf => do
    let c ← read
    if c < 0 then return false
    else if 256 ≤ buf.length then throw .undefined
    else if toChar p ≠ c then
      putbackAll (toByte c :: buf)
      return false
    else expectLoop seq (toByte c :: buf)

def expect (seq : Str) : Cursor Bool := expectLoop seq []

/-- No loop reads more characters than this. -/
def size (s : ReadAheadStreamAdapter) : Nat := s.readAhead.length + s.input.length + 2

def isWhite (c : Int) : Bool :=
  c == ' '.toNat || c == '\t'.toNat || c == '\r'.toNat || c == '\n'.toNat

def skipWhiteLoop : Nat → Cursor Unit
  | 0 => throw .undefined
  | n + 1 => do
    let c ← read
    if c < 0 then return
    else if !(← get).fail && isWhite c then skipWhiteLoop n
    else putback (toByte c)

/-- A loop that is bounded by what there is to read. -/
def sized {α : Type} (loop : Nat → Cursor α) : Cursor α := do loop (← get).size

def skipWhite : Cursor Unit := sized skipWhiteLoop

def peek : Cursor Int := do
  let s ← get
  match s.readAhead, s.input with
  | c :: _, _ => return toChar c
  | [], c :: _ => return toChar c
  | [], [] =>
    set { s with fail := s.fail || s.eof, eof := true }
    return -1

/-- `while ( cursor_.next(c) ) body`, where the body says whether to go on. -/
def whileNext {α : Type} (body : UInt8 → α → Cursor (Bool × α)) : Nat → α → Cursor α
  | 0, _ => throw .undefined
  | n + 1, a => do
    match ← next with
    | none => return a
    | some c =>
      let (goOn, a) ← body c a
      if goOn then whileNext body n a else return a

/-! ## What every operation keeps -/

section Keeps

variable {P : ReadAheadStreamAdapter → Prop} {E : XmlStop → ReadAheadStreamAdapter → Prop}

theorem putbackAll_keeps (hputback : ∀ c, Triple P (putback c) (fun _ => P) E) (buf : Str) :
    Triple P (putbackAll buf) (fun _ => P) E := by
  induction buf with
  | nil => exact .pure fun _ h => h
  | cons c buf ih => exact (hputback c).bind fun _ => ih

theorem expect_keeps (hread : Triple P read (fun _ => P) E)
    (hputback : ∀ c, Triple P (putback c) (fun _ => P) E) (hfull : ∀ s, P s → E .undefined s)
    (seq : Str) : Triple P (expect seq) (fun _ => P) E := by
  have hloop : ∀ buf, Triple P (expectLoop seq buf) (fun _ => P) E := by
    induction seq with
    | nil => exact fun _ => .pure fun _ h => h
    | cons p seq ih =>
      exact fun buf => hread.bind fun c => .ite (fun _ => .pure fun _ h => h) fun _ =>
        .ite (fun _ => .throw hfull) fun _ =>
          .ite (fun _ => (putbackAll_keeps hputback _).bind fun _ => .pure fun _ h => h) fun _ => ih _
  exact hloop []

theorem skipWhite_keeps (hread : Triple P read (fun _ => P) E)
    (hputback : ∀ c, Triple P (putback c) (fun _ => P) E) (hlong : ∀ s, P s → E .undefined s) :
    Triple P skipWhite (fun _ => P) E := by
  have hget : Triple P (get : Cursor ReadAheadStreamAdapter) (fun _ => P) E := .get fun _ h => h
  have hloop : ∀ n, Triple P (skipWhiteLoop n) (fun _ => P) E := by
    intro n
    induction n with
    | zero => exact .throw hlong
    | succ n ih =>
      exact hread.bind fun c => .ite (fun _ => .pure fun _ h => h) fun _ => hget.bind fun _ =>
        .ite (fun _ => ih) fun _ => hputback _
  exact hget.bind fun s => hloop s.size

end Keeps

/-! ## What is to be read -/

/-- The characters of a stream that `read` gives. -/
def uncarried : Str → Str
  | [] => []
  | c :: s =>
    if c = CR then
      match s with
      | [] => []
      | d :: s => d :: uncarried s
    else c :: uncarried s

theorem uncarried_cons {c : UInt8} (h : c ≠ CR) (s : Str) :
    uncarried (c :: s) = c :: uncarried s := by
  rw [uncarried.eq_def]
  simp [h]

theorem uncarried_carriage (d : UInt8) (s : Str) : uncarried (CR :: d :: s) = d :: uncarried s := by
  rw [uncarried.eq_def]
  simp

/-- A carriage return does not swallow what is behind the next character. -/
theorem uncarried_append (a : Str) {c : UInt8} (h : c ≠ CR) (b : Str) :
    uncarried (a ++ c :: b) = uncarried a ++ c :: uncarried b := by
  induction a using uncarried.induct with
  | case1 => exact uncarried_cons h b
  | case2 =>
    rw [List.singleton_append, uncarried_carriage]
    rfl
  | case3 d a ih => rw [List.cons_append, List.cons_append, uncarried_carriage, uncarried_carriage, ih,
      List.cons_append]
  | case4 d a hd ih => rw [List.cons_append, uncarried_cons hd, uncarried_cons hd, ih, List.cons_append]

theorem length_uncarried_le (s : Str) : (uncarried s).length ≤ s.length := by
  induction s using uncarried.induct with
  | case1 => exact le_rfl
  | case2 => exact Nat.zero_le _
  | case3 d a ih =>
    rw [uncarried_carriage, List.length_cons, List.length_cons, List.length_cons]
    omega
  | case4 d a hd ih =>
    rw [uncarried_cons hd, List.length_cons, List.length_cons]
    omega

theorem length_le_uncarried_append (a : Str) (c : UInt8) (b : Str) (h : c ≠ CR) :
    (uncarried a).length + 1 ≤ (uncarried (a ++ c :: b)).length := by
  rw [uncarried_append a h, List.length_append, List.length_cons]
  omega

theorem uncarried_eq_self {s : Str} (h : CR ∉ s) : uncarried s = s := by
  induction s with
  | nil => rfl
  | cons c s ih =>
    rw [List.mem_cons, not_or] at h
    rw [uncarried_cons (Ne.symm h.1), ih h.2]

def Ascii (s : Str) : Prop := ∀ c ∈ s, c < 128

/-- The text that some characters have been read from. -/
inductive Carried : Str → Str → Prop
  | nil : Carried [] []
  | char {c : UInt8} {raw chars : Str} (hc : c ≠ CR) (h : Carried raw chars) :
      Carried (c :: raw) (c :: chars)
  | carriage {d : UInt8} {raw chars : Str} (h : Carried raw chars) :
      Carried (CR :: d :: raw) (d :: chars)

theorem Carried.uncarried_append {raw chars : Str} (h : Carried raw chars) (r : Str) :
    uncarried (raw ++ r) = chars ++ uncarried r := by
  induction h with
  | nil => rfl
  | char hc _ ih => rw [List.cons_append, uncarried_cons hc, ih, List.cons_append]
  | carriage _ ih => rw [List.cons_append, List.cons_append, uncarried_carriage, ih, List.cons_append]

/-- The text `r` is still to be read. -/
def Remains (s : ReadAheadStreamAdapter) (r : Str) : Prop :=
  ∃ raw, Carried raw s.readAhead ∧ r = raw ++ s.input

/-- The text `r` is still to be read, and at most `n` characters of it have been put back. -/
structure Reads (n : Nat) (s : ReadAheadStreamAdapter) (r : Str) : Prop where
  room : s.readAhead.length ≤ n
  rest : s.Remains r
  eof : s.eof = false
  fail : s.fail = false

theorem Reads.mono {n n' : Nat} {s : ReadAheadStreamAdapter} {r : Str} (h : Reads n s r)
    (hn : n ≤ n') : Reads n' s r :=
  { h with room := h.room.trans hn }

theorem Reads.of_eq {n : Nat} {s : ReadAheadStreamAdapter} {r r' : Str} (h : Reads n s r)
    (hr : r = r') : Reads n s r' := hr ▸ h

/-- There is enough room for what `read` gives. -/
theorem Reads.le_size {n : Nat} {s : ReadAheadStreamAdapter} {r : Str} (h : Reads n s r) :
    (uncarried r).length + 2 ≤ s.size := by
  obtain ⟨raw, hraw, rfl⟩ := h.rest
  have hinput := length_uncarried_le s.input
  rw [hraw.uncarried_append, List.length_append, size]
  omega

theorem toByte_toNat (c : UInt8) : toByte c.toNat = c := by
  have hlt := c.toNat_lt
  have hmod : ((c.toNat : Int) % 256).toNat = c.toNat := by omega
  rw [toByte, hmod, UInt8.ofNat_toNat]

theorem toChar_ascii {c : UInt8} (h : c < 128) : toChar c = c.toNat := if_pos h

theorem toByte_toChar (c : UInt8) : toByte (toChar c) = c :=
  forall_byte (P := fun c => toByte (toChar c) = c) (by decide +kernel) c

/-- What is known of a state behind the next character, which may be negative when it comes from
the stream. -/
theorem fetch_remains {s : ReadAheadStreamAdapter} {c d : UInt8} {r r' : Str} (h : s.Remains r)
    (hr : r = c :: r' ∧ c ≠ CR ∧ d = c ∨ r = CR :: d :: r') :
    ((fetch s).1 = d.toNat ∨ (fetch s).1 = toChar d) ∧ (fetch s).2.Remains r' ∧
      (fetch s).2.readAhead.length ≤ s.readAhead.length - 1 ∧ (fetch s).2.eof = s.eof ∧
        (fetch s).2.fail = s.fail := by
  obtain ⟨raw, hraw, hrest⟩ := h
  rcases s with ⟨input, eof, fail, line, column, readAhead⟩
  simp only at hraw hrest
  cases hraw with
  | nil =>
    obtain rfl : r = input := hrest
    rcases hr with ⟨rfl, hc, rfl⟩ | rfl
    · have hfetch : fetch ⟨d :: r', eof, fail, line, column, []⟩ =
          (toChar d, ⟨r', eof, fail, line, column, []⟩) := if_neg hc
      rw [hfetch]
      exact ⟨.inr rfl, ⟨[], .nil, rfl⟩, le_rfl, rfl, rfl⟩
    · exact ⟨.inl rfl, ⟨[], .nil, rfl⟩, le_rfl, rfl, rfl⟩
  | @char c' raw chars hc' hcarried =>
    rcases hr with ⟨rfl, hc, rfl⟩ | rfl
    · obtain ⟨rfl, rfl⟩ := List.cons.inj hrest
      exact ⟨.inl rfl, ⟨raw, hcarried, rfl⟩, le_rfl, rfl, rfl⟩
    · exact absurd (List.cons.inj hrest).1.symm hc'
  | @carriage d' raw chars hcarried =>
    rcases hr with ⟨rfl, hc, rfl⟩ | rfl
    · exact absurd (List.cons.inj hrest).1 hc
    · obtain ⟨rfl, rfl⟩ := List.cons.inj (List.cons.inj hrest).2
      exact ⟨.inl rfl, ⟨raw, hcarried, rfl⟩, le_rfl, rfl, rfl⟩

/-- The next character is counted. -/
theorem read_remains {s : ReadAheadStreamAdapter} {c d : UInt8} {r r' : Str} (h : s.Remains r)
    (hr : r = c :: r' ∧ c ≠ CR ∧ d = c ∨ r = CR :: d :: r') :
    ∃ x s', read s = (.ok x, s') ∧ (x = d.toNat ∨ x = toChar d) ∧ s'.Remains r' ∧
      s'.readAhead.length ≤ s.readAhead.length - 1 ∧ s'.eof = s.eof ∧ s'.fail = s.fail := by
  obtain ⟨hchar, hrest, hroom, heof, hfail⟩ := fetch_remains h hr
  have hrun : read s = (.ok (fetch s).1,
      if (fetch s).1 = '\n'.toNat then { (fetch s).2 with line := (fetch s).2.line + 1, column := 1 }
      else { (fetch s).2 with column := (fetch s).2.column + 1 }) := rfl
  refine ⟨_, _, hrun, hchar, ?_⟩
  split
  · exact ⟨hrest, hroom, heof, hfail⟩
  · exact ⟨hrest, hroom, heof, hfail⟩

theorem read_ascii {s : ReadAheadStreamAdapter} {c d : UInt8} {r r' : Str} (h : s.Remains r)
    (hr : r = c :: r' ∧ c ≠ CR ∧ d = c ∨ r = CR :: d :: r') (hd : d < 128) :
    ∃ s', read s = (.ok (d.toNat : Int), s') ∧ s'.Remains r' ∧
      s'.readAhead.length ≤ s.readAhead.length - 1 ∧ s'.eof = s.eof ∧ s'.fail = s.fail := by
  obtain ⟨x, s', hrun, hx, hs'⟩ := read_remains h hr
  rw [toChar_ascii hd, or_self] at hx
  exact ⟨s', hx ▸ hrun, hs'⟩

theorem toByte_of_read {c : UInt8} {x : Int} (h : x = c.toNat ∨ x = toChar c) : toByte x = c := by
  rcases h with rfl | rfl
  · exact toByte_toNat c
  · exact toByte_toChar c

theorem peek_remains {s : ReadAheadStreamAdapter} {c : UInt8} {r : Str} (h : s.Remains (c :: r))
    (hcr : c ≠ CR) : peek s = (.ok (toChar c), s) := by
  obtain ⟨raw, hraw, hrest⟩ := h
  rcases s with ⟨input, eof, fail, line, column, readAhead⟩
  simp only at hraw hrest
  cases hraw with
  | nil =>
    obtain rfl : c :: r = input := hrest
    rfl
  | char hc' _ =>
    obtain ⟨rfl, -⟩ := List.cons.inj hrest
    rfl
  | carriage _ => exact absurd (List.cons.inj hrest).1 hcr

/-- A character that is put back is to be read again. -/
theorem putback_remains {s : ReadAheadStreamAdapter} {c : UInt8} {r r' : Str} (h : s.Remains r)
    (hr : r' = c :: r ∧ c ≠ CR ∨ r' = CR :: c :: r) :
    8 ≤ s.readAhead.length ∧ putback c s = (.error .undefined, s) ∨
      ∃ s', putback c s = (.ok (), s') ∧ s'.Remains r' ∧
        s'.readAhead.length = s.readAhead.length + 1 ∧ s'.eof = s.eof ∧ s'.fail = s.fail := by
  unfold putback
  rw [bind_ok (get_run s)]
  by_cases hroom : 8 ≤ s.readAhead.length
  · exact .inl ⟨hroom, bind_error (by rw [throwIf_run, if_pos hroom])⟩
  · obtain ⟨raw, hraw, rfl⟩ := h
    have hrest : ∃ raw', Carried raw' (c :: s.readAhead) ∧ r' = raw' ++ s.input := by
      rcases hr with ⟨rfl, hcr⟩ | rfl
      · exact ⟨c :: raw, .char hcr hraw, rfl⟩
      · exact ⟨CR :: c :: raw, .carriage hraw, rfl⟩
    rw [bind_ok (by rw [throwIf_run, if_neg hroom])]
    refine .inr ⟨_, rfl, ?_⟩
    split
    · exact ⟨hrest, rfl, rfl, rfl⟩
    · exact ⟨hrest, rfl, rfl, rfl⟩

/-! ## What an operation gives -/

/-- On the text `r`, the operation returns `a` and leaves `r'`. -/
def Gives {α : Type} (n n' : Nat) (x : Cursor α) (r : Str) (a : α) (r' : Str) : Prop :=
  ∀ s, Reads n s r → ∃ s', x s = (.ok a, s') ∧ Reads n' s' r'

namespace Gives

variable {α β : Type} {n n' n'' : Nat} {r r' r'' : Str} {a : α} {b : β}

theorem pure (a : α) (h : n ≤ n') : Gives n n' (Pure.pure a : Cursor α) r a r :=
  fun s hs => ⟨s, rfl, hs.mono h⟩

theorem bind {x : Cursor α} {f : α → Cursor β} (hx : Gives n n' x r a r')
    (hf : Gives n' n'' (f a) r' b r'') : Gives n n'' (x >>= f) r b r'' := fun s hs => by
  obtain ⟨s₁, hrun₁, hs₁⟩ := hx s hs
  obtain ⟨s₂, hrun₂, hs₂⟩ := hf s₁ hs₁
  exact ⟨s₂, by rw [bind_ok hrun₁, hrun₂], hs₂⟩

theorem mono {x : Cursor α} {m m' : Nat} (h : Gives n n' x r a r') (hn : m ≤ n) (hn' : n' ≤ m') :
    Gives m m' x r a r' := fun s hs => by
  obtain ⟨s', hrun, hs'⟩ := h s (hs.mono hn)
  exact ⟨s', hrun, hs'.mono hn'⟩

theorem sized {loop : Nat → Cursor α}
    (h : ∀ k, (uncarried r).length + 2 ≤ k → Gives n n' (loop k) r a r') :
    Gives n n' (sized loop) r a r' := fun s hs => by
  obtain ⟨s', hrun, hs'⟩ := h s.size hs.le_size s hs
  exact ⟨s', (bind_ok (get_run s)).trans hrun, hs'⟩

/-! ### One character -/

theorem read_cases {c d : UInt8} (hr : r = c :: r' ∧ c ≠ CR ∧ d = c ∨ r = CR :: d :: r')
    (hd : d < 128) : Gives n (n - 1) read r (d.toNat : Int) r' := fun s hs => by
  obtain ⟨s', hrun, hrest, hroom, heof, hfail⟩ := read_ascii hs.rest hr hd
  exact ⟨s', hrun, hroom.trans (Nat.sub_le_sub_right hs.room 1), hrest, heof.trans hs.eof,
    hfail.trans hs.fail⟩

theorem read {c : UInt8} (hc : c < 128 ∧ c ≠ CR) : Gives n (n - 1) read (c :: r) (c.toNat : Int) r :=
  read_cases (.inl ⟨rfl, hc.2, rfl⟩) hc.1

theorem next_cases {c d : UInt8} (hr : r = c :: r' ∧ c ≠ CR ∧ d = c ∨ r = CR :: d :: r') :
    Gives n (n - 1) next r (some d) r' := fun s hs => by
  obtain ⟨x, s', hrun, hx, hrest, hroom, heof, hfail⟩ := read_remains hs.rest hr
  refine ⟨s', ?_, hroom.trans (Nat.sub_le_sub_right hs.room 1), hrest, heof.trans hs.eof,
    hfail.trans hs.fail⟩
  unfold next
  rw [bind_ok (get_run s), hs.eof]
  simp only [Bool.false_eq_true, if_false]
  rw [bind_ok hrun, toByte_of_read hx]
  rfl

theorem next {c : UInt8} (hc : c ≠ CR) : Gives n (n - 1) next (c :: r) (some c) r :=
  next_cases (.inl ⟨rfl, hc, rfl⟩)

theorem next_carriage (d : UInt8) : Gives n (n - 1) ReadAheadStreamAdapter.next (CR :: d :: r) (some d) r :=
  next_cases (c := 0) (.inr rfl)

theorem putback_cases {c : UInt8} (hn : n < 8)
    (hr : r' = c :: r ∧ c ≠ CR ∨ r' = CR :: c :: r) :
    Gives n (n + 1) (putback c) r () r' := fun s hs => by
  have hroom := hs.room
  rcases putback_remains hs.rest hr with ⟨hfull, -⟩ | ⟨s', hrun, hrest, hlength, heof, hfail⟩
  · omega
  · exact ⟨s', hrun, by omega, hrest, heof.trans hs.eof, hfail.trans hs.fail⟩

theorem putback {c : UInt8} (hcr : c ≠ CR) (hn : n < 8) :
    Gives n (n + 1) (putback c) r () (c :: r) :=
  putback_cases hn (.inl ⟨rfl, hcr⟩)

theorem peek {c : UInt8} (hc : c < 128 ∧ c ≠ CR) :
    Gives n n peek (c :: r) (c.toNat : Int) (c :: r) := fun s hs => by
  refine ⟨s, ?_, hs⟩
  rw [peek_remains hs.rest hc.2, toChar_ascii hc.1]

/-! ### Several characters -/

theorem putbackAll {buf : Str} (h : ∀ c ∈ buf, c ≠ CR) (hn : n + buf.length ≤ 8) :
    Gives n (n + buf.length) (putbackAll buf) r () (buf.reverse ++ r) := by
  induction buf generalizing n r with
  | nil => exact .pure () le_rfl
  | cons c buf ih =>
    rw [List.forall_mem_cons] at h
    rw [List.length_cons] at hn
    have hrest := ih (n := n + 1) (r := c :: r) h.2 (by omega)
    rw [List.reverse_cons, List.append_assoc, List.singleton_append, List.length_cons,
      Nat.add_comm buf.length, ← Nat.add_assoc]
    exact (putback h.1 (by omega)).bind hrest

theorem expectLoop_true {seq buf : Str} (h : ∀ c ∈ seq, c < 128 ∧ c ≠ CR)
    (hlength : buf.length + seq.length ≤ 256) :
    Gives n n (expectLoop seq buf) (seq ++ r) true r := by
  induction seq generalizing buf with
  | nil => exact .pure true le_rfl
  | cons p seq ih =>
    rw [List.forall_mem_cons] at h
    rw [List.length_cons] at hlength
    refine (read h.1).bind ?_
    rw [if_neg (by omega), if_neg (by omega), if_neg (by rw [toChar_ascii h.1.1]; simp)]
    refine (ih h.2 ?_).mono (Nat.sub_le n 1) le_rfl
    rw [List.length_cons]
    omega

theorem expect_true {seq : Str} (h : ∀ c ∈ seq, c < 128 ∧ c ≠ CR) (hlength : seq.length ≤ 256) :
    Gives n n (expect seq) (seq ++ r) true r :=
  expectLoop_true h (by rwa [List.length_nil, Nat.zero_add])

/-- A mismatch puts back everything. -/
theorem expectLoop_false {common rest buf : Str} {p c : UInt8}
    (h : ∀ x ∈ c :: common ++ buf, x < 128 ∧ x ≠ CR) (hne : toChar p ≠ c.toNat)
    (hn : n + buf.length ≤ 8) (hlength : buf.length + common.length < 8) :
    Gives n 8 (expectLoop (common ++ p :: rest) buf) (common ++ c :: r) false
      (buf.reverse ++ (common ++ c :: r)) := by
  induction common generalizing n buf with
  | nil =>
    have hc := h c (by simp)
    refine (read hc).bind ?_
    rw [if_neg (by omega), if_neg (by omega), if_pos hne, toByte_toNat]
    have hall : ∀ x ∈ c :: buf, x ≠ CR := fun x hx => (h x (by simpa using hx)).2
    have hback := putbackAll (n := n - 1) (r := r) hall (by
      rw [List.length_cons]
      simp only [List.length_nil] at hlength
      omega)
    rw [List.reverse_cons, List.append_assoc] at hback
    refine hback.bind (.pure false ?_)
    rw [List.length_cons]
    simp only [List.length_nil] at hlength
    omega
  | cons x common ih =>
    have hx := h x (by simp)
    refine (read hx).bind ?_
    rw [if_neg (by omega), if_neg (by omega), if_neg (by rw [toChar_ascii hx.1]; simp), toByte_toNat]
    have hrest : Gives (n - 1) 8 (expectLoop (common ++ p :: rest) (x :: buf)) (common ++ c :: r) false
        ((x :: buf).reverse ++ (common ++ c :: r)) := by
      refine ih (fun y hy => h y ?_) ?_ ?_
      · simp only [List.cons_append, List.mem_cons, List.mem_append] at hy ⊢
        tauto
      · rw [List.length_cons] at hlength ⊢
        omega
      · rw [List.length_cons] at hlength ⊢
        omega
    rwa [List.reverse_cons, List.append_assoc] at hrest

theorem expect_false {common rest : Str} {p c : UInt8}
    (h : ∀ x ∈ c :: common, x < 128 ∧ x ≠ CR) (hne : toChar p ≠ c.toNat)
    (hlength : common.length < 8) :
    Gives 8 8 (expect (common ++ p :: rest)) (common ++ c :: r) false (common ++ c :: r) := by
  have hloop : Gives 8 8 (expectLoop (common ++ p :: rest) []) (common ++ c :: r) false
      ([].reverse ++ (common ++ c :: r)) :=
    expectLoop_false (by simpa using h) hne le_rfl (by simpa using hlength)
  exact hloop

theorem skipWhite {w : Str} {c : UInt8} (hw : ∀ x ∈ w, x < 128 ∧ x ≠ CR ∧ isWhite x.toNat = true)
    (hc : c < 128) (hcr : c ≠ CR) (hwhite : isWhite c.toNat = false) :
    Gives 8 8 skipWhite (w ++ c :: r) () (c :: r) := by
  refine .sized fun k hk => ?_
  have hw' : w.length + 1 ≤ k := by
    have hcarriage : CR ∉ w := fun hm => (hw CR hm).2.1 rfl
    have := length_le_uncarried_append w c r hcr
    rw [uncarried_eq_self hcarriage] at this
    omega
  clear hk
  induction w generalizing k with
  | nil =>
    obtain ⟨k, rfl⟩ := Nat.exists_eq_succ_of_ne_zero (n := k) (by omega)
    intro s hs
    obtain ⟨s₁, hrun₁, hs₁⟩ := read ⟨hc, hcr⟩ s hs
    obtain ⟨s₂, hrun₂, hs₂⟩ := putback hcr (by omega) s₁ hs₁
    refine ⟨s₂, ?_, hs₂⟩
    unfold skipWhiteLoop
    rw [bind_ok hrun₁, ite_run, if_neg (by omega), bind_ok (get_run s₁), hwhite, Bool.and_false,
      if_neg Bool.false_ne_true, toByte_toNat]
    exact hrun₂
  | cons x w ih =>
    rw [List.length_cons] at hw'
    obtain ⟨k, rfl⟩ := Nat.exists_eq_succ_of_ne_zero (n := k) (by omega)
    rw [List.forall_mem_cons] at hw
    intro s hs
    obtain ⟨s₁, hrun₁, hs₁⟩ := read ⟨hw.1.1, hw.1.2.1⟩ s hs
    obtain ⟨s₂, hrun₂, hs₂⟩ := ih hw.2 k (by omega) s₁ (hs₁.mono (by omega))
    refine ⟨s₂, ?_, hs₂⟩
    unfold skipWhiteLoop
    rw [bind_ok hrun₁, ite_run, if_neg (by omega), bind_ok (get_run s₁), hs₁.fail, hw.1.2.2,
      Bool.not_false, Bool.and_true, if_pos rfl]
    exact hrun₂

theorem unless_fail {x y : Cursor α} (h : Gives n n' y r a r') :
    Gives n n' (do if (← get).fail then x else y) r a r' := fun s hs => by
  obtain ⟨s', hrun, hs'⟩ := h s hs
  refine ⟨s', ?_, hs'⟩
  rw [bind_ok (get_run s), hs.fail, if_neg Bool.false_ne_true]
  exact hrun

/-! ### Loops -/

variable {body : UInt8 → α → Cursor (Bool × α)} {a' a'' : α} {c : UInt8} {k : Nat}

theorem whileNext_go (hnext : Gives n n' ReadAheadStreamAdapter.next r (some c) r')
    (hbody : Gives n' 8 (body c a) r' (true, a') r') (hrest : Gives 8 n'' (whileNext body k a') r' a'' r'') :
    Gives n n'' (whileNext body (k + 1) a) r a'' r'' :=
  hnext.bind (hbody.bind hrest)

theorem whileNext_stop (hnext : Gives n n' ReadAheadStreamAdapter.next r (some c) r')
    (hbody : Gives n' n'' (body c a) r' (false, a') r'') :
    Gives n n'' (whileNext body (k + 1) a) r a' r'' :=
  hnext.bind (hbody.bind (.pure a' le_rfl))

end Gives

end ReadAheadStreamAdapter

end Wsrv
