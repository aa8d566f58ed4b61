import Mathlib

/-!
# Binary codecs

A writer turns a value into bytes, a reader takes a value from a stream.
`Inverts` says that the reader gives a value back and leaves the stream just
behind its bytes, whatever follows them; it composes over values that depend on
an earlier one, over pairs and over counted repetition (`Inverts.bind`,
`Inverts.pair`, `Inverts.counted`).  The base case is a number in a fixed count
of little-endian bytes.
-/

namespace Codec

/-! ## Numbers in little-endian order -/

/-- The `w` lowest bytes of a number, lowest first. -/
def bytesLE : Nat → Nat → List UInt8
  | 0, _ => []
  | w + 1, n => UInt8.ofNat n :: bytesLE w (n / 256)

def ofBytesLE (bs : List UInt8) : Nat := bs.foldr (fun b n => b.toNat + 256 * n) 0

@[simp] theorem length_bytesLE (w n : Nat) : (bytesLE w n).length = w := by
  induction w generalizing n with
  | zero => rfl
  | succ w ih => rw [bytesLE, List.length_cons, ih]

@[simp] theorem ofBytesLE_cons (b : UInt8) (bs : List UInt8) :
    ofBytesLE (b :: bs) = b.toNat + 256 * ofBytesLE bs := rfl

/-- **Reading back** gives the number up to the width. -/
theorem ofBytesLE_bytesLE (w n : Nat) : ofBytesLE (bytesLE w n) = n % 256 ^ w := by
  induction w generalizing n with
  | zero => simp [bytesLE, ofBytesLE, Nat.mod_one]
  | succ w ih =>
    have hb : (UInt8.ofNat n).toNat = n % 256 := by simp
    rw [bytesLE, ofBytesLE_cons, ih, hb, Nat.pow_succ', Nat.mod_mul]

theorem bytesLE_ofBytesLE (bs : List UInt8) : bytesLE bs.length (ofBytesLE bs) = bs := by
  induction bs with
  | nil => rfl
  | cons b bs ih =>
    have hb := b.toNat_lt
    rw [List.length_cons, bytesLE, ofBytesLE_cons]
    have hdiv : (b.toNat + 256 * ofBytesLE bs) / 256 = ofBytesLE bs := by omega
    rw [hdiv, ih]
    congr 1
    apply UInt8.toNat_inj.mp
    simp only [UInt8.toNat_ofNat']
    omega

theorem ofBytesLE_lt (bs : List UInt8) : ofBytesLE bs < 256 ^ bs.length := by
  induction bs with
  | nil => simp [ofBytesLE]
  | cons b bs ih =>
    have hb := b.toNat_lt
    rw [ofBytesLE_cons, List.length_cons, Nat.pow_succ]
    omega

/-! ## Readers that invert writers -/

variable {S α β : Type}

/-- `src bs` is a stream about to deliver `bs`.  The reader `get` takes `a` from the bytes `put`
and leaves the stream right behind them. -/
def Inverts (src : List UInt8 → S) (get : S → α × S) (put : List UInt8) (a : α) : Prop :=
  ∀ rest, get (src (put ++ rest)) = (a, src rest)

variable {src : List UInt8 → S}

/-- A reader that takes nothing. -/
theorem Inverts.pure (a : α) : Inverts src (fun s => (a, s)) [] a := fun _ => rfl

/-- Read one value, then another that may depend on it. -/
def bindReads (get : S → α × S) (get' : α → S → β × S) (s : S) : β × S :=
  get' (get s).1 (get s).2

theorem Inverts.bind {get : S → α × S} {put : List UInt8} {a : α} {get' : α → S → β × S}
    {put' : List UInt8} {b : β} (h : Inverts src get put a) (h' : Inverts src (get' a) put' b) :
    Inverts src (bindReads get get') (put ++ put') b := by
  intro rest
  rw [bindReads, List.append_assoc, h]
  exact h' rest

theorem Inverts.pair {get : S → α × S} {put : List UInt8} {a : α} {get' : S → β × S}
    {put' : List UInt8} {b : β} (h : Inverts src get put a) (h' : Inverts src get' put' b) :
    Inverts src (bindReads get fun a s => ((a, (get' s).1), (get' s).2)) (put ++ put') (a, b) := by
  refine h.bind ?_
  intro rest
  simp only [h' rest]

/-- Take `n` values and fold them into `d`. -/
def foldReads (get : S → α × S) (f : β → α → β) : Nat → β → S → β × S
  | 0, d, s => (d, s)
  | n + 1, d, s => foldReads get f n (f d (get s).1) (get s).2

/-- **Counted repetition**: as many values as there are, folded in their order. -/
theorem Inverts.counted {get : S → α × S} {put : α → List UInt8} (f : β → α → β)
    (as : List α) (h : ∀ a ∈ as, Inverts src get (put a) a) (d : β) :
    Inverts src (foldReads get f as.length d) (as.flatMap put) (as.foldl f d) := by
  induction as generalizing d with
  | nil => exact Inverts.pure d
  | cons a as ih =>
    intro rest
    have hrest := ih (fun b hb => h b (List.mem_cons_of_mem _ hb)) (f d a) rest
    rw [List.flatMap_cons, List.append_assoc, List.foldl_cons, List.length_cons, foldReads,
      h a List.mem_cons_self]
    exact hrest

end Codec
