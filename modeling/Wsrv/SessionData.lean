import Wsrv.Text
import Wsrv.Lib.Codec

/-!
# Serialised sessions

`SQLite3SessionManager` stores a dictionary as one blob: the count of its
entries, then key and value of each with their lengths in front, all numbers in
four little-endian bytes.  `deserialize_serialize`: what one host writes can be
read back on any host.
-/

namespace Wsrv

inductive Endian
  | little | big
  deriving DecidableEq, Repr

namespace SessionData

/-- The bytes of a `uint32_t` in the memory of the host. -/
def memory (host : Endian) (i : Nat) : Str :=
  match host with
  | .little => Codec.bytesLE 4 i
  | .big => (Codec.bytesLE 4 i).reverse

def ofMemory (host : Endian) (bs : Str) : Nat :=
  match host with
  | .little => Codec.ofBytesLE bs
  | .big => Codec.ofBytesLE bs.reverse

/-- `byte_swap_32` -/
def byteSwap32 (i : Nat) : Nat := Codec.ofBytesLE (Codec.bytesLE 4 i).reverse

/-- `write_uint32`, with the conversion of a `size_t` to its argument. -/
def writeUint32 (host : Endian) (i : Nat) : Str :=
  match host with
  | .little => memory host i
  | .big => memory host (byteSwap32 i)

def writeString (host : Endian) (s : Str) : Str := writeUint32 host s.length ++ s

/-- `serializeData` -/
def serializeData (host : Endian) (data : Dictionary) : Str :=
  writeUint32 host data.size ++
    data.toList.flatMap fun p => writeString host p.1 ++ writeString host p.2

/-- An `istringstream`. -/
structure IStream where
  rest : Str
  fail : Bool

def IStream.ofString (bs : Str) : IStream := ⟨bs, false⟩

/-- `strm.read` into `buf`: a short stream fills the front of the buffer and fails, and a failed
stream reads nothing. -/
def IStream.read (strm : IStream) (buf : Str) : Str × IStream :=
  if strm.fail then (buf, strm)
  else if buf.length ≤ strm.rest.length then
    (strm.rest.take buf.length, ⟨strm.rest.drop buf.length, false⟩)
  else (strm.rest ++ buf.drop strm.rest.length, ⟨[], true⟩)

/-- `read_uint32`; `junk` is in the memory of the local variable, which is not initialised. -/
def readUint32 (host : Endian) (junk : Nat) (strm : IStream) : Nat × IStream :=
  let (buf, strm) := strm.read (memory host junk)
  match host with
  | .little => (ofMemory host buf, strm)
  | .big => (byteSwap32 (ofMemory host buf), strm)

def readString (host : Endian) (junk : Nat) (strm : IStream) : Str × IStream :=
  let (len, strm) := readUint32 host junk strm
  strm.read (List.replicate len 0)

def readEntry (host : Endian) (junk : Nat) (strm : IStream) : (Str × Str) × IStream :=
  let (key, strm) := readString host junk strm
  let (val, strm) := readString host junk strm
  ((key, val), strm)

/-- `deserializeData` -/
def deserializeData (host : Endian) (junk : Nat) (data : Str) (dict : Dictionary) : Dictionary :=
  let (len, strm) := readUint32 host junk (IStream.ofString data)
  (Codec.foldReads (readEntry host junk) (fun d p => d.insert p.1 p.2) len dict strm).1

theorem memory_length (host : Endian) (i : Nat) : (memory host i).length = 4 := by
  cases host <;> simp [memory]

theorem IStream.read_append (bs rest buf : Str) (h : bs.length = buf.length) :
    (IStream.ofString (bs ++ rest)).read buf = (bs, IStream.ofString rest) := by
  simp [IStream.read, IStream.ofString, ← h]

/-- Both kinds of host write the number in little-endian order. -/
theorem writeUint32_eq (host : Endian) (i : Nat) : writeUint32 host i = Codec.bytesLE 4 i := by
  cases host with
  | little => rfl
  | big =>
    have hlen : (Codec.bytesLE 4 i).reverse.length = 4 := by simp
    have h := Codec.bytesLE_ofBytesLE (Codec.bytesLE 4 i).reverse
    rw [hlen] at h
    simp only [writeUint32, memory, byteSwap32, h, List.reverse_reverse]

theorem readUint32_inverts (host : Endian) (junk i : Nat) (h : i < 2 ^ 32) :
    Codec.Inverts IStream.ofString (readUint32 host junk) (writeUint32 host i) i := by
  intro rest
  have hlen : (Codec.bytesLE 4 i).length = (memory host junk).length := by
    rw [memory_length, Codec.length_bytesLE]
  have hi : Codec.ofBytesLE (Codec.bytesLE 4 i) = i := by
    rw [Codec.ofBytesLE_bytesLE]
    exact Nat.mod_eq_of_lt h
  rw [writeUint32_eq, readUint32, IStream.read_append _ _ _ hlen]
  cases host with
  | little => simp only [ofMemory, hi]
  | big =>
    have hrev := Codec.bytesLE_ofBytesLE (Codec.bytesLE 4 i).reverse
    rw [List.length_reverse, Codec.length_bytesLE] at hrev
    simp only [ofMemory, byteSwap32, hrev, List.reverse_reverse, hi]

theorem readString_inverts (host : Endian) (junk : Nat) (s : Str) (h : s.length < 2 ^ 32) :
    Codec.Inverts IStream.ofString (readString host junk) (writeString host s) s := by
  change Codec.Inverts _ (Codec.bindReads (readUint32 host junk) fun len strm =>
    strm.read (List.replicate len 0)) _ _
  refine (readUint32_inverts host junk s.length h).bind ?_
  intro rest
  exact IStream.read_append s rest _ (by simp)

/-- A dictionary whose entry count and lengths fit into 32 bits. -/
structure Fits (d : Dictionary) : Prop where
  size : d.size < 2 ^ 32
  key : ∀ p ∈ d.toList, p.1.length < 2 ^ 32
  val : ∀ p ∈ d.toList, p.2.length < 2 ^ 32

theorem readEntry_inverts (host : Endian) (junk : Nat) (p : Str × Str)
    (hkey : p.1.length < 2 ^ 32) (hval : p.2.length < 2 ^ 32) :
    Codec.Inverts IStream.ofString (readEntry host junk)
      (writeString host p.1 ++ writeString host p.2) p :=
  (readString_inverts host junk p.1 hkey).pair (readString_inverts host junk p.2 hval)

/-- Inserting the entries of a dictionary one by one builds it again. -/
theorem foldl_insert_toList (d : Dictionary) :
    d.toList.foldl (fun d p => d.insert p.1 p.2) (∅ : Dictionary) = d := by
  rw [← Std.ExtTreeMap.ofList_eq_foldl]
  refine Std.ExtTreeMap.ext_getElem? fun k => ?_
  cases hk : d[k]? with
  | none =>
    apply Std.ExtTreeMap.getElem?_ofList_of_contains_eq_false
    rw [Std.ExtTreeMap.map_fst_toList_eq_keys]
    simpa using hk
  | some v =>
    refine Std.ExtTreeMap.getElem?_ofList_of_mem Std.ReflCmp.compare_self
      Std.ExtTreeMap.distinct_keys_toList ?_
    exact Std.ExtTreeMap.mem_toList_iff_getElem?_eq_some.mpr hk

/-- The bytes do not depend on the host. -/
theorem serializeData_host (host host' : Endian) (d : Dictionary) :
    serializeData host d = serializeData host' d := by
  simp only [serializeData, writeString, writeUint32_eq]

/-- **What is written can be read back**, on hosts of either kind. -/
theorem deserialize_serialize (host host' : Endian) (junk : Nat) (d : Dictionary) (h : Fits d) :
    deserializeData host' junk (serializeData host d) ∅ = d := by
  have hentries : ∀ p ∈ d.toList, Codec.Inverts IStream.ofString (readEntry host' junk)
      (writeString host' p.1 ++ writeString host' p.2) p := fun p hp =>
    readEntry_inverts host' junk p (h.key p hp) (h.val p hp)
  have hfold := Codec.Inverts.counted (fun (d : Dictionary) p => d.insert p.1 p.2) d.toList
    hentries ∅ []
  rw [foldl_insert_toList, Std.ExtTreeMap.length_toList, List.append_nil] at hfold
  rw [serializeData_host host host', deserializeData, serializeData,
    readUint32_inverts host' junk d.size h.size]
  simp only [hfold]

/-- **Session data do not depend on hosts**: each reads what another has written, and all write the
same bytes. -/
theorem serializeData_portable (host host' : Endian) (junk : Nat) (d : Dictionary) (h : Fits d) :
    deserializeData host' junk (serializeData host d) ∅ = d ∧
      serializeData host d = serializeData host' d :=
  ⟨deserialize_serialize host host' junk d h, serializeData_host host host' d⟩

/-- A key that is empty, and a value with NUL bytes. -/
def nulData : Dictionary := (∅ : Dictionary).insert [] [0, 0, 0, 1]

theorem nulData_portable :
    serializeData .big nulData = [1, 0, 0, 0, 0, 0, 0, 0, 4, 0, 0, 0, 0, 0, 0, 1] ∧
      deserializeData .little 7 (serializeData .big nulData) ∅ = nulData :=
  ⟨by decide +kernel, (serializeData_portable .big .little 7 nulData
    ⟨by decide +kernel, by decide +kernel, by decide +kernel⟩).1⟩

end SessionData

end Wsrv
