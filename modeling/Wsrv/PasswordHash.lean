import Wsrv.Text
import Wsrv.Lib.Codec

/-!
# Password hashes

`passwordHash` writes a salt, a key that is derived from the password, and the
number of iterations in network order; `passwordVerify` reads the salt and the
number back and derives the key of another password with them.  The derivation
is a parameter, and the byte order of the host is another.

`hashCompare` goes up to the shorter length only, so that it takes a hash for
one that begins with it (`hashCompare_iff`).
-/

namespace Wsrv.Crypto

open Codec

/-! ## Numbers in memory -/

/-- The byte order of the host. -/
inductive ByteOrder
  | little | big
  deriving DecidableEq, Repr

namespace ByteOrder

/-- The bytes of a `uint32_t` in memory. -/
def store (host : ByteOrder) (v : UInt32) : Str :=
  match host with
  | little => bytesLE 4 v.toNat
  | big => (bytesLE 4 v.toNat).reverse

/-- The `uint32_t` that some bytes are. -/
def load (host : ByteOrder) (bs : Str) : UInt32 :=
  match host with
  | little => UInt32.ofNat (ofBytesLE bs)
  | big => UInt32.ofNat (ofBytesLE bs.reverse)

/-- `htonl`. -/
def htonl (host : ByteOrder) (v : UInt32) : UInt32 := host.load (big.store v)

/-- `ntohl`. -/
def ntohl (host : ByteOrder) (v : UInt32) : UInt32 := big.load (host.store v)

@[simp] theorem length_store (host : ByteOrder) (v : UInt32) : (host.store v).length = 4 := by
  cases host <;> simp [store]

theorem load_store (host : ByteOrder) (v : UInt32) : host.load (host.store v) = v := by
  cases host <;> simp [load, store, ofBytesLE_bytesLE]

theorem store_load (host : ByteOrder) {bs : Str} (h : bs.length = 4) :
    host.store (host.load bs) = bs := by
  have hbound : ∀ bs : Str, bs.length = 4 → bytesLE 4 (UInt32.ofNat (ofBytesLE bs)).toNat = bs := by
    intro bs h
    have hlt : ofBytesLE bs < 2 ^ 32 := by
      have := ofBytesLE_lt bs
      rw [h] at this
      omega
    rw [UInt32.toNat_ofNat_of_lt' hlt, ← h, bytesLE_ofBytesLE]
  cases host with
  | little => exact hbound bs h
  | big =>
    rw [load, store, hbound bs.reverse (by rw [List.length_reverse, h]), List.reverse_reverse]

/-- On every host a number in network order lies in memory with its highest byte first. -/
theorem store_htonl (host : ByteOrder) (v : UInt32) : host.store (host.htonl v) = big.store v :=
  host.store_load (length_store big v)

/-- **A number comes back** from network order. -/
theorem ntohl_htonl (host : ByteOrder) (v : UInt32) : host.ntohl (host.htonl v) = v := by
  rw [ntohl, store_htonl, load_store]

end ByteOrder

/-! ## The source -/

def saltLength : Nat := 16

/-- `SHA256::DIGESTSIZE`. -/
def DIGESTSIZE : Nat := 32

/-- A text of `n` bytes. -/
abbrev Bytes (n : Nat) := { s : Str // s.length = n }

/-- `PKCS5_PBKDF2_HMAC<SHA256>::DeriveKey` of a password, a salt and a number of iterations. -/
abbrev DeriveKey := Str → Str → UInt32 → Bytes DIGESTSIZE

/-- What is written into a buffer from a place on. -/
def overwrite (buffer : Str) (offset : Nat) (bytes : Str) : Str :=
  buffer.take offset ++ bytes ++ buffer.drop (offset + bytes.length)

/-- `buffer.resize(n)`. -/
def resize (buffer : Str) (n : Nat) : Str := buffer.take n ++ List.replicate (n - buffer.length) 0

/-- `passwordHash`; the salt is what `randomBytes` has given. -/
def passwordHash (host : ByteOrder) (deriveKey : DeriveKey) (salt : Bytes saltLength) (password : Str)
    (iterations : Nat) : Str :=
  let buffer := resize salt (DIGESTSIZE + saltLength + 4)
  let key := deriveKey password (buffer.take saltLength) (UInt32.ofNat iterations)
  let buffer := overwrite buffer saltLength key
  overwrite buffer (DIGESTSIZE + saltLength) (host.store (host.htonl (UInt32.ofNat iterations)))

/-- How many bytes of the key differ from those behind the salt. -/
def countDifferent (hash key : Str) : Nat :=
  (List.range DIGESTSIZE).foldl
    (fun ncount i => if hash[saltLength + i]? ≠ key[i]? then ncount + 1 else ncount) 0

/-- `passwordVerify`, or `none` where the assertion fails. -/
def passwordVerify (host : ByteOrder) (deriveKey : DeriveKey) (password hash : Str) : Option Bool :=
  if hash.length = DIGESTSIZE + saltLength + 4 then
    let iterations := host.ntohl (host.load ((hash.drop (DIGESTSIZE + saltLength)).take 4))
    let key := deriveKey password (hash.take saltLength) iterations
    some (countDifferent hash key == 0)
  else none

/-! ## The layout of a hash -/

variable (host : ByteOrder) (deriveKey : DeriveKey) (salt : Bytes saltLength)

/-- **A hash is the salt, the key and the number of iterations**, highest byte first. -/
theorem passwordHash_layout (password : Str) (iterations : Nat) :
    passwordHash host deriveKey salt password iterations =
      salt ++ (deriveKey password salt (UInt32.ofNat iterations) ++
        ByteOrder.big.store (UInt32.ofNat iterations)) := by
  obtain ⟨salt, hsalt⟩ := salt
  have hlen : salt.length = 16 := hsalt
  have hresize : resize salt (DIGESTSIZE + saltLength + 4) = salt ++ List.replicate 36 0 := by
    rw [resize, List.take_of_length_le (by rw [hlen]; decide), hlen]
    rfl
  have htake : (salt ++ List.replicate 36 (0 : UInt8)).take saltLength = salt := by
    rw [List.take_left' hsalt]
  unfold passwordHash
  simp only [hresize, htake, ByteOrder.store_htonl]
  obtain ⟨key, hkey⟩ := deriveKey password salt (UInt32.ofNat iterations)
  have hbuffer : overwrite (salt ++ List.replicate 36 0) saltLength key =
      (salt ++ key) ++ List.replicate 4 0 := by
    have hklen : key.length = 32 := hkey
    rw [overwrite, htake, ← List.drop_drop, List.drop_left' hsalt, List.drop_replicate, hklen]
  have hboth : (salt ++ key).length = DIGESTSIZE + saltLength := by
    rw [List.length_append, hsalt, hkey, Nat.add_comm]
  have hlast := ByteOrder.length_store .big (UInt32.ofNat iterations)
  simp only [hbuffer]
  rw [overwrite, List.take_left' hboth, ← List.drop_drop, List.drop_left' hboth, hlast,
    List.drop_replicate, List.replicate_zero, List.append_nil, List.append_assoc]

/-- What differs is counted once for each byte. -/
theorem countDifferent_eq_zero_iff {hash key : Str} (hkey : key.length = DIGESTSIZE) :
    countDifferent hash key = 0 ↔ (hash.drop saltLength).take DIGESTSIZE = key := by
  have hcount : ∀ (is : List Nat) (n : Nat),
      is.foldl (fun ncount i => if hash[saltLength + i]? ≠ key[i]? then ncount + 1 else ncount) n = 0 ↔
        n = 0 ∧ ∀ i ∈ is, hash[saltLength + i]? = key[i]? := by
    intro is
    induction is with
    | nil => simp
    | cons i is ih =>
      intro n
      rw [List.foldl_cons, ih, List.forall_mem_cons]
      by_cases hi : hash[saltLength + i]? = key[i]?
      · simp [hi]
      · simp [hi]
  rw [countDifferent, hcount, and_iff_right rfl]
  constructor
  · intro h
    apply List.ext_getElem?
    intro i
    by_cases hi : i < DIGESTSIZE
    · rw [List.getElem?_take_of_lt hi, List.getElem?_drop]
      exact h i (List.mem_range.mpr hi)
    · rw [List.getElem?_take_eq_none (by omega), List.getElem?_eq_none (by omega)]
  · intro h i hi
    rw [← h, List.getElem?_take_of_lt (List.mem_range.mp hi), List.getElem?_drop]

/-- **A password is verified** against a hash exactly where both derive the same key; the password
of the hash is. -/
theorem passwordVerify_iff (p q : Str) (n : UInt32) :
    (passwordHash host deriveKey salt p n.toNat).length = 52 ∧
      (passwordVerify host deriveKey q (passwordHash host deriveKey salt p n.toNat) = some true ↔
        deriveKey q salt n = deriveKey p salt n) ∧
      passwordVerify host deriveKey p (passwordHash host deriveKey salt p n.toNat) = some true := by
  have hn : UInt32.ofNat n.toNat = n := UInt32.ofNat_toNat
  have hlayout := passwordHash_layout host deriveKey salt p n.toNat
  rw [hn] at hlayout
  generalize passwordHash host deriveKey salt p n.toNat = hash at hlayout
  have hkey : (deriveKey p salt n : Str).length = DIGESTSIZE := (deriveKey p salt n).2
  have hnumber : (ByteOrder.big.store n).length = 4 := ByteOrder.length_store .big n
  have hlength : hash.length = DIGESTSIZE + saltLength + 4 := by
    rw [hlayout, List.length_append, List.length_append, salt.2, hkey, hnumber]
    rfl
  have hsalt : hash.take saltLength = salt := by rw [hlayout, List.take_left' salt.2]
  have hbehind : hash.drop saltLength = deriveKey p salt n ++ ByteOrder.big.store n := by
    rw [hlayout, List.drop_left' salt.2]
  have hiterations : host.ntohl (host.load ((hash.drop (DIGESTSIZE + saltLength)).take 4)) = n := by
    rw [Nat.add_comm, ← List.drop_drop, hbehind, List.drop_left' hkey, List.take_of_length_le hnumber.le]
    exact host.ntohl_htonl n
  have hverify : ∀ password, passwordVerify host deriveKey password hash = some true ↔
      deriveKey password salt n = deriveKey p salt n := by
    intro password
    unfold passwordVerify
    rw [if_pos hlength]
    simp only [hsalt, hiterations, Option.some.injEq, beq_iff_eq]
    rw [countDifferent_eq_zero_iff (deriveKey password salt n).2, hbehind, List.take_left' hkey,
      Subtype.ext_iff]
    exact eq_comm
  exact ⟨hlength, hverify q, (hverify p).mpr rfl⟩

/-! ## Comparing hashes -/

/-- The loop of `hashCompare`, where `i` and `ncount` are of type `uint`; `none` when it has not
ended in `n` turns. -/
def compareLoop (s1 s2 : Str) (len : Nat) : Nat → UInt32 → UInt32 → Option UInt32
  | 0, _, _ => none
  | n + 1, i, ncount =>
    if i.toNat < len then
      compareLoop s1 s2 len n (i + 1)
        (if s1.getD i.toNat 0 ≠ s2.getD i.toNat 0 then ncount + 1 else ncount)
    else some ncount

/-- `hashCompare`, with at most `n` turns of its loop. -/
def hashCompare (n : Nat) (s1 s2 : Str) : Option Bool :=
  (compareLoop s1 s2 (min s1.length s2.length) n 0 0).map (· == 0)

/-- `hashCompare` returns `b`. -/
def Returns (s1 s2 : Str) (b : Bool) : Prop := ∃ n, hashCompare n s1 s2 = some b

/-- It returns, and it says whether the hashes are equal. -/
def Compares (s1 s2 : Str) : Prop := ∃ b, Returns s1 s2 b ∧ (b = true ↔ s1 = s2)

variable {s1 s2 : Str} {len : Nat}

/-- More turns change nothing once the loop has ended. -/
theorem compareLoop_mono {n m : Nat} {i ncount r : UInt32} (h : compareLoop s1 s2 len n i ncount = some r)
    (hle : n ≤ m) : compareLoop s1 s2 len m i ncount = some r := by
  induction n generalizing m i ncount with
  | zero => cases h
  | succ n ih =>
    obtain ⟨m, rfl⟩ := Nat.exists_eq_succ_of_ne_zero (n := m) (by omega)
    rw [compareLoop] at h ⊢
    split at h
    · next hi =>
      rw [if_pos hi]
      exact ih h (by omega)
    · next hi =>
      rw [if_neg hi]
      exact h

theorem Returns.unique {b b' : Bool} (h : Returns s1 s2 b) (h' : Returns s1 s2 b') : b = b' := by
  obtain ⟨n, hn⟩ := h
  obtain ⟨m, hm⟩ := h'
  obtain ⟨r, hr, rfl⟩ := Option.map_eq_some_iff.mp hn
  obtain ⟨r', hr', rfl⟩ := Option.map_eq_some_iff.mp hm
  have heq := (compareLoop_mono hr (le_max_left n m)).symm.trans
    (compareLoop_mono hr' (le_max_right n m))
  rw [Option.some.inj heq]

/-- Behind `2 ^ 32 - 1` comes 0: the loop does not reach such a length. -/
theorem compareLoop_wraps (hlen : 2 ^ 32 ≤ len) (n : Nat) (i ncount : UInt32) :
    compareLoop s1 s2 len n i ncount = none := by
  induction n generalizing i ncount with
  | zero => rfl
  | succ n ih =>
    rw [compareLoop, if_pos (i.toNat_lt.trans_le hlen)]
    exact ih _ _

/-- By induction on the `d` turns that are left: no counter overflows, and what has been counted
is 0 when there was no difference. -/
theorem compareLoop_ends (s1 s2 : Str) (hlen : len < 2 ^ 32) (d : Nat) (i ncount : UInt32)
    (hi : i.toNat + d = len) (hcount : ncount.toNat ≤ i.toNat) :
    ∃ r, compareLoop s1 s2 len (d + 1) i ncount = some r ∧
      (r = 0 ↔ ncount = 0 ∧ ∀ j, i.toNat ≤ j → j < len → s1.getD j 0 = s2.getD j 0) := by
  induction d generalizing i ncount with
  | zero =>
    refine ⟨ncount, ?_, ?_⟩
    · rw [compareLoop, if_neg (by omega)]
    · refine ⟨fun h => ⟨h, fun j hj hlt => ?_⟩, And.left⟩
      omega
  | succ d ih =>
    have hnext : (i + 1).toNat = i.toNat + 1 := by
      rw [UInt32.toNat_add]
      exact Nat.mod_eq_of_lt (by change i.toNat + 1 < 2 ^ 32; omega)
    have hmore : (ncount + 1).toNat = ncount.toNat + 1 := by
      rw [UInt32.toNat_add]
      exact Nat.mod_eq_of_lt (by change ncount.toNat + 1 < 2 ^ 32; omega)
    have hsplit : (∀ j, i.toNat ≤ j → j < len → s1.getD j 0 = s2.getD j 0) ↔
        s1.getD i.toNat 0 = s2.getD i.toNat 0 ∧
          ∀ j, (i + 1).toNat ≤ j → j < len → s1.getD j 0 = s2.getD j 0 := by
      rw [hnext]
      constructor
      · exact fun h => ⟨h _ le_rfl (by omega), fun j hj => h j (by omega)⟩
      · rintro ⟨hfirst, hrest⟩ j hj hlt
        rcases hj.eq_or_lt with rfl | hj
        · exact hfirst
        · exact hrest j hj hlt
    rw [compareLoop, if_pos (by omega), hsplit]
    by_cases hne : s1.getD i.toNat 0 = s2.getD i.toNat 0
    · obtain ⟨r, hrun, hr⟩ := ih (i + 1) ncount (by omega) (by omega)
      rw [if_neg (not_not.mpr hne)]
      exact ⟨r, hrun, by rw [hr, and_iff_right hne]⟩
    · obtain ⟨r, hrun, hr⟩ := ih (i + 1) (ncount + 1) (by omega) (by omega)
      rw [if_pos hne]
      refine ⟨r, hrun, hr.trans ⟨fun h => ?_, fun h => absurd h.2.1 hne⟩⟩
      have hzero := congrArg UInt32.toNat h.1
      rw [hmore] at hzero
      exact absurd hzero (Nat.succ_ne_zero _)

theorem prefix_iff_agree (hle : s1.length ≤ s2.length) :
    s1 <+: s2 ↔ ∀ j < s1.length, s1.getD j 0 = s2.getD j 0 := by
  rw [List.prefix_iff_getElem]
  constructor
  · rintro ⟨_, h⟩ j hj
    rw [List.getD_eq_getElem _ _ hj, List.getD_eq_getElem _ _ (hj.trans_le hle)]
    exact h j hj
  · intro h
    refine ⟨hle, fun j hj => ?_⟩
    have hchar := h j hj
    rwa [List.getD_eq_getElem _ _ hj, List.getD_eq_getElem _ _ (hj.trans_le hle)] at hchar

theorem agree_of_le (hle : s1.length ≤ s2.length) :
    (∀ j < min s1.length s2.length, s1.getD j 0 = s2.getD j 0) ↔ s1 <+: s2 ∨ s2 <+: s1 := by
  rw [Nat.min_eq_left hle, ← prefix_iff_agree hle]
  refine ⟨.inl, fun h => h.elim id fun h => ?_⟩
  rw [h.eq_of_length (Nat.le_antisymm h.length_le hle)]

/-- Up to the shorter length, hashes agree when one begins with the other. -/
theorem agree_iff : (∀ j < min s1.length s2.length, s1.getD j 0 = s2.getD j 0) ↔
    s1 <+: s2 ∨ s2 <+: s1 := by
  rcases le_total s1.length s2.length with hle | hle
  · exact agree_of_le hle
  · rw [Nat.min_comm, or_comm, ← agree_of_le hle]
    exact forall₂_congr fun _ _ => eq_comm

/-- What `hashCompare` returns below `2 ^ 32`. -/
theorem returns_agree (h : min s1.length s2.length < 2 ^ 32) :
    Returns s1 s2 (decide (s1 <+: s2 ∨ s2 <+: s1)) := by
  obtain ⟨r, hrun, hr⟩ := compareLoop_ends s1 s2 h (min s1.length s2.length) 0 0
    (Nat.zero_add _) le_rfl
  have hagree : r = 0 ↔ s1 <+: s2 ∨ s2 <+: s1 := by
    rw [hr, and_iff_right rfl, ← agree_iff]
    exact ⟨fun h j hj => h j (Nat.zero_le j) hj, fun h j _ hj => h j hj⟩
  refine ⟨min s1.length s2.length + 1, ?_⟩
  rw [hashCompare, hrun, Option.map_some, ← decide_eq_decide.mpr hagree]
  rfl

/-- **`hashCompare` is equality** exactly for two hashes of which neither is a proper beginning of
the other and the shorter one is shorter than `2 ^ 32`. -/
theorem hashCompare_iff (s1 s2 : Str) : Compares s1 s2 ↔
    min s1.length s2.length < 2 ^ 32 ∧ (s1 <+: s2 ∨ s2 <+: s1 → s1 = s2) := by
  constructor
  · rintro ⟨b, hb, hequal⟩
    have hlen : min s1.length s2.length < 2 ^ 32 := by
      by_contra hge
      obtain ⟨n, hn⟩ := hb
      rw [hashCompare, compareLoop_wraps (Nat.not_lt.mp hge)] at hn
      cases hn
    rw [hb.unique (returns_agree hlen), decide_eq_true_iff] at hequal
    exact ⟨hlen, hequal.mp⟩
  · rintro ⟨hlen, hbegins⟩
    refine ⟨_, returns_agree hlen, ?_⟩
    rw [decide_eq_true_iff]
    refine ⟨hbegins, ?_⟩
    rintro rfl
    exact .inl List.prefix_rfl

/-- An empty hash passes for any other. -/
theorem empty_hash_passes : hashCompare 1 [] (str "token") = some true ∧ ¬ Compares [] (str "token") := by
  have hpasses : hashCompare 1 [] (str "token") = some true := by decide +kernel
  refine ⟨hpasses, ?_⟩
  rintro ⟨b, hb, hequal⟩
  have hnil := hequal.mp (hb.unique ⟨1, hpasses⟩)
  exact absurd hnil (by decide)

end Wsrv.Crypto
