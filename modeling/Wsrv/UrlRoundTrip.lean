import Wsrv.ClientUrl
import Wsrv.FormRoundTrip

/-!
# From a URL to its string and back

`URL::str` writes the parts of a URL behind each other and `URL::parse` takes
them apart.  A NUL is lost on the way back, the parser drops an argument with
an empty value and does not know about fragments, and it ends the protocol at
the first `://`.  Everything else returns (`str_parse_iff`).
-/

namespace Wsrv

/-! ## Building -/

/-- The members of `URLBuilder`. -/
structure URLBuilder where
  protocol : Str := []
  host : Str := []
  fragment : Str := []
  params : Dictionary := ∅
  segments : List Str := []
  port : Int := -1

/-- `URLBuilder::build`. -/
def URLBuilder.build (b : URLBuilder) : URL where
  host := b.host
  port := b.port
  protocol := b.protocol
  segments := b.segments
  params := b.params
  fragment := b.fragment

/-- What the parts of a URL have to be. -/
structure URLBuilder.WellFormed (b : URLBuilder) : Prop where
  protocol : b.protocol ≠ []
  host : b.host ≠ []
  host_colon : ':'.toUInt8 ∉ b.host
  host_slash : '/'.toUInt8 ∉ b.host
  port : b.port = -1 ∨ 0 < b.port ∧ b.port < 2 ^ 31
  segments : ∀ seg ∈ b.segments, seg ≠ []
  keys : ∀ k ∈ b.params, k ≠ []

namespace URL

/-! ## No NUL comes back -/

theorem splitLoop_no_nul (d s : Str) {token : Str} (h : 0 ∉ token) :
    ∀ t ∈ splitLoop d s token, 0 ∉ t := by
  induction s generalizing token with
  | nil =>
    unfold splitLoop
    split
    · simp
    · simpa using h
  | cons c s ih =>
    unfold splitLoop
    split
    · split
      · exact ih (by simp)
      · rw [List.forall_mem_cons]
        exact ⟨h, ih (by simp)⟩
    · rename_i hc
      refine ih ?_
      rw [List.mem_append, List.mem_singleton]
      rintro (hm | h0)
      · exact h hm
      · exact hc (.inl h0.symm)

theorem parsePathLoop_no_nul {tokens segments segments' : List Str}
    (h : parsePathLoop tokens segments = some segments') (hs : ∀ s ∈ segments, 0 ∉ s) :
    ∀ s ∈ segments', 0 ∉ s := by
  induction tokens generalizing segments with
  | nil =>
    obtain rfl := Option.some.inj h
    exact hs
  | cons t tokens ih =>
    unfold parsePathLoop at h
    split at h
    · exact ih h hs
    · split at h
      · rename_i seg hseg
        refine ih h fun s hm => ?_
        rcases List.mem_append.mp hm with hm | hm
        · exact hs s hm
        · rw [List.mem_singleton.mp hm]
          exact urlDecode_no_nul t seg hseg
      · cases h

/-- Neither a key nor a value has a NUL. -/
def NoNul (d : Dictionary) : Prop := ∀ k v : Str, d[k]? = some v → 0 ∉ k ∧ 0 ∉ v

theorem noNul_empty : NoNul ∅ := fun k v h => by simp at h

theorem NoNul.insertIfNew {d : Dictionary} (h : NoNul d) {k v : Str} (hk : 0 ∉ k) (hv : 0 ∉ v) :
    NoNul (d.insertIfNew k v) := by
  intro k' v' h'
  rw [Std.ExtTreeMap.getElem?_insertIfNew] at h'
  split at h'
  · rename_i hc
    obtain rfl := Std.LawfulEqCmp.eq_of_compare hc.1
    obtain rfl := Option.some.inj h'
    exact ⟨hk, hv⟩
  · exact h k' v' h'

theorem parseQueryLoop_no_nul {tokens : List Str} {d d' : Dictionary}
    (h : parseQueryLoop tokens d = some d') (hd : NoNul d) : NoNul d' := by
  induction tokens generalizing d with
  | nil =>
    obtain rfl := Option.some.inj h
    exact hd
  | cons t tokens ih =>
    unfold parseQueryLoop at h
    split at h
    · split at h
      · rename_i hk hv
        exact ih h (hd.insertIfNew (urlDecode_no_nul _ _ hk) (urlDecode_no_nul _ _ hv))
      · cases h
    · exact ih h hd

theorem parsePath_no_nul {p : Str} {segments : List Str} (h : parsePath p = some segments) :
    ∀ s ∈ segments, 0 ∉ s := by
  unfold parsePath at h
  split at h
  · obtain rfl := Option.some.inj h
    simp
  · exact parsePathLoop_no_nul h (by simp)

theorem parseFile_no_nul {file : Str} {segments : List Str} {params : Dictionary}
    (h : parseFile file = some (segments, params)) : (∀ s ∈ segments, 0 ∉ s) ∧ NoNul params := by
  unfold parseFile at h
  split at h
  · obtain ⟨segs, hsegs, heq⟩ := Option.map_eq_some_iff.mp h
    cases heq
    exact ⟨parsePath_no_nul hsegs, noNul_empty⟩
  · split at h
    · rename_i hsegs hparams
      cases h
      exact ⟨parsePath_no_nul hsegs, parseQueryLoop_no_nul hparams noNul_empty⟩
    · cases h

/-- No part of a URL that is parsed has a NUL, except for the protocol. -/
theorem parse_no_nul {s : Str} {u : URL} (h : parse s = .ok u) :
    0 ∉ u.host ∧ (∀ seg ∈ u.segments, 0 ∉ seg) ∧ NoNul u.params := by
  obtain ⟨protocol, rest, hrest⟩ := parse_cases h
  obtain ⟨-, -, ⟨tokens, htokens⟩, hfile⟩ := parseRest_cases hrest
  refine ⟨splitLoop_no_nul _ _ (by simp) u.host (htokens ▸ List.mem_cons_self), ?_⟩
  rcases hfile with ⟨hsegs, hparams⟩ | ⟨file, hfile⟩
  · rw [hsegs, hparams]
    exact ⟨by simp, noNul_empty⟩
  · exact parseFile_no_nul hfile

/-! ## The protocol -/

/-- A text that is cut at the first `://`. -/
theorem findText_protocol (p rest : Str) :
    ∃ pos, findText (Wsrv.str "://") (p ++ Wsrv.str "://" ++ rest) = some pos ∧
      (Wsrv.str "://" <:+: p ∧ pos < p.length ∨ ¬ Wsrv.str "://" <:+: p ∧ pos = p.length) := by
  induction p with
  | nil => exact ⟨0, rfl, .inr ⟨by decide, rfl⟩⟩
  | cons c p ih =>
    obtain ⟨pos, hpos, hcut⟩ := ih
    rw [List.cons_append, List.cons_append, findText]
    -- the mark cannot begin in the protocol and end behind it
    have hslash : '/'.toUInt8 ≠ ':'.toUInt8 := by decide
    have hstart : (Wsrv.str "://").isPrefixOf (c :: (p ++ Wsrv.str "://" ++ rest)) = true ↔
        Wsrv.str "://" <+: c :: p := by
      rw [List.isPrefixOf_iff_prefix]
      match p with
      | [] => simp [Wsrv.str, List.cons_prefix_cons, hslash]
      | [d] => simp [Wsrv.str, List.cons_prefix_cons, hslash]
      | d :: e :: p => simp [Wsrv.str, List.cons_prefix_cons]
    by_cases hc : Wsrv.str "://" <+: c :: p
    · rw [if_pos (hstart.mpr hc)]
      exact ⟨0, rfl, .inl ⟨hc.isInfix, by simp⟩⟩
    · rw [if_neg (fun h => hc (hstart.mp h)), hpos]
      refine ⟨pos + 1, rfl, ?_⟩
      simpa only [List.infix_cons_iff, hc, false_or, List.length_cons, Nat.add_lt_add_iff_right,
        Nat.add_right_cancel_iff] using hcut

/-! ## There and back -/

/-- What is left of a part that is encoded and decoded. -/
def strip (s : Str) : Str := s.filter (· ≠ 0)

theorem strip_eq_self (s : Str) : strip s = s ↔ 0 ∉ s := by
  rw [strip, List.filter_eq_self]
  exact ⟨fun h h0 => by simpa using h 0 h0,
    fun h c hc => by simpa using fun h0 : c = 0 => h (h0 ▸ hc)⟩

theorem urlDecode_urlEncode (s : Str) : urlDecode (urlEncode s) = some (strip s) := by
  rw [urlDecode_eq, cstr_of_no_nul (not_mem_urlEncode (by decide) s), percentDecode_urlEncode]
  rfl

theorem urlEncode_ne_nil {s : Str} (h : s ≠ []) : urlEncode s ≠ [] := by
  rintro he
  have hlength := length_le_urlEncode s
  rw [he] at hlength
  exact h (List.length_eq_zero_iff.mp (by simpa using hlength))

theorem parsePathLoop_encoded {segs : List Str} (h : ∀ seg ∈ segs, seg ≠ []) (acc : List Str) :
    parsePathLoop (segs.map urlEncode) acc = some (acc ++ segs.map strip) := by
  induction segs generalizing acc with
  | nil => simp [parsePathLoop]
  | cons seg segs ih =>
    rw [List.forall_mem_cons] at h
    rw [List.map_cons, parsePathLoop, if_neg (urlEncode_ne_nil h.1), urlDecode_urlEncode]
    simp [ih h.2]

/-- The pieces of a string that is joined at a character none of them has. -/
theorem split_joined {d : UInt8} {ps : List Str} (h : ∀ p ∈ ps, p ≠ [] ∧ d ∉ p ∧ 0 ∉ p)
    (hd : d ≠ 0) : split ([d].intercalate ps) [d] = ps := by
  have hnul : 0 ∉ [d].intercalate ps := by
    rw [← join_eq_intercalate]
    intro hm
    rcases mem_join hm with hm | ⟨p, hp, hm⟩
    · exact hd (List.mem_singleton.mp hm).symm
    · exact (h p hp).2.2 hm
  rw [split_singleton d hnul]
  cases ps with
  | nil => rfl
  | cons p ps =>
    rw [List.splitOn_intercalate d (fun p hp => (h p hp).2.1) (by simp), List.filter_eq_self]
    exact fun p hp => by simpa using (h p hp).1

theorem parsePath_encoded {segs : List Str} (h : ∀ seg ∈ segs, seg ≠ []) :
    parsePath (['/'.toUInt8].intercalate (segs.map urlEncode)) = some (segs.map strip) := by
  have hsplit : split (['/'.toUInt8].intercalate (segs.map urlEncode)) (Wsrv.str "/") =
      segs.map urlEncode := by
    refine split_joined (fun p hp => ?_) (by decide)
    obtain ⟨seg, hseg, rfl⟩ := List.mem_map.mp hp
    exact ⟨urlEncode_ne_nil (h seg hseg), not_mem_urlEncode (by decide) seg,
      not_mem_urlEncode (by decide) seg⟩
  unfold parsePath
  split
  · rename_i hempty
    rw [hempty] at hsplit
    have hsegs : segs = [] := List.map_eq_nil_iff.mp hsplit.symm
    rw [hsegs]
    rfl
  · rw [hsplit, parsePathLoop_encoded h]
    rfl

/-- An argument whose value is empty is not taken for one. -/
theorem split_encodedPair {kv : Str × Str} (h : kv.1 ≠ []) :
    split (encodedPair kv) (Wsrv.str "=") =
      if kv.2 = [] then [urlEncode kv.1] else [urlEncode kv.1, urlEncode kv.2] := by
  have hpair : encodedPair kv = [equal].intercalate [urlEncode kv.1, urlEncode kv.2] := by
    simp [encodedPair]
  have hnul : 0 ∉ encodedPair kv := RequestParser.not_mem_encodedPair (by decide) (by decide) kv
  have hsplit : (encodedPair kv).splitOn equal = [urlEncode kv.1, urlEncode kv.2] := by
    rw [hpair]
    exact List.splitOn_intercalate equal (by simp [RequestParser.equal_not_mem_urlEncode]) (by simp)
  have hone : split (encodedPair kv) (Wsrv.str "=") = split (encodedPair kv) [equal] := rfl
  rw [hone, split_singleton equal hnul, hsplit]
  split
  · rename_i hv
    have hnil : urlEncode kv.2 = [] := by rw [hv]; rfl
    simp [hnil, urlEncode_ne_nil h]
  · rename_i hv
    simp [urlEncode_ne_nil h, urlEncode_ne_nil hv]

/-- The arguments that are read back. -/
def kept (kvs : List (Str × Str)) : List (Str × Str) :=
  (kvs.filter (·.2 ≠ [])).map fun kv => (strip kv.1, strip kv.2)

theorem parseQueryLoop_encoded {kvs : List (Str × Str)} (h : ∀ kv ∈ kvs, kv.1 ≠ [])
    (d : Dictionary) : parseQueryLoop (kvs.map encodedPair) d =
      some ((kept kvs).foldl (fun d kv => d.insertIfNew kv.1 kv.2) d) := by
  induction kvs generalizing d with
  | nil => rfl
  | cons kv kvs ih =>
    rw [List.forall_mem_cons] at h
    rw [List.map_cons, parseQueryLoop, split_encodedPair h.1]
    by_cases hv : kv.2 = []
    · simp [hv, ih h.2, kept]
    · simp [hv, ih h.2, kept, urlDecode_urlEncode]

theorem parseQuery_encoded {params : Dictionary} (h : ∀ kv ∈ params.toList, kv.1 ≠ []) :
    parseQueryLoop (split ([amp].intercalate (params.toList.map encodedPair)) (Wsrv.str "&")) ∅ =
      some ((kept params.toList).foldl (fun d kv => d.insertIfNew kv.1 kv.2) ∅) := by
  have hsplit : split ([amp].intercalate (params.toList.map encodedPair)) (Wsrv.str "&") =
      params.toList.map encodedPair := by
    refine split_joined (fun p hp => ?_) (by decide)
    obtain ⟨kv, -, rfl⟩ := List.mem_map.mp hp
    exact ⟨by simp [encodedPair], RequestParser.not_mem_encodedPair (by decide) (by decide) kv,
      RequestParser.not_mem_encodedPair (by decide) (by decide) kv⟩
  rw [hsplit, parseQueryLoop_encoded h]

/-! ## The parts of the string -/

/-- The port, as `str` writes it. -/
def portText (port : Int) : Str := if port > 0 then Wsrv.str ":" ++ toString port.toNat else []

theorem not_mem_portText (port : Int) {c : UInt8} (hcolon : c ≠ ':'.toUInt8)
    (hdigit : isdigit c = false) : c ∉ portText port := by
  unfold portText
  split
  · rw [List.mem_append]
    rintro (hm | hm)
    · exact hcolon (List.mem_singleton.mp hm)
    · simp [toString_isdigit _ _ hm] at hdigit
  · simp

/-- The host and the port are read back. -/
theorem split_authority {b : URLBuilder} (h : b.WellFormed) (hhost : 0 ∉ b.host) :
    ∃ tokens, split (b.host ++ portText b.port) (Wsrv.str ":") = b.host :: tokens ∧
      parsePort tokens = .ok b.port := by
  have hpiece : b.host ≠ [] ∧ ':'.toUInt8 ∉ b.host ∧ 0 ∉ b.host := ⟨h.host, h.host_colon, hhost⟩
  unfold portText
  rcases h.port with hport | ⟨hpos, hbound⟩
  · refine ⟨[], ?_, by rw [hport]; rfl⟩
    rw [if_neg (by omega), List.append_nil]
    have hjoin : split ([':'.toUInt8].intercalate [b.host]) [':'.toUInt8] = [b.host] :=
      split_joined (by simpa using hpiece) (by decide)
    rwa [List.intercalate_singleton] at hjoin
  · refine ⟨[toString b.port.toNat], ?_, ?_⟩
    · have hdigits : toString b.port.toNat ≠ [] ∧ ':'.toUInt8 ∉ toString b.port.toNat ∧
          0 ∉ toString b.port.toNat := by
        refine ⟨by simp [toString, Nat.toDigits_ne_nil], fun hm => ?_, fun hm => ?_⟩
        · exact absurd (toString_isdigit _ _ hm) (by decide)
        · exact absurd (toString_isdigit _ _ hm) (by decide)
      have hjoin : split ([':'.toUInt8].intercalate [b.host, toString b.port.toNat]) [':'.toUInt8] =
          [b.host, toString b.port.toNat] :=
        split_joined (by simpa using ⟨hpiece, hdigits⟩) (by decide)
      rw [if_pos hpos, ← hjoin]
      simp [Wsrv.str]
    · rw [parsePort, stoi_toString, if_pos (by omega), Int.toNat_of_nonneg (by omega)]

/-- The path and the query are read back without their NUL bytes, and the arguments without a value
are missing. -/
theorem parseFile_file {b : URLBuilder} (h : b.WellFormed) (hfragment : b.fragment = []) :
    parseFile (b.build.file true) = some (b.segments.map strip,
      (kept b.params.toList).foldl (fun d kv => d.insertIfNew kv.1 kv.2) ∅) := by
  have hkeys := RequestParser.toList_keys_ne_nil h.keys
  have hpath : b.build.makePathString true = ['/'.toUInt8].intercalate (b.segments.map urlEncode) :=
    makePathString_join _ _
  have hquery := makeQueryString_eq b.build
  have hmark : '?'.toUInt8 ∉ b.build.makePathString true := by
    rw [hpath, ← join_eq_intercalate]
    intro hm
    rcases mem_join hm with hm | ⟨p, hp, hm⟩
    · exact absurd (List.mem_singleton.mp hm) (by decide)
    · obtain ⟨seg, -, rfl⟩ := List.mem_map.mp hp
      exact not_mem_urlEncode (by decide) seg hm
  unfold file
  rw [if_pos (show b.build.fragment = [] from hfragment)]
  by_cases hparams : b.build.makeQueryString true = []
  · have hnone : b.params.toList = [] := by
      rw [hquery] at hparams
      cases hlist : b.params.toList with
      | nil => rfl
      | cons kv kvs =>
        have hlist' : b.build.params.toList = kv :: kvs := hlist
        rw [hlist', List.map_cons, intercalate_cons_flatMap] at hparams
        simp [encodedPair] at hparams
    rw [if_pos hparams, parseFile, find, if_neg hmark, hpath, parsePath_encoded h.segments, hnone]
    rfl
  · have hfind : find (b.build.makePathString true ++ Wsrv.str "?" ++ b.build.makeQueryString true)
        '?'.toUInt8 = some (b.build.makePathString true).length := by
      rw [List.append_assoc]
      exact RequestParser.find_append_cons hmark _
    rw [if_neg hparams, parseFile, hfind]
    simp only
    rw [List.append_assoc, List.take_left' rfl, List.drop_append, List.drop_of_length_le (by simp),
      Nat.add_sub_cancel_left, hpath, parsePath_encoded h.segments, hquery]
    have hdrop : List.drop 1 (Wsrv.str "?" ++ [amp].intercalate (b.build.params.toList.map encodedPair)) =
        [amp].intercalate (b.params.toList.map encodedPair) := rfl
    rw [List.nil_append, hdrop, parseQuery_encoded hkeys]

theorem str_eq {b : URLBuilder} (h : b.WellFormed) :
    b.build.str true = b.protocol ++ Wsrv.str "://" ++
      (b.host ++ portText b.port ++ '/'.toUInt8 :: b.build.file true) := by
  have hp : b.build.protocol ≠ [] := h.protocol
  rw [URL.str, if_neg hp]
  simp [portText, URLBuilder.build, Wsrv.str]

/-- What `parse` gives for the string of a URL without a fragment. -/
theorem parse_str {b : URLBuilder} (h : b.WellFormed) (hprotocol : ¬ Wsrv.str "://" <:+: b.protocol)
    (hhost : 0 ∉ b.host) (hfragment : b.fragment = []) :
    parse (b.build.str true) = .ok
      { b.build with
        segments := b.segments.map strip
        params := (kept b.params.toList).foldl (fun d kv => d.insertIfNew kv.1 kv.2) ∅ } := by
  obtain ⟨pos, hpos, hcut⟩ := findText_protocol b.protocol
    (b.host ++ portText b.port ++ '/'.toUInt8 :: b.build.file true)
  obtain rfl : pos = b.protocol.length := (hcut.resolve_left fun hc => hprotocol hc.1).2
  have hslash : '/'.toUInt8 ∉ b.host ++ portText b.port := by
    rw [List.mem_append]
    rintro (hm | hm)
    · exact h.host_slash hm
    · exact not_mem_portText _ (by decide) (by decide) hm
  have hfind := RequestParser.find_append_cons hslash (b.build.file true)
  obtain ⟨tokens, hsplit, hport⟩ := split_authority h hhost
  have hauthority : authority (b.host ++ portText b.port ++ '/'.toUInt8 :: b.build.file true) =
      b.host ++ portText b.port := by
    unfold authority
    rw [hfind]
    exact List.take_left' rfl
  have hbehind : (b.host ++ portText b.port ++ '/'.toUInt8 :: b.build.file true).drop
      ((b.host ++ portText b.port).length + 1) = b.build.file true := by
    rw [List.drop_append, List.drop_of_length_le (by omega), Nat.add_sub_cancel_left]
    rfl
  have htake : (b.protocol ++ Wsrv.str "://" ++
      (b.host ++ portText b.port ++ '/'.toUInt8 :: b.build.file true)).take b.protocol.length =
        b.protocol := by
    rw [List.append_assoc, List.take_left' rfl]
  have hdrop : (b.protocol ++ Wsrv.str "://" ++
      (b.host ++ portText b.port ++ '/'.toUInt8 :: b.build.file true)).drop (b.protocol.length + 3) =
        b.host ++ portText b.port ++ '/'.toUInt8 :: b.build.file true :=
    List.drop_left' (by simp [Wsrv.str])
  rw [str_eq h, parse, hpos]
  simp only
  rw [htake, hdrop, parseRest, hauthority, hsplit]
  simp only
  rw [hport]
  simp only
  rw [hfind]
  simp only
  rw [hbehind, parseFile_file h hfragment]
  simp only [URLBuilder.build, hfragment]

/-- The protocol that is read ends at the first `://`. -/
theorem parse_protocol {b : URLBuilder} (h : b.WellFormed) {u : URL}
    (hparse : parse (b.build.str true) = .ok u) (hprotocol : u.protocol = b.protocol) :
    ¬ Wsrv.str "://" <:+: b.protocol := by
  intro hc
  obtain ⟨pos, hpos, hcut⟩ := findText_protocol b.protocol
    (b.host ++ portText b.port ++ '/'.toUInt8 :: b.build.file true)
  have hlt := (hcut.resolve_right fun hn => hn.1 hc).2
  rw [str_eq h, parse, hpos] at hparse
  have hread := (parseRest_cases hparse).1
  have hlength := congrArg List.length (hread.symm.trans hprotocol)
  rw [List.length_take] at hlength
  omega

/-- Without NUL bytes, nothing but the arguments without a value is missing. -/
theorem kept_eq_iff {params : Dictionary} (h : ∀ kv ∈ params.toList, 0 ∉ kv.1 ∧ 0 ∉ kv.2) :
    (kept params.toList).foldl (fun d kv => d.insertIfNew kv.1 kv.2) ∅ = params ↔
      ∀ kv ∈ params.toList, kv.2 ≠ [] := by
  have hkept : kept params.toList = params.toList.filter (·.2 ≠ []) := by
    refine (List.map_congr_left fun kv hm => ?_).trans (List.map_id _)
    obtain ⟨hk, hv⟩ := h kv (List.mem_of_mem_filter hm)
    rw [(strip_eq_self _).mpr hk, (strip_eq_self _).mpr hv]
    rfl
  have hkeys : ((params.toList.filter (·.2 ≠ [])).map Prod.fst).Nodup := by
    have hdistinct : (params.toList.map Prod.fst).Nodup := by
      rw [List.Nodup, List.pairwise_map]
      refine params.distinct_keys_toList.imp fun hne he => hne ?_
      rw [he]
      exact Std.ReflCmp.compare_self
    exact hdistinct.sublist (List.filter_sublist.map _)
  have hlookup (k v : Str) : ((params.toList.filter (·.2 ≠ [])).foldl
      (fun d kv => d.insertIfNew kv.1 kv.2) (∅ : Dictionary))[k]? = some v ↔
        (k, v) ∈ params.toList ∧ v ≠ [] := by
    rw [foldl_insertIfNew_eq_some_iff hkeys, List.mem_filter]
    simp
  rw [hkept]
  constructor
  · rintro heq ⟨k, v⟩ hm
    refine ((hlookup k v).mp ?_).2
    rw [heq]
    exact Std.ExtTreeMap.mem_toList_iff_getElem?_eq_some.mp hm
  · intro hvalues
    refine Std.ExtTreeMap.ext_getElem? fun k => Option.ext fun v => ?_
    rw [hlookup, Std.ExtTreeMap.mem_toList_iff_getElem?_eq_some]
    exact and_iff_left_of_imp fun hv =>
      hvalues (k, v) (Std.ExtTreeMap.mem_toList_iff_getElem?_eq_some.mpr hv)

/-- **A URL comes back from its string**, if and only if it has no fragment, no argument with an
empty value, no NUL outside of the protocol, and no `://` inside of it. -/
theorem str_parse_iff (b : URLBuilder) (h : b.WellFormed) :
    parse (b.build.str true) = .ok b.build ↔
      b.fragment = [] ∧ ¬ Wsrv.str "://" <:+: b.protocol ∧ 0 ∉ b.host ∧
        (∀ seg ∈ b.segments, 0 ∉ seg) ∧
          ∀ kv ∈ b.params.toList, 0 ∉ kv.1 ∧ 0 ∉ kv.2 ∧ kv.2 ≠ [] := by
  constructor
  · intro hparse
    have hfragment : b.fragment = [] := parse_fragment hparse
    have hprotocol := parse_protocol h hparse rfl
    obtain ⟨hhost, hsegments, hnul⟩ := parse_no_nul hparse
    have hparams : ∀ kv ∈ b.params.toList, 0 ∉ kv.1 ∧ 0 ∉ kv.2 := fun kv hm =>
      hnul _ _ (Std.ExtTreeMap.mem_toList_iff_getElem?_eq_some.mp hm)
    have hread := Except.ok.inj ((parse_str h hprotocol hhost hfragment).symm.trans hparse)
    have hvalues := (kept_eq_iff hparams).mp (congrArg URL.params hread)
    exact ⟨hfragment, hprotocol, hhost, hsegments,
      fun kv hm => ⟨(hparams kv hm).1, (hparams kv hm).2, hvalues kv hm⟩⟩
  · rintro ⟨hfragment, hprotocol, hhost, hsegments, hparams⟩
    have hstrip : b.segments.map strip = b.segments :=
      (List.map_congr_left fun seg hm => (strip_eq_self seg).mpr (hsegments seg hm)).trans
        (List.map_id _)
    rw [parse_str h hprotocol hhost hfragment, hstrip,
      (kept_eq_iff fun kv hm => ⟨(hparams kv hm).1, (hparams kv hm).2.1⟩).mpr
        fun kv hm => (hparams kv hm).2.2]
    rfl

/-- `https://a.org:8080/b%2Fc?q=1%262`. -/
def searchUrl : URLBuilder where
  protocol := Wsrv.str "https"
  host := Wsrv.str "a.org"
  port := 8080
  segments := [Wsrv.str "b/c"]
  params := (∅ : Dictionary).insertIfNew (Wsrv.str "q") (Wsrv.str "1&2")

theorem search_returns :
    parse (searchUrl.build.str true) = .ok searchUrl.build ↔
      searchUrl.fragment = [] ∧ ¬ Wsrv.str "://" <:+: searchUrl.protocol ∧ 0 ∉ searchUrl.host ∧
        (∀ seg ∈ searchUrl.segments, 0 ∉ seg) ∧
          ∀ kv ∈ searchUrl.params.toList, 0 ∉ kv.1 ∧ 0 ∉ kv.2 ∧ kv.2 ≠ [] := by
  refine str_parse_iff searchUrl
    ⟨by decide, by decide, by decide, by decide, by decide, by decide, fun k hk => ?_⟩
  rw [searchUrl, Std.ExtTreeMap.mem_insertIfNew] at hk
  rcases hk with hk | hk
  · rw [← Std.LawfulEqCmp.eq_of_compare hk]
    decide
  · simp at hk

/-- `http://a.org/b#c`. -/
def sectionUrl : URLBuilder where
  protocol := Wsrv.str "http"
  host := Wsrv.str "a.org"
  segments := [Wsrv.str "b"]
  fragment := Wsrv.str "c"

/-- The fragment becomes a part of the path. -/
theorem fragment_joins_path :
    parse (sectionUrl.build.str true) ≠ .ok sectionUrl.build ∧
      parse (sectionUrl.build.str true) = .ok
        { sectionUrl.build with segments := [Wsrv.str "b#c"], fragment := [] } := by
  decide +kernel

end URL

end Wsrv
