import Wsrv.DecodeSafety
import Wsrv.FormRoundTrip
import Wsrv.RequestPath

/-!
# Queries from the client to the server

The client encodes the keys and the values of a map and joins them.  The server
decodes the whole query first and takes it apart then, so that an ampersand or
an equals sign that was encoded counts as a separator
(`query_roundTrip_iff`).
-/

namespace Wsrv.RequestParser

/-! ## The arguments of a query -/

/-- `key=value`, decoded. -/
def pairText (kv : Str × Str) : Str := kv.1 ++ equal :: kv.2

/-- The text the server takes apart. -/
def argsText (kvs : List (Str × Str)) : Str := [amp].intercalate (kvs.map pairText)

/-- A key and a value without the characters that the server splits at or drops. -/
structure Separable (kv : Str × Str) : Prop where
  key_amp : amp ∉ kv.1
  key_equal : equal ∉ kv.1
  key_nul : 0 ∉ kv.1
  value_amp : amp ∉ kv.2
  value_nul : 0 ∉ kv.2

theorem Separable.amp_not_mem {kv : Str × Str} (h : Separable kv) : amp ∉ pairText kv := by
  simp [pairText, h.key_amp, h.value_amp, show amp ≠ equal by decide]

theorem argsText_no_nul {kvs : List (Str × Str)} (h : ∀ kv ∈ kvs, Separable kv) :
    0 ∉ argsText kvs := by
  intro hm
  rw [argsText, ← join_eq_intercalate] at hm
  rcases mem_join hm with hm | ⟨p, hp, hm⟩
  · exact absurd hm (by decide)
  · obtain ⟨kv, hkv, rfl⟩ := List.mem_map.mp hp
    have := h kv hkv
    simp [pairText, this.key_nul, this.value_nul, show (0 : UInt8) ≠ equal by decide] at hm

theorem addArg_pair (kv : Str × Str) (hne : kv.1 ≠ []) (h : equal ∉ kv.1) (GET : Dictionary) :
    addArg GET (pairText kv) = .ok (GET.insert kv.1 kv.2) := by
  have hfind : find (pairText kv) '='.toUInt8 = some kv.1.length := find_append_cons h kv.2
  have hkey : substr (pairText kv) 0 (some kv.1.length) = .ok kv.1 := substr_before kv.1 _
  have hval : substr (pairText kv) (kv.1.length + 1) none = .ok kv.2 := substr_behind kv.1 _ kv.2
  obtain ⟨n, hn⟩ := Nat.exists_eq_succ_of_ne_zero (mt List.length_eq_zero_iff.mp hne)
  rw [hn] at hfind hkey hval
  unfold addArg
  rw [hfind]
  simp only [Nat.succ_eq_add_one] at hkey hval
  simp only [Nat.succ_eq_add_one, hkey, hval]

/-- What one argument does: the key is what is before the first equals sign. -/
theorem addArg_cases (GET : Dictionary) (arg : Str) :
    (equal ∉ arg ∧ addArg GET arg = .ok (GET.insert arg [])) ∨
    (∃ v, arg = equal :: v ∧ addArg GET arg = .ok GET) ∨
    ∃ k v, arg = pairText (k, v) ∧ k ≠ [] ∧ equal ∉ k ∧
      addArg GET arg = .ok (GET.insert k v) := by
  by_cases hmem : equal ∈ arg
  · obtain ⟨k, v, rfl, hk⟩ := List.eq_append_cons_of_mem hmem
    right
    cases k with
    | nil => exact .inl ⟨v, rfl, rfl⟩
    | cons c k => exact .inr ⟨c :: k, v, rfl, by simp, hk, addArg_pair (c :: k, v) (by simp) hk GET⟩
  · refine .inl ⟨hmem, ?_⟩
    have hfind : find arg '='.toUInt8 = none := if_neg hmem
    unfold addArg
    rw [hfind]

theorem addArgs_pairs (kvs : List (Str × Str)) (GET : Dictionary)
    (hne : ∀ kv ∈ kvs, kv.1 ≠ []) (h : ∀ kv ∈ kvs, equal ∉ kv.1) :
    addArgs (kvs.map pairText) GET =
      .ok (kvs.foldl (fun m kv => m.insert kv.1 kv.2) GET) := by
  induction kvs generalizing GET with
  | nil => rfl
  | cons kv kvs ih =>
    rw [List.map_cons, addArgs,
      addArg_pair kv (hne kv List.mem_cons_self) (h kv List.mem_cons_self)]
    exact ih _ (fun kv hkv => hne kv (List.mem_cons_of_mem _ hkv))
      fun kv hkv => h kv (List.mem_cons_of_mem _ hkv)

/-- The text of separable arguments is split into them. -/
theorem split_argsText {kvs : List (Str × Str)} (h : ∀ kv ∈ kvs, Separable kv) :
    split (argsText kvs) (str "&") = kvs.map pairText := by
  have hsplit := split_singleton amp (argsText_no_nul h)
  rw [show str "&" = [amp] from rfl, hsplit]
  cases kvs with
  | nil => rfl
  | cons kv kvs =>
    rw [argsText, splitOn_pairs (by simp) fun p hp => ?_]
    · rw [List.filter_eq_self]
      intro p hp
      obtain ⟨kv, -, rfl⟩ := List.mem_map.mp hp
      simp [pairText]
    · obtain ⟨kv, hkv, rfl⟩ := List.mem_map.mp hp
      exact (h kv hkv).amp_not_mem

/-! ## What can be read at all -/

def AllSeparable (m : Dictionary) : Prop := ∀ k v, m[k]? = some v → Separable (k, v)

theorem AllSeparable.insert {m : Dictionary} (h : AllSeparable m) {k v : Str}
    (hkv : Separable (k, v)) : AllSeparable (m.insert k v) := by
  intro k' v' hv
  rw [Std.ExtTreeMap.getElem?_insert] at hv
  split_ifs at hv with hk
  · obtain rfl := Std.LawfulEqCmp.eq_of_compare hk
    obtain rfl := Option.some.inj hv
    exact hkv
  · exact h k' v' hv

/-- **Nothing is read but separable keys and values.** -/
theorem addArgs_separable (args : List Str) (GET GET' : Dictionary)
    (hargs : ∀ arg ∈ args, amp ∉ arg ∧ 0 ∉ arg) (hGET : AllSeparable GET)
    (h : addArgs args GET = .ok GET') : AllSeparable GET' := by
  induction args generalizing GET with
  | nil =>
    obtain rfl : GET = GET' := Except.ok.inj h
    exact hGET
  | cons arg args ih =>
    obtain ⟨hamp, hnul⟩ := hargs arg List.mem_cons_self
    have hrest := fun a ha => hargs a (List.mem_cons_of_mem arg ha)
    rw [addArgs] at h
    rcases addArg_cases GET arg with ⟨heq, hadd⟩ | ⟨v, rfl, hadd⟩ | ⟨k, v, rfl, -, hk, hadd⟩ <;>
      rw [hadd] at h
    · exact ih _ hrest (hGET.insert ⟨hamp, heq, hnul, by simp, by simp⟩) h
    · exact ih _ hrest hGET h
    · simp only [pairText, List.mem_append, List.mem_cons, not_or] at hamp hnul
      exact ih _ hrest (hGET.insert ⟨hamp.1, hk, hnul.1, hamp.2.2, hnul.2.2⟩) h

/-- The arguments of a text without NUL bytes. -/
theorem addArgs_split_separable {args : Str} (h0 : 0 ∉ args) {GET : Dictionary}
    (h : addArgs (split args (str "&")) ∅ = .ok GET) : AllSeparable GET := by
  refine addArgs_separable _ ∅ GET (fun arg harg => ?_) (fun k v hv => by simp at hv) h
  rw [show str "&" = [amp] from rfl, split_singleton amp h0] at harg
  have hmem := (List.mem_filter.mp harg).1
  exact ⟨fun hm => (mem_of_splitOn hmem hm).2 rfl, fun hm => h0 (mem_of_splitOn hmem hm).1⟩

/-! ## A query that is cut -/

/-- An argument changes one key at most. -/
theorem addArg_one (GET : Dictionary) (arg : Str) :
    ∃ GET', addArg GET arg = .ok GET' ∧ (GET' = GET ∨ ∃ k v, GET' = GET.insert k v) := by
  rcases addArg_cases GET arg with ⟨-, h⟩ | ⟨v, -, h⟩ | ⟨k, v, -, -, -, h⟩
  · exact ⟨_, h, .inr ⟨arg, [], rfl⟩⟩
  · exact ⟨_, h, .inl rfl⟩
  · exact ⟨_, h, .inr ⟨k, v, rfl⟩⟩

/-- A piece without an ampersand is one argument at most. -/
theorem addArgs_split_piece {piece : Str} (hamp : amp ∉ piece) (h0 : 0 ∉ piece) (GET : Dictionary) :
    addArgs (split piece (str "&")) GET = if piece = [] then .ok GET else addArg GET piece := by
  rw [show str "&" = [amp] from rfl, split_singleton amp h0, List.splitOn_eq_singleton hamp]
  split_ifs with hp
  · subst hp
    rfl
  · rw [List.filter_cons_of_pos (by simp [hp])]
    obtain ⟨GET', h, -⟩ := addArg_one GET piece
    rw [addArgs, h]
    rfl

/-- The first argument is added first. -/
theorem addArgs_split_cons {piece rest : Str} (hamp : amp ∉ piece) (hne : piece ≠ [])
    (h0 : 0 ∉ piece ++ amp :: rest) (GET : Dictionary) :
    addArgs (split (piece ++ amp :: rest) (str "&")) GET =
      match addArg GET piece with
      | .ok GET => addArgs (split rest (str "&")) GET
      | .error e => .error e := by
  have hrest : 0 ∉ rest := fun hm => h0 (by simp [hm])
  rw [show str "&" = [amp] from rfl, split_singleton amp h0, split_singleton amp hrest,
    List.splitOn_append_cons_self_of_not_mem hamp, List.filter_cons_of_pos (by simp [hne])]
  rfl

/-- A cut pair is read as it was only when no more than an empty value's equals sign is missing. -/
theorem addArg_cut {kv : Str × Str} {front back : Str} (h : pairText kv = front ++ back)
    {GET GET' : Dictionary} (hnew : GET[kv.1]? = none) (hadd : addArg GET front = .ok GET')
    (hread : GET'[kv.1]? = some kv.2) : back.length ≤ 1 ∧ GET' = GET.insert kv.1 kv.2 := by
  have hinsert (k v : Str) (hv : (GET.insert k v)[kv.1]? = some kv.2) : k = kv.1 ∧ v = kv.2 := by
    rw [Std.ExtTreeMap.getElem?_insert] at hv
    split_ifs at hv with hk
    · exact ⟨Std.LawfulEqCmp.eq_of_compare hk, Option.some.inj hv⟩
    · simp [hnew] at hv
  rcases addArg_cases GET front with ⟨-, h'⟩ | ⟨v, -, h'⟩ | ⟨k, v, rfl, -, -, h'⟩ <;>
    obtain rfl := Except.ok.inj (h'.symm.trans hadd)
  · obtain ⟨rfl, hv⟩ := hinsert front [] hread
    have hback := List.append_cancel_left h
    simp [← hback, ← hv]
  · simp [hnew] at hread
  · obtain ⟨rfl, rfl⟩ := hinsert k v hread
    have hlen := congrArg List.length h
    change (pairText kv).length = (pairText kv ++ back).length at hlen
    rw [List.length_append] at hlen
    exact ⟨by omega, rfl⟩

theorem argsText_cons (kv : Str × Str) {kvs : List (Str × Str)} (hne : kvs ≠ []) :
    argsText (kv :: kvs) = pairText kv ++ amp :: argsText kvs := by
  obtain ⟨kv', kvs, rfl⟩ := List.exists_cons_of_ne_nil hne
  rw [argsText, List.map_cons, List.map_cons, List.intercalate_cons_cons]
  simp [argsText]

/-- **Of a text that is cut by more than a character some argument is missing.** -/
theorem addArgs_cut (kvs : List (Str × Str)) (hne : kvs ≠ []) (GET GET' : Dictionary)
    (hsep : ∀ kv ∈ kvs, Separable kv) (hkeys : ∀ kv ∈ kvs, kv.1 ≠ [])
    (hdistinct : kvs.Pairwise fun a b => a.1 ≠ b.1) (hnew : ∀ kv ∈ kvs, GET[kv.1]? = none)
    {front back : Str} (htext : argsText kvs = front ++ back) (hback : 2 ≤ back.length)
    (h : addArgs (split front (str "&")) GET = .ok GET') :
    ∃ kv ∈ kvs, GET'[kv.1]? ≠ some kv.2 := by
  induction kvs generalizing GET front with
  | nil => exact absurd rfl hne
  | cons kv kvs ih =>
    have h0 : 0 ∉ front := fun hm => argsText_no_nul hsep (by rw [htext]; simp [hm])
    obtain ⟨hfirst, hrest⟩ := List.pairwise_cons.mp hdistinct
    have hkv := hsep kv List.mem_cons_self
    -- the cut is in the first pair, or behind it
    have hcut : (∃ a, pairText kv = front ++ a ∧ (kvs = [] → a = back)) ∨
        ∃ front', kvs ≠ [] ∧ front = pairText kv ++ amp :: front' ∧
          argsText kvs = front' ++ back := by
      by_cases hkvs : kvs = []
      · subst hkvs
        exact .inl ⟨back, by simpa [argsText] using htext, fun _ => rfl⟩
      · rw [argsText_cons kv hkvs] at htext
        rcases List.append_eq_append_iff.mp htext with ⟨c, hfront, hc⟩ | ⟨a, hpair, -⟩
        · cases c with
          | nil => exact .inl ⟨[], by simpa using hfront.symm, fun h => absurd h hkvs⟩
          | cons x c =>
            obtain ⟨rfl, htail⟩ := List.cons.inj hc
            exact .inr ⟨c, hkvs, hfront, htail⟩
        · exact .inl ⟨a, hpair, fun h => absurd h hkvs⟩
    rcases hcut with ⟨a, hpair, ha⟩ | ⟨front', hkvs, rfl, htext'⟩
    · have hamp : amp ∉ front := fun hm => hkv.amp_not_mem (by rw [hpair]; simp [hm])
      rw [addArgs_split_piece hamp h0] at h
      by_contra hall
      push Not at hall
      have hread := hall kv List.mem_cons_self
      split_ifs at h with hnil
      · obtain rfl := Except.ok.inj h
        simp [hnew kv List.mem_cons_self] at hread
      · obtain ⟨hlen, rfl⟩ := addArg_cut hpair (hnew kv List.mem_cons_self) h hread
        cases kvs with
        | nil =>
          obtain rfl := ha rfl
          omega
        | cons kv' kvs =>
          have hread' := hall kv' (by simp)
          have hk := hfirst kv' List.mem_cons_self
          rw [Std.ExtTreeMap.getElem?_insert, if_neg (by simpa using hk),
            hnew kv' (by simp)] at hread'
          cases hread'
    · have hpne : pairText kv ≠ [] := by simp [pairText]
      rw [addArgs_split_cons hkv.amp_not_mem hpne h0,
        addArg_pair kv (hkeys kv List.mem_cons_self) hkv.key_equal] at h
      obtain ⟨kv', hmem, hmissing⟩ := ih hkvs (GET.insert kv.1 kv.2)
        (fun kv' h' => hsep kv' (List.mem_cons_of_mem _ h'))
        (fun kv' h' => hkeys kv' (List.mem_cons_of_mem _ h')) hrest
        (fun kv' h' => by
          rw [Std.ExtTreeMap.getElem?_insert, if_neg (by simpa using hfirst kv' h')]
          exact hnew kv' (List.mem_cons_of_mem _ h')) htext' h
      exact ⟨kv', List.mem_cons_of_mem _ hmem, hmissing⟩

/-! ## The target -/

/-- A path in a request target: it starts with a slash, its characters are those of a path, and
its percent escapes are complete. -/
structure OriginPath where
  rest : Str
  url_chars : ∀ ch ∈ rest, Http.isUrlChar ch = true
  decodable : urlDecode ('/'.toUInt8 :: rest) ≠ none

namespace OriginPath

def text (path : OriginPath) : Str := '/'.toUInt8 :: path.rest

/-- The target of this path and a query. -/
def target (path : OriginPath) (query : Str) : Str := path.text ++ '?'.toUInt8 :: query

end OriginPath

theorem coded_urlChar {c : UInt8} (h : coded c = true) : Http.isUrlChar c = true :=
  forall_byte (P := fun c => coded c = true → Http.isUrlChar c = true) (by decide +kernel) c h

theorem makeQueryString_urlChars (u : URL) :
    ∀ ch ∈ u.makeQueryString true, Http.isUrlChar ch = true := by
  intro ch hch
  rw [makeQueryString_eq, ← join_eq_intercalate] at hch
  rcases mem_join hch with hch | ⟨p, hp, hch⟩
  · obtain rfl := List.mem_singleton.mp hch
    decide
  · obtain ⟨kv, -, rfl⟩ := List.mem_map.mp hp
    rcases List.mem_append.mp hch with hch | hch
    · exact coded_urlChar (urlEncode_coded hch)
    · rcases List.mem_cons.mp hch with rfl | hch
      · decide
      · exact coded_urlChar (urlEncode_coded hch)

/-- What `parse_url` takes for the path and the query of a target. -/
theorem urlFields_target (path : OriginPath) {query : Str}
    (hquery : ∀ ch ∈ query, Http.isUrlChar ch = true) :
    ∃ u, Http.parseUrl (path.target query) = .parsed u ∧
      getUrlField (path.target query) u .path =
        .ok ((path.target query).take (Http.uint16 path.text.length)) ∧
      getUrlField (path.target query) u .query =
        .ok (((path.target query).drop (Http.uint16 (path.text.length + 1))).take
          (Http.uint16 query.length)) := by
  obtain ⟨u, hu, hpath, hq⟩ := Http.parseUrl_path_query path.rest query path.url_chars hquery
  have hoff : Http.uint16 (path.text.length + 1) ≤ path.text.length + 1 := Nat.mod_le _ _
  refine ⟨u, hu, by simp [getUrlField, hpath, substr, OriginPath.text], ?_⟩
  unfold getUrlField
  rw [hq]
  cases query with
  | nil => rfl
  | cons c query =>
    have hlen : ¬ (path.target (c :: query)).length < Http.uint16 (path.text.length + 1) := by
      simp only [OriginPath.target, List.length_append, List.length_cons]
      omega
    exact if_neg hlen

/-- The pairs of a query, decoded. -/
theorem percentDecode_pairs (kvs : List (Str × Str)) :
    percentDecode ([amp].intercalate (kvs.map encodedPair)) = some (argsText kvs) := by
  induction kvs with
  | nil => rfl
  | cons kv kvs ih =>
    have hpair : percentDecode (encodedPair kv) = some (pairText kv) := by
      rw [encodedPair, percentDecode_append (percentDecode_urlEncode kv.1),
        percentDecode_cons (by decide), percentDecode_urlEncode]
      rfl
    cases kvs with
    | nil => simpa [argsText] using hpair
    | cons kv' kvs =>
      rw [argsText_cons kv (by simp), List.map_cons, List.map_cons, List.intercalate_cons_cons,
        List.append_assoc, percentDecode_append hpair, List.singleton_append,
        percentDecode_cons (by decide), ← List.map_cons, ih]
      rfl

/-! ## The round trip -/

/-- The server receives the parameters of the client. -/
def QueryReceived (req : HTTPServerRequest) (path : OriginPath) (u : URL) : Prop :=
  ∃ req', parseUrl { req with GET := ∅ } (path.target (u.makeQueryString true)) = (.ok true, req') ∧
    req'.GET = u.params

/-- The arguments are read from the text that the offset and the length of the query select. -/
theorem queryReceived_iff (req : HTTPServerRequest) (path : OriginPath) (u : URL) :
    QueryReceived req path u ↔
      urlDecode ((path.target (u.makeQueryString true)).take (Http.uint16 path.text.length)) ≠ none ∧
      ∃ args, urlDecode (((path.target (u.makeQueryString true)).drop
          (Http.uint16 (path.text.length + 1))).take
            (Http.uint16 (u.makeQueryString true).length)) = some args ∧
        addArgs (split args (str "&")) ∅ = .ok u.params := by
  obtain ⟨v, hv, hpath, hquery⟩ := urlFields_target path (makeQueryString_urlChars u)
  constructor
  · rintro ⟨req', h, hGET⟩
    obtain ⟨v', uri, query, decoded, args, GET, hv', huri, hq, hd, hargs, hadd, rfl⟩ :=
      parseUrlWith_iff.mp h
    obtain rfl := Http.UrlResult.parsed.inj (hv.symm.trans hv')
    obtain rfl := Except.ok.inj (hpath.symm.trans huri)
    obtain rfl := Except.ok.inj (hquery.symm.trans hq)
    exact ⟨by simp [hd], args, hargs, hGET ▸ hadd⟩
  · rintro ⟨hd, args, hargs, hadd⟩
    obtain ⟨decoded, hd⟩ := Option.ne_none_iff_exists'.mp hd
    exact ⟨_, parseUrlWith_iff.mpr ⟨v, _, _, decoded, args, u.params, hv, hpath, hquery, hd, hargs,
      hadd, rfl⟩, rfl⟩

theorem params_separable {req : HTTPServerRequest} {path : OriginPath} {u : URL}
    (h : QueryReceived req path u) : AllSeparable u.params := by
  obtain ⟨-, args, hargs, hadd⟩ := (queryReceived_iff req path u).mp h
  exact addArgs_split_separable (urlDecode_no_nul _ _ hargs) hadd

/-- The path and the query of a target that is short enough for fields of 16 bits. -/
theorem target_fields (path : OriginPath) (query : Str) (hpath : path.text.length + 1 < 2 ^ 16) :
    (path.target query).take (Http.uint16 path.text.length) = path.text ∧
      (path.target query).drop (Http.uint16 (path.text.length + 1)) = query := by
  have h1 : Http.uint16 path.text.length = path.text.length := Nat.mod_eq_of_lt (by omega)
  have h2 : Http.uint16 (path.text.length + 1) = path.text.length + 1 := Nat.mod_eq_of_lt hpath
  rw [h1, h2, OriginPath.target]
  simp [List.drop_append]

theorem separable_toList {params : Dictionary} (h : AllSeparable params) :
    ∀ kv ∈ params.toList, Separable kv := fun kv hkv =>
  h kv.1 kv.2 (Std.ExtTreeMap.mem_toList_iff_getElem?_eq_some.mp hkv)

theorem query_no_nul (u : URL) : 0 ∉ u.makeQueryString true := fun hm =>
  absurd (makeQueryString_urlChars u 0 hm) (by decide)

/-- Separable parameters are read from the text of their query. -/
theorem addArgs_query {u : URL} (hkeys : ∀ k ∈ u.params, k ≠ []) (hsep : AllSeparable u.params) :
    ∃ args, urlDecode (u.makeQueryString true) = some args ∧
      addArgs (split args (str "&")) ∅ = .ok u.params := by
  have hlist := separable_toList hsep
  refine ⟨argsText u.params.toList, ?_, ?_⟩
  · rw [urlDecode_eq, cstr_of_no_nul (query_no_nul u), makeQueryString_eq, percentDecode_pairs,
      Option.map_some, List.filter_eq_self.mpr fun c hc => ?_]
    exact decide_eq_true fun h0 => argsText_no_nul hlist (h0 ▸ hc)
  · rw [split_argsText hlist, addArgs_pairs _ _ (toList_keys_ne_nil hkeys)
      fun kv hkv => (hlist kv hkv).key_equal, ← Std.ExtTreeMap.ofList_eq_foldl, ofList_toList]

/-- A query that is longer than its length field is not read. -/
theorem query_too_long {u : URL} (hkeys : ∀ k ∈ u.params, k ≠ []) (hsep : AllSeparable u.params)
    (hlong : 2 ^ 16 ≤ (u.makeQueryString true).length) {args : Str}
    (hargs : urlDecode ((u.makeQueryString true).take
      (Http.uint16 (u.makeQueryString true).length)) = some args) :
    addArgs (split args (str "&")) ∅ ≠ .ok u.params := by
  intro hadd
  have hlist := separable_toList hsep
  have hmod : Http.uint16 (u.makeQueryString true).length + 2 ^ 16 ≤
      (u.makeQueryString true).length := by
    unfold Http.uint16
    omega
  have hfull : percentDecode (u.makeQueryString true) = some (argsText u.params.toList) := by
    rw [makeQueryString_eq, percentDecode_pairs]
  have hnul : 0 ∉ (u.makeQueryString true).take (Http.uint16 (u.makeQueryString true).length) :=
    fun hm => query_no_nul u (List.mem_of_mem_take hm)
  rw [urlDecode_eq, cstr_of_no_nul hnul] at hargs
  obtain ⟨front, hfront, rfl⟩ := Option.map_eq_some_iff.mp hargs
  rw [← List.take_append_drop (Http.uint16 (u.makeQueryString true).length)
    (u.makeQueryString true), percentDecode_append hfront] at hfull
  obtain ⟨back, hback, htext⟩ := Option.map_eq_some_iff.mp hfull
  -- the part that is left out holds at least a third of 2^16 characters
  have hlength := length_le_percentDecode hback
  rw [List.length_drop] at hlength
  have hall : front.filter (· ≠ 0) = front := List.filter_eq_self.mpr fun c hc =>
    decide_eq_true fun h0 => argsText_no_nul hlist (by rw [← htext]; simp [← h0, hc])
  rw [hall] at hadd
  have hne : u.params.toList ≠ [] := by
    intro hnil
    rw [makeQueryString_eq, hnil] at hlong
    exact absurd hlong (by decide)
  obtain ⟨kv, hkv, hmissing⟩ := addArgs_cut u.params.toList hne ∅ u.params hlist
    (toList_keys_ne_nil hkeys) (u.params.distinct_keys_toList.imp fun h => by simpa using h)
    (fun kv _ => by simp) htext.symm (by omega) hadd
  exact hmissing (Std.ExtTreeMap.mem_toList_iff_getElem?_eq_some.mp hkv)

/-- A text that `parse_url` takes apart into these parameters. -/
def Spells (text : Str) (params : Dictionary) : Prop :=
  ∃ args, urlDecode text = some args ∧ addArgs (split args (str "&")) ∅ = .ok params

theorem spells_nil : Spells [] ∅ := ⟨[], rfl, rfl⟩

/-- Behind a long path the offset of the query wraps, and the whole of what is read is in the path. -/
theorem target_wraps (path : OriginPath) (query : Str) (hpath : 2 ^ 16 ≤ path.text.length + 1) :
    (path.target query).take (Http.uint16 path.text.length) = path.text.take (path.text.length % 2 ^ 16) ∧
      ((path.target query).drop (Http.uint16 (path.text.length + 1))).take (Http.uint16 query.length) =
        (path.text.drop ((path.text.length + 1) % 2 ^ 16)).take (query.length % 2 ^ 16) := by
  have hlen : path.text.length % 2 ^ 16 ≤ path.text.length := Nat.mod_le _ _
  have hoff : (path.text.length + 1) % 2 ^ 16 + query.length % 2 ^ 16 ≤ path.text.length := by omega
  unfold Http.uint16 OriginPath.target
  refine ⟨List.take_append_of_le_length hlen, ?_⟩
  rw [List.drop_append_of_le_length (by omega), List.take_append_of_le_length]
  rw [List.length_drop]
  omega

/-- **A query survives exactly when its keys and values are separable** and it is shorter than
64 KiB.  Behind a path of 64 KiB the offset of the query wraps: where the path is cut at no escape, no
parameters survive, and others only if the path happens to spell them there. -/
theorem query_roundTrip_iff (req : HTTPServerRequest) (path : OriginPath) (u : URL)
    (hkeys : ∀ k ∈ u.params, k ≠ []) :
    (path.text.length + 1 < 2 ^ 16 →
      (QueryReceived req path u ↔
        AllSeparable u.params ∧ (u.makeQueryString true).length < 2 ^ 16)) ∧
    (2 ^ 16 ≤ path.text.length + 1 →
      (QueryReceived req path u ↔
        urlDecode (path.text.take (path.text.length % 2 ^ 16)) ≠ none ∧
          (u.params = ∅ ∨ Spells ((path.text.drop ((path.text.length + 1) % 2 ^ 16)).take
            ((u.makeQueryString true).length % 2 ^ 16)) u.params))) ∧
    (QueryReceived req path u → AllSeparable u.params) := by
  refine ⟨fun hpath => ?_, fun hpath => ?_, params_separable⟩
  · obtain ⟨htake, hdrop⟩ := target_fields path (u.makeQueryString true) hpath
    constructor
    · intro h
      have hsep := params_separable h
      refine ⟨hsep, ?_⟩
      by_contra hlong
      obtain ⟨-, args, hargs, hadd⟩ := (queryReceived_iff req path u).mp h
      rw [hdrop] at hargs
      exact query_too_long hkeys hsep (by omega) hargs hadd
    · rintro ⟨hsep, hlt⟩
      obtain ⟨args, hargs, hadd⟩ := addArgs_query hkeys hsep
      refine (queryReceived_iff req path u).mpr ⟨by rw [htake]; exact path.decodable, args, ?_, hadd⟩
      rw [hdrop, show Http.uint16 (u.makeQueryString true).length =
        (u.makeQueryString true).length from Nat.mod_eq_of_lt hlt, List.take_length]
      exact hargs
  · obtain ⟨htake, hdrop⟩ := target_wraps path (u.makeQueryString true) hpath
    rw [queryReceived_iff, htake, hdrop]
    refine and_congr_right fun _ => ⟨.inr, ?_⟩
    rintro (hempty | hspells)
    · have hquery : u.makeQueryString true = [] := by
        rw [makeQueryString_eq, hempty]
        rfl
      rw [hquery, hempty]
      exact spells_nil
    · exact hspells

/-- The root path. -/
def rootPath : OriginPath := ⟨[], by simp, by decide⟩

/-- A value with a space and an equals sign. -/
def formulaUrl : URL := { params := (∅ : Dictionary).insert (str "q") (str "a = b") }

theorem formula_received : QueryReceived .init rootPath formulaUrl := by
  have hkeys : ∀ k ∈ formulaUrl.params, k ≠ [] := by
    intro k hk
    obtain rfl : str "q" = k := by simpa [formulaUrl] using hk
    decide
  refine ((query_roundTrip_iff .init rootPath formulaUrl hkeys).1 (by decide)).mpr ⟨?_, by decide⟩
  have hsep : Separable (str "q", str "a = b") := ⟨by decide, by decide, by decide, by decide, by decide⟩
  exact AllSeparable.insert (fun k v hv => by simp at hv) hsep

/-- A value with an ampersand. -/
def companyUrl : URL := { params := (∅ : Dictionary).insert (str "q") (str "AT&T") }

theorem ampersand_splits :
    companyUrl.makeQueryString true = str "q=AT%26T" ∧
      ¬ QueryReceived .init rootPath companyUrl := by
  have hvalue : (parseUrl .init (rootPath.target (companyUrl.makeQueryString true))).2.GET[str "q"]? =
      some (str "AT") := by decide +kernel
  refine ⟨by decide +kernel, ?_⟩
  rintro ⟨req', h, hGET⟩
  rw [show ({ HTTPServerRequest.init with GET := ∅ } : HTTPServerRequest) = .init from rfl] at h
  rw [h, hGET] at hvalue
  exact absurd hvalue (by decide)

end Wsrv.RequestParser
