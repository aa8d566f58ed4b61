import Wsrv.ClientRequest
import Wsrv.PercentCodec
import Wsrv.RequestDecode

/-!
# Forms from the client to the server

The client encodes the keys and the values of a map and joins them; the server
takes them apart again, and encodes every part once more where it should decode
it (`form_roundTrip_iff`).
-/

namespace Wsrv.RequestParser

/-! ## A key and a value -/

theorem find_append_cons {a : Str} {c : UInt8} (h : c ∉ a) (b : Str) :
    find (a ++ c :: b) c = some a.length := by
  unfold find
  rw [if_pos (by simp), List.idxOf_append_of_notMem h, List.idxOf_cons_self, Nat.add_zero]

theorem substr_before (a b : Str) : substr (a ++ b) 0 (some a.length) = .ok a := by
  simp [substr]

theorem substr_behind (a : Str) (c : UInt8) (b : Str) :
    substr (a ++ c :: b) (a.length + 1) none = .ok b := by
  simp [substr]

theorem equal_not_mem_urlEncode (s : Str) : equal ∉ urlEncode s :=
  not_mem_urlEncode (by decide) s

theorem not_mem_encodedPair {c : UInt8} (h : coded c = false) (hc : c ≠ equal) (kv : Str × Str) :
    c ∉ encodedPair kv := by
  simp [encodedPair, not_mem_urlEncode h, hc]

/-- The parts that are between the ampersands. -/
theorem splitOn_pairs {ps : List Str} (hne : ps ≠ []) (h : ∀ p ∈ ps, amp ∉ p) :
    ([amp].intercalate ps).splitOn amp = ps :=
  List.splitOn_intercalate amp h hne

/-- A dictionary is the list of its entries. -/
theorem ofList_toList (params : Dictionary) : Std.ExtTreeMap.ofList params.toList = params := by
  refine Std.ExtTreeMap.ext_getElem? fun k => ?_
  cases hk : params[k]? with
  | some v =>
    exact Std.ExtTreeMap.getElem?_ofList_of_mem (by simp) params.distinct_keys_toList
      (Std.ExtTreeMap.mem_toList_iff_getElem?_eq_some.mpr hk)
  | none =>
    have hmem : k ∉ params := by simp [Std.ExtTreeMap.mem_iff_isSome_getElem?, hk]
    simpa [Std.ExtTreeMap.mem_ofList, Std.ExtTreeMap.map_fst_toList_eq_keys] using hmem

theorem toList_keys_ne_nil {params : Dictionary} (h : ∀ k ∈ params, k ≠ []) :
    ∀ kv ∈ params.toList, kv.1 ≠ [] := fun kv hkv =>
  h kv.1 (by
    rw [Std.ExtTreeMap.mem_iff_isSome_getElem?,
      Std.ExtTreeMap.mem_toList_iff_getElem?_eq_some.mp hkv]
    rfl)

/-! ## Forms -/

/-- The parameters as the server decodes them. -/
def encodedTwice (kv : Str × Str) : Str × Str :=
  (urlEncode (urlEncode kv.1), urlEncode (urlEncode kv.2))

theorem addFormField_encodedPair (kv : Str × Str) (POST : Dictionary) :
    addFormField (encodedPair kv) POST =
      .ok (true, POST.insert (encodedTwice kv).1 (encodedTwice kv).2) := by
  have hfind : find (encodedPair kv) '='.toUInt8 = some (urlEncode kv.1).length :=
    find_append_cons (equal_not_mem_urlEncode kv.1) _
  have hkey : cstr (urlEncode kv.1) = urlEncode kv.1 :=
    cstr_of_no_nul (not_mem_urlEncode (by decide) _)
  have hval : cstr (urlEncode kv.2) = urlEncode kv.2 :=
    cstr_of_no_nul (not_mem_urlEncode (by decide) _)
  unfold addFormField
  rw [hfind]
  simp only [encodedPair, substr_before, substr_behind, hkey, hval, encodedTwice]

theorem formFields_pairs (kvs : List (Str × Str)) (POST : Dictionary) :
    formFields (kvs.map encodedPair) POST =
      .ok (kvs.foldl (fun m kv => m.insert (encodedTwice kv).1 (encodedTwice kv).2) POST) := by
  induction kvs generalizing POST with
  | nil => rfl
  | cons kv kvs ih =>
    rw [List.map_cons, formFields, addFormField_encodedPair]
    exact ih _

/-- A line without a carriage return is read to its end. -/
theorem getNextLineLoop_all {s : Str} (h : CR ∉ s) (res : Str) :
    (getNextLineLoop s.length res ⟨s, false⟩).1 = res ++ s := by
  induction s generalizing res with
  | nil => simp [getNextLineLoop]
  | cons c s ih =>
    have hc : c ≠ CR := fun hc => h (by simp [hc])
    rw [List.length_cons, getNextLineLoop]
    simp only [Bool.false_eq_true, if_false, IStream.get, hc]
    rw [ih fun hm => h (List.mem_cons_of_mem _ hm)]
    simp

/-- A set of keys that is closed under encoding twice has unreserved keys only: a reserved one would
lead to a longer reserved one. -/
theorem unreserved_of_closed (keys : Finset Str)
    (h : ∀ k ∈ keys, urlEncode (urlEncode k) ∈ keys) : ∀ k ∈ keys, Unreserved k := by
  by_contra hc
  push Not at hc
  obtain ⟨k₀, hk₀, hr₀⟩ := hc
  obtain ⟨k, hk, hmax⟩ := (keys.filter (¬ Unreserved ·)).exists_max_image List.length
    ⟨k₀, Finset.mem_filter.mpr ⟨hk₀, hr₀⟩⟩
  obtain ⟨hmem, hr⟩ := Finset.mem_filter.mp hk
  have hle := hmax _ (Finset.mem_filter.mpr
    ⟨h k hmem, urlEncode_reserved (urlEncode_reserved hr)⟩)
  have hlt := length_lt_twice hr
  omega

/-- What the server reads of a form is the form exactly when nothing in it had to be encoded. -/
theorem encodedTwice_iff (params : Dictionary) :
    Std.ExtTreeMap.ofList (params.toList.map encodedTwice) = params ↔
      ∀ k v, params[k]? = some v → Unreserved k ∧ Unreserved v := by
  constructor
  · intro h
    have hkeys : ∀ k ∈ params.keys.toFinset, Unreserved k := by
      refine unreserved_of_closed _ fun k hk => ?_
      rw [List.mem_toFinset, Std.ExtTreeMap.mem_keys] at hk ⊢
      rw [← h, Std.ExtTreeMap.mem_ofList, List.map_map, List.contains_iff_mem]
      obtain ⟨v, hv⟩ := Std.ExtTreeMap.mem_iff_isSome_getElem?.mp hk |> Option.isSome_iff_exists.mp
      exact List.mem_map.mpr ⟨(k, v), by simpa using hv, rfl⟩
    have hkey : ∀ k v, params[k]? = some v → Unreserved k := fun k v hv =>
      hkeys k (by simp [List.mem_toFinset, Std.ExtTreeMap.mem_iff_isSome_getElem?, hv])
    intro k v hv
    refine ⟨hkey k v hv, (urlEncode_twice_iff v).mp ?_⟩
    have hmap : params.toList.map encodedTwice =
        params.toList.map fun kv => (kv.1, urlEncode (urlEncode kv.2)) := by
      refine List.map_congr_left fun kv hkv => ?_
      rw [encodedTwice, (urlEncode_twice_iff kv.1).mpr (hkey kv.1 kv.2 (Std.ExtTreeMap.mem_toList_iff_getElem?_eq_some.mp hkv))]
    have hlookup : params[k]? = some (urlEncode (urlEncode v)) := by
      rw [← h, hmap]
      refine Std.ExtTreeMap.getElem?_ofList_of_mem (by simp) ?_
        (List.mem_map.mpr ⟨(k, v), by simpa using hv, rfl⟩)
      rw [List.pairwise_map]
      exact params.distinct_keys_toList
    exact (Option.some.inj (hv.symm.trans hlookup)).symm
  · intro h
    have hmap : params.toList.map encodedTwice = params.toList := by
      refine (List.map_congr_left fun kv hkv => ?_).trans (List.map_id _)
      obtain ⟨hk, hv⟩ := h kv.1 kv.2 (Std.ExtTreeMap.mem_toList_iff_getElem?_eq_some.mp hkv)
      rw [encodedTwice, (urlEncode_twice_iff _).mpr hk, (urlEncode_twice_iff _).mpr hv]
      rfl
    rw [hmap, ofList_toList]

/-- The request whose body the client has set. -/
def formRequest (req : HTTPServerRequest) (client : HTTPClientRequest) : HTTPServerRequest :=
  { req with
    POST := ∅
    SERVER := (req.SERVER.insert (str "Content-Type") client.mime).insert (str "Content-Length")
      (toString client.body.length) }

/-- The line that is read, as the fields of the form. -/
theorem readForm_pairs (req : HTTPServerRequest) (params : Dictionary) {body : Str}
    (hPOST : req.POST = ∅) (hbody : body = [amp].intercalate (params.toList.map encodedPair)) :
    readForm req ⟨body, false⟩ body.length (str "application/x-www-form-urlencoded") =
      (.ok true, { req with POST := .ofList (params.toList.map encodedTwice) }) := by
  have hline : (getNextLine ⟨body, false⟩ body.length).1 = body := by
    refine getNextLineLoop_all (fun hm => ?_) []
    rw [hbody, ← join_eq_intercalate] at hm
    rcases mem_join hm with hm | ⟨p, hp, hm⟩
    · exact absurd hm (by decide)
    · obtain ⟨kv, -, rfl⟩ := List.mem_map.mp hp
      exact not_mem_encodedPair (by decide) (by decide) kv hm
  have hfields : formFields (pieces '&'.toUInt8 body []) req.POST =
      .ok (.ofList (params.toList.map encodedTwice)) := by
    rw [show '&'.toUInt8 = amp from rfl, pieces_splitOn, hPOST, hbody]
    simp only [List.nil_append, modifyHead_same]
    cases hkvs : params.toList with
    | nil => rfl
    | cons kv kvs =>
      rw [splitOn_pairs (by simp), formFields_pairs, Std.ExtTreeMap.ofList_eq_foldl,
        List.foldl_map]
      intro p hp
      obtain ⟨kv, -, rfl⟩ := List.mem_map.mp hp
      exact not_mem_encodedPair (by decide) (by decide) kv
  have hstart : startsWith (str "application/x-www-form-urlencoded")
      (str "application/x-www-form-urlencoded") = true := by decide
  unfold readForm
  rw [if_neg (by simp [str]), if_pos hstart]
  simp only [Int.toNat_natCast, hline, hfields]

/-- What the server makes of the form of a client. -/
theorem parseFormData_form (req : HTTPServerRequest) (u : URL) (params : Dictionary) :
    let client := ({ url := u } : HTTPClientRequest).setBodyURLEncoded params
    parseFormData (formRequest req client) ⟨client.body, false⟩ =
      if client.body.length < 2 ^ 31 then
        (.ok true,
          { formRequest req client with POST := .ofList (params.toList.map encodedTwice) })
      else (.error (.raised (.outOfRange (str "stoi"))), formRequest req client) := by
  intro client
  have hbody : client.body = [amp].intercalate (params.toList.map encodedPair) :=
    setBodyURLEncoded_body _ params rfl
  have hlength : (formRequest req client).getServerAttribute (str "Content-Length") (str "0") =
      toString client.body.length := by
    simp [formRequest, HTTPServerRequest.getServerAttribute]
  have htype : (formRequest req client).getServerAttribute (str "Content-Type") =
      str "application/x-www-form-urlencoded" := by
    have hne : compare (str "Content-Length") (str "Content-Type") ≠ .eq := by decide
    simp only [formRequest, HTTPServerRequest.getServerAttribute]
    rw [Std.ExtTreeMap.getD_insert, if_neg hne, Std.ExtTreeMap.getD_insert_self]
    rfl
  unfold parseFormData
  rw [hlength, stoi_toString, htype]
  by_cases hlt : client.body.length < 2 ^ 31
  · rw [if_pos hlt, if_pos hlt]
    exact readForm_pairs (formRequest req client) params rfl hbody
  · rw [if_neg hlt, if_neg hlt]

/-- **A form survives exactly when nothing in it had to be encoded**, and its length is an `int`. -/
theorem form_roundTrip_iff (req : HTTPServerRequest) (u : URL) (params : Dictionary) :
    let client := ({ url := u } : HTTPClientRequest).setBodyURLEncoded params
    (∃ req', parseFormData (formRequest req client) ⟨client.body, false⟩ = (.ok true, req') ∧
        req'.POST = params) ↔
      (∀ k v, params[k]? = some v → Unreserved k ∧ Unreserved v) ∧
        client.body.length < 2 ^ 31 := by
  intro client
  rw [parseFormData_form, ← encodedTwice_iff]
  constructor
  · rintro ⟨req', h, hPOST⟩
    split_ifs at h with hlt
    · obtain rfl := (Prod.mk.inj h).2
      exact ⟨hPOST, hlt⟩
    · simp at h
  · rintro ⟨h, hlt⟩
    rw [if_pos hlt]
    exact ⟨_, rfl, h⟩

/-- A value with a space. -/
def greeting : Dictionary := (∅ : Dictionary).insert (str "msg") (str "hello world")

def greetingRequest : HTTPClientRequest :=
  ({ url := {} } : HTTPClientRequest).setBodyURLEncoded greeting

theorem form_space_lost :
    greetingRequest.body = str "msg=hello+world" ∧
      ¬ ∃ req', parseFormData (formRequest .init greetingRequest) ⟨greetingRequest.body, false⟩ =
          (.ok true, req') ∧ req'.POST = greeting := by
  have hvalue : (parseFormData (formRequest .init greetingRequest)
      ⟨greetingRequest.body, false⟩).2.POST[str "msg"]? = some (str "hello%2bworld") := by
    decide +kernel
  refine ⟨by decide +kernel, ?_⟩
  rintro ⟨req', h, hPOST⟩
  rw [h, hPOST] at hvalue
  exact absurd hvalue (by decide)

end Wsrv.RequestParser
