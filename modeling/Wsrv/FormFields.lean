import Wsrv.FormRoundTrip

/-!
# The fields of a form

`parse_form_data` hands the items between the ampersands to a callback that
returns false at an item without an equals sign, and `tokenize` takes this for
an order to stop.  So the fields behind such an item are dropped
(`formFields_eq`), and every field is kept exactly when a field behind one only
repeats what is there already (`fields_kept_iff`).
-/

namespace Wsrv.FormFields

open RequestParser

/-! ## Items and fields -/

/-- The items of a body. -/
def items (body : Str) : List Str := body.splitOn amp

/-- An item with an equals sign is a name and a value. -/
def field? (item : Str) : Option (Str × Str) :=
  if equal ∈ item then some (item.takeWhile (· ≠ equal), (item.dropWhile (· ≠ equal)).tail) else none

/-- The fields among some items. -/
def fieldsOf (items : List Str) : List (Str × Str) := items.filterMap field?

/-- The items before the first one without an equals sign. -/
def front (items : List Str) : List Str := items.takeWhile (equal ∈ ·)

/-- That item and the ones behind it. -/
def behind (items : List Str) : List Str := items.dropWhile (equal ∈ ·)

/-- The last field of its name. -/
def Last (fields : List (Str × Str)) (name value : Str) : Prop :=
  ∃ before after, fields = before ++ (name, value) :: after ∧ ∀ kv ∈ after, kv.1 ≠ name

/-- What is stored for a name or a value: `url_encode(s.c_str())`. -/
def stored (s : Str) : Str := urlEncode (cstr s)

/-- Every field in its turn. -/
def insertAll (fields : List (Str × Str)) (POST : Dictionary) : Dictionary :=
  fields.foldl (fun d kv => d.insert (stored kv.1) (stored kv.2)) POST

theorem fieldsOf_front_behind (items : List Str) :
    fieldsOf items = fieldsOf (front items) ++ fieldsOf (behind items) := by
  rw [fieldsOf, fieldsOf, fieldsOf, ← List.filterMap_append, front, behind,
    List.takeWhile_append_dropWhile]

theorem field_split {item : Str} (h : equal ∈ item) :
    item = item.takeWhile (· ≠ equal) ++ equal :: (item.dropWhile (· ≠ equal)).tail ∧
      equal ∉ item.takeWhile (· ≠ equal) := by
  have hne : item.dropWhile (· ≠ equal) ≠ [] := by
    intro hnil
    have := List.dropWhile_eq_nil_iff.mp hnil equal h
    simp at this
  have hhead := List.head_dropWhile_not (fun c => decide (c ≠ equal)) hne
  have heq : (item.dropWhile (· ≠ equal)).head hne = equal := by simpa using hhead
  have hcons : item.dropWhile (· ≠ equal) = equal :: (item.dropWhile (· ≠ equal)).tail := by
    conv_lhs => rw [← List.cons_head_tail hne, heq]
  constructor
  · rw [← hcons, List.takeWhile_append_dropWhile]
  · intro hmem
    have := List.mem_takeWhile_imp hmem
    simp at this

/-! ## The callback -/

theorem addFormField_field {item : Str} (h : equal ∈ item) (POST : Dictionary) :
    ∃ kv, field? item = some kv ∧
      addFormField item POST = .ok (true, POST.insert (stored kv.1) (stored kv.2)) := by
  obtain ⟨hsplit, hname⟩ := field_split h
  refine ⟨_, if_pos h, ?_⟩
  have hfind := find_append_cons hname (item.dropWhile (· ≠ equal)).tail
  rw [← hsplit] at hfind
  have hkey := substr_before (item.takeWhile (· ≠ equal))
    (equal :: (item.dropWhile (· ≠ equal)).tail)
  have hval := substr_behind (item.takeWhile (· ≠ equal)) equal (item.dropWhile (· ≠ equal)).tail
  rw [← hsplit] at hkey hval
  unfold addFormField
  rw [show find item '='.toUInt8 = _ from hfind]
  simp only [hkey, hval, stored]

theorem addFormField_other {item : Str} (h : equal ∉ item) (POST : Dictionary) :
    addFormField item POST = .ok (false, POST) := by
  have hfind : find item '='.toUInt8 = none := if_neg h
  rw [addFormField, hfind]

/-- **What is stored are the fields before the first item without an equals sign.** -/
theorem formFields_eq (items : List Str) (POST : Dictionary) :
    formFields items POST = .ok (insertAll (fieldsOf (front items)) POST) := by
  induction items generalizing POST with
  | nil => rfl
  | cons item items ih =>
    by_cases h : equal ∈ item
    · obtain ⟨kv, hkv, hadd⟩ := addFormField_field h POST
      have hfront : front (item :: items) = item :: front items :=
        List.takeWhile_cons_of_pos (by simpa using h)
      rw [formFields, hadd]
      simp only []
      rw [ih, hfront, fieldsOf, fieldsOf, List.filterMap_cons, hkv]
      rfl
    · rw [formFields, addFormField_other h, front, List.takeWhile_cons_of_neg (by simpa using h)]
      rfl

/-! ## Names -/

theorem stored_inj_iff {a b : Str} : stored a = stored b ↔ cstr a = cstr b := by
  refine ⟨fun h => ?_, congrArg urlEncode⟩
  have hdecode := congrArg percentDecode h
  rw [stored, stored, percentDecode_urlEncode, percentDecode_urlEncode] at hdecode
  exact Option.some.inj hdecode

/-- Names that differ are stored under different keys. -/
def Apart (fields : List (Str × Str)) : Prop :=
  ∀ kv ∈ fields, ∀ kv' ∈ fields, stored kv.1 = stored kv'.1 → kv.1 = kv'.1

theorem insertAll_getElem?_of_ne {fields : List (Str × Str)} {key : Str}
    (h : ∀ kv ∈ fields, stored kv.1 ≠ key) (POST : Dictionary) :
    (insertAll fields POST)[key]? = POST[key]? := by
  induction fields generalizing POST with
  | nil => rfl
  | cons kv fields ih =>
    rw [insertAll, List.foldl_cons]
    refine (ih (fun kv' hkv' => h kv' (List.mem_cons_of_mem _ hkv')) _).trans ?_
    rw [Std.ExtTreeMap.getElem?_insert, if_neg]
    exact fun hc => h kv List.mem_cons_self (Std.LawfulEqCmp.eq_of_compare hc)

/-- The last field of a name decides its entry. -/
theorem insertAll_last {fields : List (Str × Str)} (hapart : Apart fields) {name value : Str}
    (h : Last fields name value) (POST : Dictionary) :
    (insertAll fields POST)[stored name]? = some (stored value) := by
  obtain ⟨before, after, rfl, hlast⟩ := h
  have hafter : ∀ kv ∈ after, stored kv.1 ≠ stored name := by
    intro kv hkv hsame
    exact hlast kv hkv (hapart kv (by simp [hkv]) (name, value) (by simp) hsame)
  rw [insertAll, List.foldl_append, List.foldl_cons]
  exact (insertAll_getElem?_of_ne hafter _).trans Std.ExtTreeMap.getElem?_insert_self

theorem Last.append {fields fields' : List (Str × Str)} {name value : Str} :
    Last (fields ++ fields') name value ↔
      Last fields' name value ∨ Last fields name value ∧ ∀ kv ∈ fields', kv.1 ≠ name := by
  constructor
  · rintro ⟨before, after, hsplit, hlast⟩
    rcases List.append_eq_append_iff.mp hsplit with ⟨mid, rfl, hright⟩ | ⟨mid, hleft, hright⟩
    · exact .inl ⟨mid, after, hright, hlast⟩
    · cases mid with
      | nil => exact .inl ⟨[], after, hright.symm, hlast⟩
      | cons kv mid =>
        obtain ⟨rfl, rfl⟩ := List.cons.inj hright
        exact .inr ⟨⟨before, mid, hleft, fun kv hkv => hlast kv (List.mem_append_left _ hkv)⟩,
          fun kv hkv => hlast kv (List.mem_append_right _ hkv)⟩
  · rintro (⟨before, after, rfl, hlast⟩ | ⟨⟨before, after, rfl, hlast⟩, hnone⟩)
    · exact ⟨fields ++ before, after, by simp, hlast⟩
    · refine ⟨before, after ++ fields', by simp, fun kv hkv => ?_⟩
      exact (List.mem_append.mp hkv).elim (hlast kv) (hnone kv)

/-! ## The request -/

/-- An urlencoded body without a carriage return, and its length. -/
structure IsForm (req : HTTPServerRequest) (body : Str) : Prop where
  carriage : CR ∉ body
  length : req.SERVER[str "Content-Length"]? = some (toString body.length)
  type : startsWith (req.getServerAttribute (str "Content-Type"))
    (str "application/x-www-form-urlencoded") = true

/-- The request has an entry for every field of the body, the last one for each name, and the
names are not confused. -/
def Kept (req : HTTPServerRequest) (body : Str) : Prop :=
  ∃ req', parseFormData req ⟨body, false⟩ = (.ok true, req') ∧
    Apart (fieldsOf (items body)) ∧
      ∀ name value, Last (fieldsOf (items body)) name value →
        req'.POST[stored name]? = some (stored value)

theorem parseFormData_body {req : HTTPServerRequest} {body : Str} (h : IsForm req body) :
    parseFormData req ⟨body, false⟩ =
      if body.length < 2 ^ 31 then
        (.ok true, { req with POST := insertAll (fieldsOf (front (items body))) req.POST })
      else (.error (.raised (.outOfRange (str "stoi"))), req) := by
  have hlength : req.getServerAttribute (str "Content-Length") (str "0") = toString body.length := by
    rw [HTTPServerRequest.getServerAttribute, Std.ExtTreeMap.getD_eq_getD_getElem?, h.length]
    rfl
  rw [parseFormData, hlength, stoi_toString]
  by_cases hsmall : body.length < 2 ^ 31
  · rw [if_pos hsmall, if_pos hsmall]
    have hline : (getNextLine ⟨body, false⟩ (body.length : Int).toNat).1 = body := by
      rw [Int.toNat_natCast, getNextLine, getNextLineLoop_all h.carriage]
      rfl
    have hne : req.getServerAttribute (str "Content-Type") ≠ [] := by
      intro hnil
      have htype := h.type
      rw [hnil] at htype
      exact absurd htype (by decide)
    simp only [readForm, hne, false_and, if_false, h.type, if_true, hline]
    rw [pieces_splitOn, show (body.splitOn '&'.toUInt8).modifyHead ([] ++ ·) = items body from
      modifyHead_same _, formFields_eq]
  · rw [if_neg hsmall, if_neg hsmall]

/-- **No field is dropped**, if and only if the length fits an `int`, no two names agree up to a NUL,
and a field behind an item without an equals sign only repeats an entry that is there. -/
theorem fields_kept_iff {req : HTTPServerRequest} {body : Str} (h : IsForm req body) :
    Kept req body ↔
      body.length < 2 ^ 31 ∧
        (∀ kv ∈ fieldsOf (items body), ∀ kv' ∈ fieldsOf (items body),
          cstr kv.1 = cstr kv'.1 → kv.1 = kv'.1) ∧
        ∀ name value, Last (fieldsOf (behind (items body))) name value →
          (insertAll (fieldsOf (front (items body))) req.POST)[stored name]? =
            some (stored value) := by
  have hsplit := fieldsOf_front_behind (items body)
  rw [Kept, parseFormData_body h]
  simp only [← stored_inj_iff]
  by_cases hsmall : body.length < 2 ^ 31
  · rw [if_pos hsmall]
    simp only [hsmall, true_and]
    constructor
    · rintro ⟨req', hrun, hapart, hkept⟩
      obtain rfl := (Prod.mk.inj hrun).2
      refine ⟨hapart, fun name value hlast => hkept name value ?_⟩
      rw [hsplit]
      exact Last.append.mpr (.inl hlast)
    · rintro ⟨hapart, hrepeats⟩
      refine ⟨_, rfl, hapart, fun name value hlast => ?_⟩
      rw [hsplit] at hlast
      rcases Last.append.mp hlast with hbehind | ⟨hfront, -⟩
      · exact hrepeats name value hbehind
      · refine insertAll_last (fun kv hkv kv' hkv' => ?_) hfront req.POST
        refine hapart kv ?_ kv' ?_
        · rw [hsplit]
          exact List.mem_append_left _ hkv
        · rw [hsplit]
          exact List.mem_append_left _ hkv'
  · rw [if_neg hsmall]
    exact ⟨fun ⟨_, hrun, _⟩ => absurd hrun (by simp), fun hbound => absurd hbound.1 hsmall⟩

/-- The request of a form. -/
def formRequest (body : Str) : HTTPServerRequest :=
  { HTTPServerRequest.init with
    SERVER := ((∅ : Dictionary).insert (str "Content-Length") (toString body.length)).insert
      (str "Content-Type") (str "application/x-www-form-urlencoded") }

/-- `a=1&b=` keeps both of its fields. -/
theorem two_fields_kept : Kept (formRequest (str "a=1&b=")) (str "a=1&b=") := by
  have hform : IsForm (formRequest (str "a=1&b=")) (str "a=1&b=") :=
    ⟨by decide, by decide +kernel, by decide +kernel⟩
  refine (fields_kept_iff hform).mpr ⟨by decide, by decide +kernel, ?_⟩
  rintro name value ⟨before, after, hbehind, -⟩
  rw [show fieldsOf (behind (items (str "a=1&b="))) = [] by decide +kernel] at hbehind
  simp at hbehind

/-- The empty item of `a=1&&b=2` ends the form. -/
theorem field_dropped : ¬ Kept (formRequest (str "a=1&&b=2")) (str "a=1&&b=2") := by
  rintro ⟨req', hrun, -, hkept⟩
  have hform : IsForm (formRequest (str "a=1&&b=2")) (str "a=1&&b=2") :=
    ⟨by decide, by decide +kernel, by decide +kernel⟩
  rw [parseFormData_body hform, if_pos (by decide)] at hrun
  obtain rfl := (Prod.mk.inj hrun).2
  have hb := hkept (str "b") (str "2")
    ⟨[(str "a", str "1")], [], by decide +kernel, by simp⟩
  exact absurd hb (by decide +kernel)

end Wsrv.FormFields
