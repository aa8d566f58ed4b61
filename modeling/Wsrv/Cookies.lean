import Wsrv.ResponseHead

/-!
# The cookies of one response

A session, a login controller and a handler each set their cookies on the same
response.  `setCookie` and `deleteCookie` store the text of the cookie under the
key `Set-Cookie` of a map, so a response sends the cookie of the last call and
no other, unless line ends in other texts make further lines of the head
(`cookies_kept_iff`).
-/

namespace Wsrv.Cookies

open HTTPServerResponse (cookieText)

/-! ## Calls on a response -/

/-- A call of `setCookie` or of `deleteCookie`; `now` is `std::time(nullptr)`. -/
inductive CookieCall
  | set (name value : Str) (expires : Int) (path domain : Str) (secure httpOnly : Bool)
      (sameSite : Str)
  | delete (now : Int) (name path domain : Str) (secure httpOnly : Bool)

namespace CookieCall

def name : CookieCall → Str
  | set name _ _ _ _ _ _ _ => name
  | delete _ name _ _ _ _ => name

/-- A deleted cookie is set to the empty string. -/
def value : CookieCall → Str
  | set _ value _ _ _ _ _ _ => value
  | delete _ _ _ _ _ _ => []

def run (rep : HTTPServerResponse) : CookieCall → HTTPServerResponse
  | set name value expires path domain secure httpOnly sameSite =>
    rep.setCookie name value expires path domain secure httpOnly sameSite
  | delete now name path domain secure httpOnly =>
    rep.deleteCookie now name path domain secure httpOnly

/-- What the call writes behind `Set-Cookie: `. -/
def text : CookieCall → Str
  | set name value expires path domain secure httpOnly sameSite =>
    cookieText name value expires path domain secure httpOnly sameSite
  | delete now name path domain secure httpOnly =>
    cookieText name [] (now - 3600) path domain secure httpOnly

theorem run_eq (rep : HTTPServerResponse) (c : CookieCall) :
    c.run rep = rep.addHeader (str "Set-Cookie") c.text := by
  cases c <;> rfl

end CookieCall

/-- The response after the calls. -/
def runAll (rep : HTTPServerResponse) (calls : List CookieCall) : HTTPServerResponse :=
  calls.foldl CookieCall.run rep

/-- The value that the last call for a name sets. -/
def lastValue (calls : List CookieCall) (name : Str) : Option Str :=
  ((calls.filter fun c => c.name = name).getLast?).map CookieCall.value

/-- The key of the cookies. -/
abbrev KEY : Str := str "Set-Cookie"

/-- There is one header, that of the last call. -/
theorem runAll_headers (rep : HTTPServerResponse) {calls : List CookieCall} {last : CookieCall}
    (h : calls.getLast? = some last) : (runAll rep calls).headers = rep.headers.insert KEY last.text := by
  obtain ⟨before, rfl⟩ := List.getLast?_eq_some_iff.mp h
  have hbefore (calls : List CookieCall) :
      (runAll rep calls).headers.insert KEY last.text = rep.headers.insert KEY last.text := by
    unfold runAll
    induction calls generalizing rep with
    | nil => rfl
    | cons c calls ih =>
      rw [List.foldl_cons, ih, CookieCall.run_eq, HTTPServerResponse.addHeader]
      refine Std.ExtTreeMap.ext_getElem? fun k => ?_
      simp only [Std.ExtTreeMap.getElem?_insert]
      split_ifs <;> rfl
  rw [← hbefore before]
  unfold runAll
  rw [List.foldl_append, List.foldl_cons, List.foldl_nil, CookieCall.run_eq, HTTPServerResponse.addHeader]

/-! ## The lines of the head -/

/-- The header lines in the bytes of a response: those behind the status line, up to an empty one or
to the end. -/
def headLines (bytes : Str) : List Str := ((Lines.lines CR LF bytes).drop 1).takeWhile (· ≠ [])

/-- The lines that one header makes. -/
def linesOf (h : Str × Str) : List Str := Lines.lines CR LF (ResponseHead.headerLine h)

theorem lines_headers (hs : List (Str × Str)) (rest : Str) :
    Lines.lines CR LF ((hs.flatMap fun h => [h.1, str ": ", h.2, [CR, LF]]).flatten ++ rest) =
      hs.flatMap linesOf ++ Lines.lines CR LF rest := by
  induction hs with
  | nil => rfl
  | cons h hs ih =>
    have hline := Lines.lines_append (c := CR) (d := LF) (by decide) (ResponseHead.headerLine h)
      ((hs.flatMap fun h => [h.1, str ": ", h.2, [CR, LF]]).flatten ++ rest)
    rw [ih] at hline
    simpa [linesOf, ResponseHead.headerLine] using hline

theorem takeWhile_emptyLine (lines behind : List Str) :
    (lines ++ [] :: behind).takeWhile (· ≠ []) = lines.takeWhile (· ≠ []) := by
  induction lines with
  | nil => simp
  | cons l lines ih => simp only [List.cons_append, List.takeWhile_cons, ih]

theorem headLines_response (rep : HTTPServerResponse) (isHead : Bool) :
    headLines (responseToBuffers rep isHead).flatten =
      (rep.headers.toList.flatMap linesOf).takeWhile (· ≠ []) := by
  obtain ⟨hstatus, hunbroken, -⟩ := ResponseHead.statusLine_eq rep.status
  -- behind the headers stands the empty line, or nothing, which is an empty line to a reader
  obtain ⟨behind, hbehind⟩ : ∃ behind,
      Lines.lines CR LF (if isHead then [] else [CR, LF] ++ rep.content) = [] :: behind := by
    cases isHead with
    | true => exact ⟨[], rfl⟩
    | false => exact ⟨Lines.lines CR LF rep.content, by simp [Lines.lines]⟩
  have hbytes : (responseToBuffers rep isHead).flatten = ResponseHead.statusText rep.status ++ CR :: LF ::
      ((rep.headers.toList.flatMap fun h => [h.1, str ": ", h.2, [CR, LF]]).flatten ++
        if isHead then [] else [CR, LF] ++ rep.content) := by
    rw [responseToBuffers, List.flatten_append, List.flatten_cons, hstatus]
    cases isHead <;> simp
  rw [headLines, hbytes, Lines.lines_append (by decide), Lines.lines_of_unbroken hunbroken, lines_headers,
    hbehind, List.singleton_append, List.drop_one, List.tail_cons, takeWhile_emptyLine]

/-- The first line of a text. -/
def firstLine (s : Str) : Str := (Lines.lines CR LF s).headD []

theorem linesOf_cookie (text : Str) :
    linesOf (KEY, text) = (str "Set-Cookie: " ++ firstLine text) :: (Lines.lines CR LF text).tail := by
  have hlabel (label : Str) (h : ∀ x ∈ label, x ≠ CR) :
      Lines.lines CR LF (label ++ text) = (label ++ firstLine text) :: (Lines.lines CR LF text).tail := by
    induction label with
    | nil =>
      obtain ⟨l, ls, hl⟩ := List.exists_cons_of_ne_nil (Lines.lines_ne_nil (c := CR) (d := LF) text)
      rw [firstLine, List.nil_append, hl]
      rfl
    | cons x label ih =>
      obtain ⟨hx, hlabel⟩ := List.forall_mem_cons.mp h
      rw [List.cons_append, Lines.lines_cons_of_ne hx, ih hlabel]
      rfl
  exact hlabel (str "Set-Cookie: ") (by decide +kernel)

/-! ## The order of the headers -/

/-- The headers of a map stand in the order of their keys. -/
def Sorted (l : List (Str × Str)) : Prop := l.Pairwise fun a b => compare a.1 b.1 = .lt

theorem toList_sorted (d : Dictionary) : Sorted d.toList := Std.ExtTreeMap.ordered_keys_toList

theorem compare_self_ne_lt (k : Str) : compare k k ≠ .lt := by
  have hself : compare k k = .eq := Std.ReflCmp.compare_self
  rw [hself]
  decide

theorem Sorted.nodup {l : List (Str × Str)} (h : Sorted l) : l.Nodup := by
  refine h.imp ?_
  rintro a _ hlt rfl
  exact compare_self_ne_lt _ hlt

/-- Sorted lists with the same headers are one list. -/
theorem Sorted.eq_of_mem_iff {l l' : List (Str × Str)} (h : Sorted l) (h' : Sorted l')
    (hmem : ∀ kv, kv ∈ l ↔ kv ∈ l') : l = l' := by
  have hperm := (List.perm_ext_iff_of_nodup h.nodup h'.nodup).mpr hmem
  refine hperm.eq_of_pairwise (fun a b _ _ hab hba => ?_) h h'
  exact absurd (Std.TransCmp.lt_trans hab hba) (compare_self_ne_lt a.1)

/-- The headers of a map in front of a key. -/
def headersBefore (d : Dictionary) (key : Str) : List (Str × Str) :=
  d.toList.filter fun kv => compare kv.1 key == .lt

/-- Those behind it. -/
def headersBehind (d : Dictionary) (key : Str) : List (Str × Str) :=
  d.toList.filter fun kv => compare key kv.1 == .lt

theorem mem_headersBefore {d : Dictionary} {key : Str} {kv : Str × Str} :
    kv ∈ headersBefore d key ↔ kv ∈ d.toList ∧ compare kv.1 key = .lt := by
  rw [headersBefore, List.mem_filter, beq_iff_eq]

theorem mem_headersBehind {d : Dictionary} {key : Str} {kv : Str × Str} :
    kv ∈ headersBehind d key ↔ kv ∈ d.toList ∧ compare key kv.1 = .lt := by
  rw [headersBehind, List.mem_filter, beq_iff_eq]

/-- On either side of the key stand other headers. -/
theorem mem_headersAround {d : Dictionary} {key : Str} {kv : Str × Str}
    (h : kv ∈ headersBefore d key ++ headersBehind d key) : kv ∈ d.toList ∧ kv.1 ≠ key := by
  rcases List.mem_append.mp h with h | h
  · obtain ⟨hmem, hlt⟩ := mem_headersBefore.mp h
    exact ⟨hmem, fun he => compare_self_ne_lt key (he ▸ hlt)⟩
  · obtain ⟨hmem, hlt⟩ := mem_headersBehind.mp h
    exact ⟨hmem, fun he => compare_self_ne_lt key (he ▸ hlt)⟩

theorem headersAround_sorted (d : Dictionary) (key val : Str) :
    Sorted (headersBefore d key ++ (key, val) :: headersBehind d key) := by
  rw [Sorted, List.pairwise_append, List.pairwise_cons]
  refine ⟨(toList_sorted d).filter _, ⟨fun b hb => (mem_headersBehind.mp hb).2, (toList_sorted d).filter _⟩,
    fun a ha b hb => ?_⟩
  have hlt := (mem_headersBefore.mp ha).2
  rcases List.mem_cons.mp hb with rfl | hb
  · exact hlt
  · exact Std.TransCmp.lt_trans hlt (mem_headersBehind.mp hb).2

theorem mem_toList_insert (d : Dictionary) (key val : Str) (kv : Str × Str) :
    kv ∈ (d.insert key val).toList ↔ kv ∈ headersBefore d key ++ (key, val) :: headersBehind d key := by
  obtain ⟨k, v⟩ := kv
  rw [Std.ExtTreeMap.mem_toList_iff_getElem?_eq_some, Std.ExtTreeMap.getElem?_insert, List.mem_append,
    List.mem_cons, mem_headersBefore, mem_headersBehind, Std.ExtTreeMap.mem_toList_iff_getElem?_eq_some]
  rcases hc : compare key k with _ | _ | _
  · have hne : key ≠ k := fun h => compare_self_ne_lt k (by rwa [h] at hc)
    have hgt : compare k key ≠ .lt := fun h => compare_self_ne_lt k (Std.TransCmp.lt_trans h hc)
    simp [Ne.symm hne, hgt]
  · obtain rfl := Std.LawfulEqCmp.eq_of_compare hc
    simp [eq_comm]
  · have hlt : compare k key = .lt := Std.OrientedCmp.lt_of_gt hc
    have hne : key ≠ k := fun h => compare_self_ne_lt k (by rwa [h] at hlt)
    simp [Ne.symm hne, hlt]

theorem toList_insert (d : Dictionary) (key val : Str) :
    (d.insert key val).toList = headersBefore d key ++ (key, val) :: headersBehind d key :=
  (toList_sorted _).eq_of_mem_iff (headersAround_sorted d key val) (mem_toList_insert d key val)

/-! ## What a client reads -/

/-- The pair that a client reads from the value of `Set-Cookie`: the text up to a semicolon, cut
at its first equals sign. -/
def Carries (line name value : Str) : Prop :=
  line.takeWhile (· ≠ ';'.toUInt8) = name ++ '='.toUInt8 :: value ∧ '='.toUInt8 ∉ name

/-- A `Set-Cookie` line in the head of a response carries the cookie. -/
def SendsCookie (bytes name value : Str) : Prop :=
  ∃ text, str "Set-Cookie: " ++ text ∈ headLines bytes ∧ Carries text name value

/-- A text is cut at the first byte of a kind. -/
theorem takeWhile_ne {b : UInt8} {front : Str} (h : b ∉ front) (rest : Str) :
    (front ++ b :: rest).takeWhile (· ≠ b) = front := by
  rw [List.takeWhile_append_of_pos fun c hc => decide_eq_true (ne_of_mem_of_not_mem hc h),
    List.takeWhile_cons_of_neg (by simp), List.append_nil]

/-- Attributes are set off by a semicolon. -/
def SetOff (attrs : Str) : Prop := ∀ a ∈ attrs.head?, a = ';'.toUInt8

theorem setOff_nil : SetOff [] := by simp [SetOff]

theorem SetOff.append {a b : Str} (ha : SetOff a) (hb : SetOff b) : SetOff (a ++ b) := by
  intro c hc
  cases a with
  | nil => exact hb c hc
  | cons x a => exact ha c hc

/-- One attribute, which may be missing. -/
theorem setOff_ite (p : Prop) [Decidable p] {attr : Str} (h : attr.head? = some ';'.toUInt8) :
    SetOff (if p then attr else []) := by
  split
  · intro a ha
    rw [h] at ha
    exact (Option.some.inj ha).symm
  · exact setOff_nil

theorem cookieText_eq (name value : Str) (expires : Int) (path domain : Str)
    (secure httpOnly : Bool) (sameSite : Str) :
    ∃ attrs, cookieText name value expires path domain secure httpOnly sameSite =
      name ++ '='.toUInt8 :: value ++ attrs ∧ SetOff attrs := by
  refine ⟨_, by simp only [cookieText, List.append_assoc]; rfl, ?_⟩
  exact (setOff_ite _ rfl).append <| (setOff_ite _ rfl).append <| (setOff_ite _ rfl).append <|
    (setOff_ite _ rfl).append <| (setOff_ite _ rfl).append (setOff_ite _ rfl)

/-- The name and the value of a cookie are read as they were set. -/
structure Plain (c : CookieCall) : Prop where
  name_equal : '='.toUInt8 ∉ c.name
  name_semicolon : ';'.toUInt8 ∉ c.name
  value_semicolon : ';'.toUInt8 ∉ c.value
  name_unbroken : ResponseHead.Unbroken c.name
  value_unbroken : ResponseHead.Unbroken c.value

theorem text_eq (c : CookieCall) :
    ∃ attrs, c.text = c.name ++ '='.toUInt8 :: c.value ++ attrs ∧ SetOff attrs := by
  cases c with
  | set name value expires path domain secure httpOnly sameSite =>
    exact cookieText_eq name value expires path domain secure httpOnly sameSite
  | delete now name path domain secure httpOnly =>
    exact cookieText_eq name [] (now - 3600) path domain secure httpOnly (str "Lax")

theorem unbroken_pair (name value : Str) :
    ResponseHead.Unbroken (name ++ '='.toUInt8 :: value) ↔
      ResponseHead.Unbroken name ∧ ResponseHead.Unbroken value := by
  have hlabel : ResponseHead.Label (str "=") := ⟨by decide, by decide +kernel⟩
  have hbetween := hlabel.between name value
  rwa [List.append_assoc] at hbetween

theorem Plain.semicolon {c : CookieCall} (h : Plain c) : ';'.toUInt8 ∉ c.name ++ '='.toUInt8 :: c.value := by
  intro hb
  rcases List.mem_append.mp hb with hb | hb
  · exact h.name_semicolon hb
  rcases List.mem_cons.mp hb with hb | hb
  · exact absurd hb (by decide)
  · exact h.value_semicolon hb

/-- The pair stands in the first line of the text. -/
theorem Plain.firstLine {c : CookieCall} (h : Plain c) :
    (firstLine c.text).takeWhile (· ≠ ';'.toUInt8) = c.name ++ '='.toUInt8 :: c.value := by
  have hpair := (unbroken_pair c.name c.value).mpr ⟨h.name_unbroken, h.value_unbroken⟩
  obtain ⟨attrs, htext, hattrs⟩ := text_eq c
  rw [htext, Cookies.firstLine]
  cases attrs with
  | nil =>
    rw [List.append_nil, Lines.lines_of_unbroken hpair]
    exact List.takeWhile_eq_self_iff.mpr fun b hb =>
      decide_eq_true (ne_of_mem_of_not_mem hb h.semicolon)
  | cons a attrs =>
    obtain rfl := hattrs a rfl
    obtain ⟨l, ls, hl⟩ := List.exists_cons_of_ne_nil (Lines.lines_ne_nil (c := CR) (d := LF) attrs)
    rw [Lines.lines_append_cons hpair (by decide), Lines.lines_cons_of_ne (by decide), hl]
    exact takeWhile_ne h.semicolon l

/-- The first line of a plain cookie carries this cookie and no other. -/
theorem Plain.carries_iff {c : CookieCall} (h : Plain c) (name value : Str) :
    Carries (Cookies.firstLine c.text) name value ↔ name = c.name ∧ value = c.value := by
  rw [Carries, h.firstLine]
  constructor
  · rintro ⟨htext, hname⟩
    have hnames := congrArg (List.takeWhile (· ≠ '='.toUInt8)) htext
    rw [takeWhile_ne h.name_equal, takeWhile_ne hname] at hnames
    rw [hnames] at htext
    exact ⟨hnames.symm, (List.cons.inj (List.append_cancel_left htext)).2.symm⟩
  · rintro ⟨rfl, rfl⟩
    exact ⟨rfl, h.name_equal⟩

/-- Only a plain cookie is carried by any line. -/
theorem SendsCookie.plain {bytes : Str} {c : CookieCall} (h : SendsCookie bytes c.name c.value) :
    Plain c := by
  obtain ⟨text, hline, htext, hname⟩ := h
  have hunbroken : ResponseHead.Unbroken (str "Set-Cookie: " ++ text) :=
    Lines.lines_unbroken bytes _ (List.mem_of_mem_drop ((List.takeWhile_sublist _).subset hline))
  have hfront := List.takeWhile_prefix (l := text) (· ≠ ';'.toUInt8)
  rw [htext] at hfront
  have hpair : ResponseHead.Unbroken (c.name ++ '='.toUInt8 :: c.value) := fun hb =>
    hunbroken (hb.trans (hfront.isInfix.trans (List.suffix_append _ _).isInfix))
  obtain ⟨hn, hv⟩ := (unbroken_pair _ _).mp hpair
  have hne : ∀ b ∈ c.name ++ '='.toUInt8 :: c.value, b ≠ ';'.toUInt8 := by
    intro b hb
    rw [← htext] at hb
    simpa using List.mem_takeWhile_imp hb
  exact ⟨hname, fun hm => hne _ (List.mem_append_left _ hm) rfl,
    fun hm => hne _ (List.mem_append_right _ (List.mem_cons_of_mem _ hm)) rfl, hn, hv⟩

/-! ## The lines that are not of the last call -/

/-- The lines of the other headers, and those that the text of the last call makes behind its first. -/
def strays (rep : HTTPServerResponse) (last : CookieCall) : List Str :=
  (headersBefore rep.headers KEY).flatMap linesOf ++
    ((Lines.lines CR LF last.text).tail ++ (headersBehind rep.headers KEY).flatMap linesOf)

/-- One of them is in the head, and carries the cookie. -/
def Stray (rep : HTTPServerResponse) (last : CookieCall) (name value : Str) : Prop :=
  ∃ text, str "Set-Cookie: " ++ text ∈ (strays rep last).takeWhile (· ≠ []) ∧ Carries text name value

/-- The headers in front of the cookie make no empty line. -/
def Open (rep : HTTPServerResponse) : Prop := [] ∉ (headersBefore rep.headers KEY).flatMap linesOf

theorem mem_takeWhile_middle {a b : List Str} {line x : Str} (hline : line ≠ []) :
    x ∈ (a ++ line :: b).takeWhile (· ≠ []) ↔
      x = line ∧ [] ∉ a ∨ x ∈ (a ++ b).takeWhile (· ≠ []) := by
  induction a with
  | nil => simp [hline]
  | cons y a ih =>
    by_cases hy : y = []
    · simp [hy]
    · have hy' : [] ≠ y := fun h => hy h.symm
      simp only [List.cons_append, List.takeWhile_cons, hy, ne_eq, not_false_eq_true, decide_true, if_true,
        List.mem_cons, not_or, hy', true_and] at ih ⊢
      rw [ih]
      tauto

/-- **What is sent**: the first line of the last call, where the head gets as far, and the strays. -/
theorem sendsCookie_iff (rep : HTTPServerResponse) (isHead : Bool) {calls : List CookieCall}
    {last : CookieCall} (h : calls.getLast? = some last) (name value : Str) :
    SendsCookie (responseToBuffers (runAll rep calls) isHead).flatten name value ↔
      Open rep ∧ Carries (firstLine last.text) name value ∨ Stray rep last name value := by
  have hlines : headLines (responseToBuffers (runAll rep calls) isHead).flatten =
      ((headersBefore rep.headers KEY).flatMap linesOf ++ (str "Set-Cookie: " ++ firstLine last.text) ::
        ((Lines.lines CR LF last.text).tail ++ (headersBehind rep.headers KEY).flatMap linesOf)).takeWhile
          (· ≠ []) := by
    rw [headLines_response, runAll_headers rep h, toList_insert, List.flatMap_append, List.flatMap_cons,
      linesOf_cookie, List.cons_append]
  have hne (text : Str) : str "Set-Cookie: " ++ text ≠ [] := by simp [str]
  unfold SendsCookie Stray strays Open
  simp only [hlines, mem_takeWhile_middle (hne _), List.append_cancel_left_eq]
  constructor
  · rintro ⟨text, ⟨rfl, hopen⟩ | hstray, hcarries⟩
    · exact .inl ⟨hopen, hcarries⟩
    · exact .inr ⟨text, hstray, hcarries⟩
  · rintro (⟨hopen, hcarries⟩ | ⟨text, hstray, hcarries⟩)
    · exact ⟨_, .inl ⟨rfl, hopen⟩, hcarries⟩
    · exact ⟨text, .inr hstray, hcarries⟩

/-- The arguments of a call that go into its text behind the name and the value. -/
def CookieCall.attributes : CookieCall → List Str
  | set _ _ _ path domain _ _ sameSite => [path, domain, sameSite]
  | delete _ _ path domain _ _ => [path, domain]

/-- No other header of the response and no attribute of the call makes a line of its own. -/
structure Unsplit (rep : HTTPServerResponse) (last : CookieCall) : Prop where
  headers : ∀ kv ∈ rep.headers.toList, kv.1 ≠ KEY →
    ResponseHead.Unbroken kv.1 ∧ ResponseHead.Unbroken kv.2 ∧ ':'.toUInt8 ∉ kv.1
  attributes : ∀ s ∈ last.attributes, ResponseHead.Unbroken s

theorem Plain.unbroken {c : CookieCall} (h : Plain c) (hattrs : ∀ s ∈ c.attributes, ResponseHead.Unbroken s) :
    ResponseHead.Unbroken c.text := by
  cases c with
  | set name value expires path domain secure httpOnly sameSite =>
    simp only [CookieCall.attributes, List.forall_mem_cons] at hattrs
    obtain ⟨hpath, hdomain, hsame, -⟩ := hattrs
    exact (ResponseHead.unbroken_cookieText ..).mpr ⟨h.name_unbroken, h.value_unbroken, hpath, hdomain, hsame⟩
  | delete now name path domain secure httpOnly =>
    simp only [CookieCall.attributes, List.forall_mem_cons] at hattrs
    obtain ⟨hpath, hdomain, -⟩ := hattrs
    exact (ResponseHead.unbroken_cookieText ..).mpr
      ⟨h.name_unbroken, h.value_unbroken, hpath, hdomain, by decide +kernel⟩

/-- The lines of the other headers. -/
theorem Unsplit.line {rep : HTTPServerResponse} {last : CookieCall} (h : Unsplit rep last)
    {kv : Str × Str} (hkv : kv ∈ rep.headers.toList) (hne : kv.1 ≠ KEY) :
    linesOf kv = [ResponseHead.headerLine kv] ∧
      ∀ text, str "Set-Cookie: " ++ text ≠ ResponseHead.headerLine kv := by
  obtain ⟨hname, hvalue, hcolon⟩ := h.headers kv hkv hne
  refine ⟨Lines.lines_of_unbroken ((ResponseHead.unbroken_headerLine kv).mpr ⟨hname, hvalue⟩), ?_⟩
  intro text heq
  have hnames := congrArg (List.takeWhile (· ≠ ':'.toUInt8)) heq
  have hkey : ':'.toUInt8 ∉ KEY := by decide
  have hline : ResponseHead.headerLine kv = kv.1 ++ ':'.toUInt8 :: (str " " ++ kv.2) := by
    rw [ResponseHead.headerLine, List.append_assoc]
    rfl
  rw [hline, takeWhile_ne hcolon] at hnames
  exact hne (hnames.symm.trans (takeWhile_ne hkey (str " " ++ text)))

theorem Unsplit.no_stray {rep : HTTPServerResponse} {last : CookieCall} (h : Unsplit rep last)
    (hplain : Plain last) : Open rep ∧ ∀ name value, ¬ Stray rep last name value := by
  have htail : (Lines.lines CR LF last.text).tail = [] := by
    rw [Lines.lines_of_unbroken (hplain.unbroken h.attributes)]
    rfl
  constructor
  · intro hnil
    obtain ⟨kv, hkv, hline⟩ := List.mem_flatMap.mp hnil
    obtain ⟨hmem, hne⟩ := mem_headersAround (List.mem_append_left _ hkv)
    rw [(h.line hmem hne).1, List.mem_singleton] at hline
    exact ResponseHead.headerLine_ne_nil kv hline.symm
  · rintro name value ⟨text, hstray, -⟩
    have hmem := (List.takeWhile_sublist _).subset hstray
    rw [strays, htail, List.nil_append, ← List.flatMap_append] at hmem
    obtain ⟨kv, hkv, hline⟩ := List.mem_flatMap.mp hmem
    obtain ⟨hin, hne⟩ := mem_headersAround hkv
    obtain ⟨hlines, hother⟩ := h.line hin hne
    rw [hlines, List.mem_singleton] at hline
    exact hother text hline

/-! ## Result -/

theorem lastValue_isSome {calls : List CookieCall} {c : CookieCall} (h : c ∈ calls) :
    ∃ value, lastValue calls c.name = some value := by
  have hne : calls.filter (fun d => d.name = c.name) ≠ [] :=
    List.ne_nil_of_mem (List.mem_filter.mpr ⟨h, by simp⟩)
  exact ⟨_, by rw [lastValue, List.getLast?_eq_getLast_of_ne_nil hne, Option.map_some]⟩

theorem lastValue_last {calls : List CookieCall} {last : CookieCall}
    (h : calls.getLast? = some last) : lastValue calls last.name = some last.value := by
  obtain ⟨before, rfl⟩ := List.getLast?_eq_some_iff.mp h
  simp [lastValue]

theorem lastValue_mem {calls : List CookieCall} {name value : Str} (h : lastValue calls name = some value) :
    ∃ c ∈ calls, c.name = name := by
  obtain ⟨c, hc, -⟩ := Option.map_eq_some_iff.mp h
  obtain ⟨hmem, hname⟩ := List.mem_filter.mp (List.mem_of_getLast? hc)
  exact ⟨c, hmem, of_decide_eq_true hname⟩

/-- Every cookie that was set is sent with its last value. -/
def Kept (rep : HTTPServerResponse) (calls : List CookieCall) (isHead : Bool) : Prop :=
  ∀ name value, lastValue calls name = some value →
    SendsCookie (responseToBuffers (runAll rep calls) isHead).flatten name value

theorem kept_iff_last (rep : HTTPServerResponse) (isHead : Bool) {calls : List CookieCall} {last : CookieCall}
    (hlast : calls.getLast? = some last) :
    Kept rep calls isHead ↔ Plain last ∧ ∀ name value, lastValue calls name = some value →
      Open rep ∧ name = last.name ∨ Stray rep last name value := by
  constructor
  · intro h
    have hplain := (h _ _ (lastValue_last hlast)).plain
    refine ⟨hplain, fun name value hv => ?_⟩
    rcases (sendsCookie_iff rep isHead hlast name value).mp (h name value hv) with ⟨hopen, hcarries⟩ | hstray
    · exact .inl ⟨hopen, ((hplain.carries_iff name value).mp hcarries).1⟩
    · exact .inr hstray
  · rintro ⟨hplain, h⟩ name value hv
    refine (sendsCookie_iff rep isHead hlast name value).mpr ?_
    rcases h name value hv with ⟨hopen, rfl⟩ | hstray
    · have hvalue : value = last.value := Option.some.inj (hv.symm.trans (lastValue_last hlast))
      exact .inl ⟨hopen, (hplain.carries_iff _ _).mpr ⟨rfl, hvalue⟩⟩
    · exact .inr hstray

/-- **A response keeps the cookies** that were set on it when there is at most one of them: every
call sets the name that the last one sets, and a client reads this cookie as it was set.  Other names
are kept only in lines that other texts make by line ends of their own; without such line ends there
are none. -/
theorem cookies_kept_iff (rep : HTTPServerResponse) (calls : List CookieCall) (isHead : Bool) :
    (Kept rep calls isHead ↔ ∀ last, calls.getLast? = some last →
      Plain last ∧ ∀ name value, lastValue calls name = some value →
        Open rep ∧ name = last.name ∨ Stray rep last name value) ∧
    ∀ last, calls.getLast? = some last → Unsplit rep last →
      (Kept rep calls isHead ↔ (∀ c ∈ calls, c.name = last.name) ∧ Plain last) := by
  constructor
  · constructor
    · intro h last hlast
      exact (kept_iff_last rep isHead hlast).mp h
    · intro h name value hv
      obtain ⟨c, hc, -⟩ := lastValue_mem hv
      obtain ⟨last, hlast⟩ : ∃ last, calls.getLast? = some last :=
        ⟨_, List.getLast?_eq_getLast_of_ne_nil (List.ne_nil_of_mem hc)⟩
      exact (kept_iff_last rep isHead hlast).mpr (h last hlast) name value hv
  · intro last hlast hunsplit
    rw [kept_iff_last rep isHead hlast]
    constructor
    · rintro ⟨hplain, h⟩
      obtain ⟨-, hnone⟩ := hunsplit.no_stray hplain
      refine ⟨fun c hc => ?_, hplain⟩
      obtain ⟨value, hv⟩ := lastValue_isSome hc
      exact ((h c.name value hv).resolve_right (hnone _ _)).2
    · rintro ⟨hall, hplain⟩
      obtain ⟨hopen, -⟩ := hunsplit.no_stray hplain
      refine ⟨hplain, fun name value hv => .inl ⟨hopen, ?_⟩⟩
      obtain ⟨c, hc, rfl⟩ := lastValue_mem hv
      exact hall c hc

/-- A login that is remembered, and the session that was begun for it. -/
def loginCalls : List CookieCall :=
  [.set (str "jwt_token") (str "abc") 900 (str "/") [] true true (str "Lax"),
    .set (str "WSX_SESSION_ID") (str "42") 0 (str "/") [] false true (str "Lax")]

/-- The line of the session is the only one. -/
theorem loginCalls_displaced : ¬ Kept .init loginCalls false := by
  intro h
  obtain ⟨text, hline, hcarries, -⟩ := h (str "jwt_token") (str "abc") (by decide +kernel)
  have hlines : headLines (responseToBuffers (runAll .init loginCalls) false).flatten =
      [str "Set-Cookie: " ++ str "WSX_SESSION_ID=42; Path=/; HttpOnly; SameSite=Lax"] := by decide +kernel
  rw [hlines, List.mem_singleton, List.append_cancel_left_eq] at hline
  rw [hline] at hcarries
  exact absurd hcarries (by decide +kernel)

end Wsrv.Cookies
