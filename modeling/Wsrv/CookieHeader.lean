import Wsrv.DecodeSafety
import Wsrv.FormFields

/-!
# The grammar of the `Cookie` header

`parse_cookies` cuts the value of the header at its semicolons and reads a name
and a value from every segment, without the white space in front of the name.
It accepts the value exactly when every segment has an equals sign, and it reads
a list of cookies back that were joined with a semicolon and a space
(`cookies_grammar`).
-/

namespace Wsrv.CookieHeader

open RequestParser FormFields

/-! ## Cookies -/

/-- A name and a value that can be told apart in the header. -/
structure Cookie where
  name : Str
  value : Str
  name_ne_nil : name ≠ []
  name_plain : ∀ c ∈ name, c ≠ equal ∧ c ≠ ';'.toUInt8 ∧ isspace c = false
  value_plain : ';'.toUInt8 ∉ value

def Cookie.text (c : Cookie) : Str := c.name ++ equal :: c.value

/-- The value of the header. -/
def headerValue (cookies : List Cookie) : Str := (str "; ").intercalate (cookies.map Cookie.text)

/-- The map of the list: the last value of a name wins. -/
def cookieMap (cookies : List Cookie) : Dictionary :=
  cookies.foldl (fun d c => d.insert c.name c.value) ∅

/-- A request with this header and without cookies. -/
def withCookies (req : HTTPServerRequest) (data : Str) : HTTPServerRequest :=
  { req with SERVER := req.SERVER.insert (str "Cookie") data, COOKIE := ∅ }

def segments (data : Str) : List Str := data.splitOn ';'.toUInt8

/-! ## A segment -/

/-- The name and the value of a segment. -/
def pair (segment : Str) : Str × Str :=
  ((segment.takeWhile (· ≠ equal)).dropWhile isspace, (segment.dropWhile (· ≠ equal)).tail)

theorem takeWhile_isspace (name value : Str) :
    (name ++ equal :: value).takeWhile isspace = name.takeWhile isspace := by
  rw [List.takeWhile_append]
  split
  · rename_i hall
    rw [List.takeWhile_cons_of_neg (by decide), List.append_nil]
    exact ((List.takeWhile_prefix isspace).eq_of_length hall).symm
  · rfl

theorem drop_takeWhile (p : UInt8 → Bool) (s : Str) :
    s.drop (s.takeWhile p).length = s.dropWhile p := by
  have hsplit := congrArg (List.drop (s.takeWhile p).length)
    (List.takeWhile_append_dropWhile (p := p) (l := s))
  rw [List.drop_left] at hsplit
  exact hsplit.symm

theorem parseCookie_pair {segment : Str} (h : equal ∈ segment) (req : HTTPServerRequest) :
    parseCookie req segment =
      (.ok true, { req with COOKIE := req.COOKIE.insert (pair segment).1 (pair segment).2 }) := by
  obtain ⟨hsplit, hname⟩ := field_split h
  generalize hn : segment.takeWhile (· ≠ equal) = name at hsplit hname
  generalize hv : (segment.dropWhile (· ≠ equal)).tail = value at hsplit
  have hle := (List.takeWhile_prefix (p := isspace) (l := name)).length_le
  have hlead : substr segment (name.takeWhile isspace).length
      (some (name.length - (name.takeWhile isspace).length)) = .ok (name.dropWhile isspace) := by
    rw [hsplit, ← drop_takeWhile isspace name, substr, if_neg (by simp; omega),
      List.drop_append_of_le_length hle]
    simp
  have hrest := substr_behind name equal value
  rw [← hsplit] at hrest
  have hfind := find_append_cons hname value
  rw [← hsplit] at hfind
  unfold parseCookie
  rw [show find segment '='.toUInt8 = some name.length from hfind]
  simp only [cookieSpace, Regex.search_star_greedy, Option.map_some, Option.getD_some]
  rw [hsplit, takeWhile_isspace, ← hsplit, if_pos hle, hlead, hrest, pair, hn, hv]

/-- Every segment in its turn. -/
def storeAll (segments : List Str) (COOKIE : Dictionary) : Dictionary :=
  segments.foldl (fun d p => d.insert (pair p).1 (pair p).2) COOKIE

/-- The loop over segments that are pairs. -/
theorem cookieLoop_pairs (data : Str) (oldPos : Nat) (req : HTTPServerRequest)
    (hpos : oldPos ≤ data.length) (h : ∀ p ∈ pieces ';'.toUInt8 (data.drop oldPos) [], equal ∈ p) :
    cookieLoop data oldPos req =
      (.ok true,
        { req with COOKIE := storeAll (pieces ';'.toUInt8 (data.drop oldPos) []) req.COOKIE }) := by
  induction hn : data.length - oldPos using Nat.strong_induction_on generalizing oldPos req with
  | _ n ih =>
    subst hn
    rw [pieces_eq] at h ⊢
    rw [cookieLoop]
    split
    · rename_i hfrom
      have hfind : find (data.drop oldPos) ';'.toUInt8 = none := by simpa [findFrom] using hfrom
      have hsub : substr data oldPos none = .ok (data.drop oldPos) := by
        simp [substr, Nat.not_lt.mpr hpos]
      rw [hfind] at h ⊢
      rw [hsub]
      exact parseCookie_pair (h _ List.mem_cons_self) req
    · rename_i pos hfrom
      have hbounds := findFrom_bounds hfrom
      obtain ⟨i, hi, rfl⟩ := Option.map_eq_some_iff.mp hfrom
      have hsub : substr data oldPos (some (oldPos + i - oldPos)) =
          .ok ((data.drop oldPos).take i) := by
        simp [substr, Nat.not_lt.mpr hpos]
      rw [hi] at h ⊢
      simp only [List.nil_append, List.forall_mem_cons, List.drop_drop] at h
      rw [hsub]
      simp only [parseCookie_pair h.1, Decoded.andThen, List.nil_append, List.drop_drop]
      exact ih _ (by omega) (oldPos + i + 1) _ (by omega) h.2 rfl

/-! ## The header -/

theorem parseCookies_withCookies {req : HTTPServerRequest} {data : Str} (h : data ≠ []) :
    parseCookies (withCookies req data) = cookieLoop data 0 (withCookies req data) := by
  have hheader : (withCookies req data).SERVER[str "Cookie"]? = some data :=
    Std.ExtTreeMap.getElem?_insert_self
  rw [parseCookies, hheader]
  exact if_neg h

theorem pieces_segments (data : Str) : pieces ';'.toUInt8 (data.drop 0) [] = segments data := by
  rw [List.drop_zero, pieces_splitOn]
  exact modifyHead_same _

/-- The space behind a semicolon belongs to the segment. -/
theorem segments_headerValue (c : Cookie) (cookies : List Cookie) :
    segments (headerValue (c :: cookies)) =
      c.text :: cookies.map fun c => ' '.toUInt8 :: c.text := by
  have hjoin (t : Str) (ts : List Str) :
      (str "; ").intercalate (t :: ts) =
        [';'.toUInt8].intercalate (t :: ts.map (' '.toUInt8 :: ·)) := by
    induction ts generalizing t with
    | nil => rfl
    | cons t' ts ih =>
      rw [List.intercalate_cons_cons, ih, List.map_cons, List.intercalate_cons_cons]
      cases ts with
      | nil => simp [str]
      | cons t'' ts => simp [str, List.intercalate_cons_cons]
  have hplain (c : Cookie) : ';'.toUInt8 ∉ c.text := by
    intro hmem
    rcases List.mem_append.mp hmem with hname | hvalue
    · exact (c.name_plain _ hname).2.1 rfl
    · rcases List.mem_cons.mp hvalue with heq | hvalue
      · exact absurd heq (by decide)
      · exact c.value_plain hvalue
  rw [segments, headerValue, List.map_cons, hjoin, List.splitOn_intercalate _ _ (by simp),
    List.map_map]
  · rfl
  · intro p hp
    rcases List.mem_cons.mp hp with rfl | hp
    · exact hplain c
    · simp only [List.map_map, List.mem_map, Function.comp_apply] at hp
      obtain ⟨c', -, rfl⟩ := hp
      rw [List.mem_cons, not_or]
      exact ⟨by decide, hplain c'⟩

/-- A cookie is read back, with or without a space in front. -/
theorem pair_text (c : Cookie) {lead : Str} (hlead : ∀ x ∈ lead, x ≠ equal ∧ isspace x = true) :
    pair (lead ++ c.text) = (c.name, c.value) := by
  have hname : (c.name.dropWhile isspace) = c.name := by
    cases hn : c.name with
    | nil => rfl
    | cons x xs =>
      have hx := (c.name_plain x (by rw [hn]; exact List.mem_cons_self)).2.2
      rw [List.dropWhile_cons_of_neg (by simp [hx])]
  have htake : (lead ++ c.text).takeWhile (· ≠ equal) = lead ++ c.name := by
    rw [Cookie.text, ← List.append_assoc, List.takeWhile_append_of_pos]
    · simp
    · intro x hx
      rcases List.mem_append.mp hx with hx | hx
      · simpa using (hlead x hx).1
      · simpa using (c.name_plain x hx).1
  have hdrop : (lead ++ c.text).dropWhile (· ≠ equal) = equal :: c.value := by
    rw [Cookie.text, ← List.append_assoc, List.dropWhile_append_of_pos]
    · simp
    · intro x hx
      rcases List.mem_append.mp hx with hx | hx
      · simpa using (hlead x hx).1
      · simpa using (c.name_plain x hx).1
  rw [pair, htake, hdrop, List.dropWhile_append_of_pos fun x hx => (hlead x hx).2, hname]
  rfl

theorem headerValue_ne_nil {cookies : List Cookie} (h : cookies ≠ []) : headerValue cookies ≠ [] := by
  obtain ⟨c, cookies, rfl⟩ := List.exists_cons_of_ne_nil h
  intro hnil
  have hsegments := segments_headerValue c cookies
  rw [hnil] at hsegments
  have htext : c.text = [] := by simpa [segments] using (List.cons.inj hsegments).1.symm
  simp [Cookie.text] at htext

/-- **The grammar of the header**: a joined list of cookies is decoded to its map, and a value is
refused exactly when some segment has no equals sign. -/
theorem cookies_grammar (req : HTTPServerRequest) :
    (∀ cookies, cookies ≠ [] →
      parseCookies (withCookies req (headerValue cookies)) =
        (.ok true, { withCookies req (headerValue cookies) with COOKIE := cookieMap cookies })) ∧
      ∀ data, data ≠ [] →
        ((parseCookies (withCookies req data)).1 = .ok false ↔
          ∃ segment ∈ segments data, equal ∉ segment) := by
  constructor
  · intro cookies hne
    rw [parseCookies_withCookies (headerValue_ne_nil hne)]
    obtain ⟨c, cookies, rfl⟩ := List.exists_cons_of_ne_nil hne
    have hpieces := (pieces_segments _).trans (segments_headerValue c cookies)
    have hequal (c : Cookie) : equal ∈ c.text := by simp [Cookie.text]
    rw [cookieLoop_pairs _ 0 _ (Nat.zero_le _)]
    · have hspace : ∀ x ∈ [' '.toUInt8], x ≠ equal ∧ isspace x = true := by decide +kernel
      have hfirst : pair c.text = (c.name, c.value) := @pair_text c [] (by simp)
      have hrest (c : Cookie) : pair (' '.toUInt8 :: c.text) = (c.name, c.value) := pair_text c hspace
      rw [hpieces, storeAll, List.foldl_cons, List.foldl_map, cookieMap, List.foldl_cons]
      simp only [hfirst, hrest]
      rfl
    · rw [hpieces]
      simp [hequal]
  · intro data hne
    rw [parseCookies_withCookies hne]
    obtain ⟨COOKIE, hrun⟩ := cookieLoop_ok data 0 (withCookies req data) (Nat.zero_le _)
    rw [hrun, pieces_segments]
    simp [equal]

/-- Two cookies, one with an equals sign in its value and one with none. -/
def sampleCookies : List Cookie :=
  [⟨str "a", str "1=2", by decide, by decide +kernel, by decide⟩,
    ⟨str "b", [], by decide, by decide +kernel, by decide⟩]

theorem sampleCookies_grammar :
    parseCookies (withCookies .init (str "a=1=2; b=")) =
        (.ok true, { withCookies .init (str "a=1=2; b=") with COOKIE := cookieMap sampleCookies }) ∧
      (parseCookies (withCookies .init (str "a=1;"))).1 = .ok false := by
  have hvalue : headerValue sampleCookies = str "a=1=2; b=" := by decide
  obtain ⟨hlist, hrefused⟩ := cookies_grammar .init
  refine ⟨?_, (hrefused (str "a=1;") (by decide)).mpr ⟨[], by decide, by decide⟩⟩
  rw [← hvalue]
  exact hlist sampleCookies (by decide)

end Wsrv.CookieHeader
