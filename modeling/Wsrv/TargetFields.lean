import Wsrv.ChunkInvariance
import Wsrv.PercentCodec
import Wsrv.RequestPath

/-!
# The fields of a long target

`http_parser_parse_url` keeps the offset and the length of a part of the URL in
16 bits, and `parse_url` cuts the parts out of the target with them.  A target
may be longer than that: the header limit is 80 KiB.  `parseUrl_target_iff` says
which targets in origin form are nevertheless taken apart at their `?` and `#`.
-/

namespace Wsrv

open Http

/-! ## Targets in origin form -/

/-- The first character of a query. -/
def questionMark : UInt8 := '?'.toUInt8

/-- The first character of a fragment. -/
def numberSign : UInt8 := '#'.toUInt8

/-- A target that begins with a slash and whose characters the parser of a request admits. -/
def OriginForm (t : Str) : Prop :=
  t.head? = some '/'.toUInt8 ∧ t.foldl parseUrlChar .reqSpacesBeforeUrl ≠ .dead

instance (t : Str) : Decidable (OriginForm t) := inferInstanceAs (Decidable (_ ∧ _))

/-- The part before the first `?` or `#`. -/
def pathPart (t : Str) : Str := t.takeWhile fun c => c != questionMark && c != numberSign

/-- The part after a `?` that ends the path, up to the first `#`. -/
def queryPart (t : Str) : Str :=
  match t.drop (pathPart t).length with
  | [] => []
  | c :: rest => if c = questionMark then rest.takeWhile (· != numberSign) else []

/-- A character that may follow on the slash. -/
def targetChar (c : UInt8) : Bool := isUrlChar c || c == questionMark || c == numberSign

/-! ## The scan of a target -/

theorem foldl_dead (s : Str) : s.foldl parseUrlChar .dead = .dead := by
  induction s with
  | nil => rfl
  | cons c s ih =>
    have hdead : parseUrlChar .dead c = .dead := by
      unfold parseUrlChar
      split_ifs <;> rfl
    rw [List.foldl_cons, hdead, ih]

/-- The states behind the slash. -/
def behindSlash : List State :=
  [.reqPath, .reqQueryStringStart, .reqQueryString, .reqFragmentStart, .reqFragment]

/-- Behind the slash the scan of the request line goes on at these characters, and at no others. -/
theorem parseUrlChar_behindSlash (c : UInt8) {s : State} (hs : s ∈ behindSlash) :
    if targetChar c then parseUrlChar s c ∈ behindSlash else parseUrlChar s c = .dead :=
  forall_byte (P := fun c => ∀ s ∈ behindSlash,
    if targetChar c then parseUrlChar s c ∈ behindSlash else parseUrlChar s c = .dead)
    (by decide +kernel) c s hs

theorem foldl_behindSlash {rest : Str} {s : State} (hs : s ∈ behindSlash) :
    rest.foldl parseUrlChar s ≠ .dead ↔ ∀ c ∈ rest, targetChar c = true := by
  induction rest generalizing s with
  | nil =>
    refine iff_of_true ?_ (by simp)
    rintro rfl
    exact absurd hs (by decide)
  | cons c rest ih =>
    have hnext := parseUrlChar_behindSlash c hs
    rw [List.foldl_cons, List.forall_mem_cons]
    cases hc : targetChar c with
    | true =>
      rw [hc, if_pos rfl] at hnext
      rw [ih hnext, and_iff_right rfl]
    | false =>
      rw [hc, if_neg (by decide)] at hnext
      rw [hnext, foldl_dead]
      simp

theorem originForm_iff (t : Str) :
    OriginForm t ↔ ∃ rest, t = '/'.toUInt8 :: rest ∧ ∀ c ∈ rest, targetChar c = true := by
  unfold OriginForm
  cases t with
  | nil => simp
  | cons c rest =>
    constructor
    · rintro ⟨hhead, halive⟩
      obtain rfl : c = '/'.toUInt8 := by simpa using hhead
      have hslash : parseUrlChar .reqSpacesBeforeUrl '/'.toUInt8 = .reqPath := by decide
      rw [List.foldl_cons, hslash, foldl_behindSlash (by decide)] at halive
      exact ⟨rest, rfl, halive⟩
    · rintro ⟨rest', heq, hrest⟩
      obtain ⟨rfl, rfl⟩ := List.cons.inj heq
      have hslash : parseUrlChar .reqSpacesBeforeUrl '/'.toUInt8 = .reqPath := by decide
      rw [List.foldl_cons, hslash, foldl_behindSlash (by decide)]
      exact ⟨rfl, hrest⟩

/-- The states of a fragment. -/
def inFragment (s : State) : Prop := s = .reqFragmentStart ∨ s = .reqFragment

theorem parseUrlChar_fragment {s : State} (hs : inFragment s) {c : UInt8}
    (h : targetChar c = true) : inFragment (parseUrlChar s c) := by
  have hall := forall_byte (P := fun c => targetChar c = true →
    ∀ s ∈ [State.reqFragmentStart, .reqFragment],
      parseUrlChar s c = .reqFragmentStart ∨ parseUrlChar s c = .reqFragment)
    (by decide +kernel) c h
  exact hall s (by rcases hs with rfl | rfl <;> decide)

/-- A character of a fragment changes no other field. -/
theorem step_fragment {x : UrlScan} {c : UInt8} (h : inFragment (parseUrlChar x.state c)) (p : Nat) :
    ∃ y, x.step p c = some y ∧ inFragment y.state ∧
      ∀ uf, uf ≠ .fragment → y.fields uf = x.fields uf := by
  unfold UrlScan.step
  rcases h with h | h <;> simp only [h, reduceCtorEq, if_false, urlField]
  · exact ⟨_, rfl, .inl rfl, fun _ _ => rfl⟩
  · split
    · exact ⟨_, rfl, .inr rfl, fun uf hne => Function.update_of_ne hne _ _⟩
    · exact ⟨_, rfl, .inr rfl, fun uf hne => Function.update_of_ne hne _ _⟩

theorem urlLoop_fragment {frag : Str} (hfrag : ∀ c ∈ frag, targetChar c = true) (p : Nat)
    {x : UrlScan} (hx : inFragment x.state) :
    ∃ x', urlLoop frag p x = some x' ∧ ∀ uf, uf ≠ .fragment → x'.fields uf = x.fields uf := by
  induction frag generalizing p x with
  | nil => exact ⟨x, rfl, fun _ _ => rfl⟩
  | cons c frag ih =>
    obtain ⟨y, hy, hstate, hfields⟩ :=
      step_fragment (parseUrlChar_fragment hx (hfrag c List.mem_cons_self)) p
    obtain ⟨x', hx', hkeep⟩ := ih (fun c hc => hfrag c (List.mem_cons_of_mem _ hc)) (p + 1) hstate
    exact ⟨x', by rw [urlLoop, hy, Option.bind_some, hx'],
      fun uf hne => (hkeep uf hne).trans (hfields uf hne)⟩

/-- The scan of a path. -/
theorem urlLoop_slashPath {path : Str} (hpath : ∀ c ∈ path, isUrlChar c = true) (rest : Str) :
    urlLoop ('/'.toUInt8 :: path ++ rest) 0 ⟨.reqSpacesBeforeUrl, none, false, fun _ => none⟩ =
      urlLoop rest (path.length + 1) ⟨.reqPath, some .path, false,
        Function.update (fun _ => none) .path (some (0, uint16 (path.length + 1)))⟩ := by
  have hone : UrlScan.step 0 '/'.toUInt8 ⟨.reqSpacesBeforeUrl, none, false, fun _ => none⟩ =
      some ⟨.reqPath, some .path, false, FieldData.start (fun _ => none) .path 0 1⟩ := rfl
  rw [List.cons_append, urlLoop, hone, Option.bind_some, urlLoop_append,
    @urlLoop_field _ _ 0 path 1 1 _ rfl rfl (fun c h => parseUrlChar_path (hpath c h)) rfl,
    Option.bind_some, FieldData.start, Function.update_idem, Nat.add_comm 1]

/-- What may follow on a query: nothing, or a fragment. -/
def Fragment (s : Str) : Prop :=
  s = [] ∨ ∃ frag, s = numberSign :: frag ∧ ∀ c ∈ frag, targetChar c = true

/-- The scan of what follows on a path or on a query. -/
theorem urlLoop_fragmentTail {tail : Str} (htail : Fragment tail) (p : Nat) {x : UrlScan}
    (hx : x.state ∈ behindSlash) :
    ∃ x', urlLoop tail p x = some x' ∧ ∀ uf, uf ≠ .fragment → x'.fields uf = x.fields uf := by
  rcases htail with rfl | ⟨frag, rfl, hfrag⟩
  · exact ⟨x, rfl, fun _ _ => rfl⟩
  · have hsign : inFragment (parseUrlChar x.state numberSign) := by
      have hall : ∀ s ∈ behindSlash, parseUrlChar s numberSign = .reqFragmentStart ∨
          parseUrlChar s numberSign = .reqFragment := by decide
      exact hall _ hx
    obtain ⟨y, hy, hstate, hfields⟩ := step_fragment hsign p
    obtain ⟨x', hx', hkeep⟩ := urlLoop_fragment hfrag (p + 1) hstate
    exact ⟨x', by rw [urlLoop, hy, Option.bind_some, hx'],
      fun uf hne => (hkeep uf hne).trans (hfields uf hne)⟩

/-- A character of a query. -/
def queryChar (c : UInt8) : Bool := isUrlChar c || c == questionMark

theorem parseUrlChar_queryChar {s : State} (hs : s = .reqQueryStringStart ∨ s = .reqQueryString)
    {c : UInt8} (h : queryChar c = true) : parseUrlChar s c = .reqQueryString := by
  have hall := forall_byte (P := fun c => queryChar c = true →
    ∀ s ∈ [State.reqQueryStringStart, .reqQueryString], parseUrlChar s c = .reqQueryString)
    (by decide +kernel) c h
  exact hall s (by rcases hs with rfl | rfl <;> decide)

/-- The scan of a query and what follows on it. -/
theorem urlLoop_query {query tail : Str} (hquery : ∀ c ∈ query, queryChar c = true)
    (htail : Fragment tail) (p : Nat) (fields : FieldData) (hunset : fields .query = none) :
    ∃ x, urlLoop (query ++ tail) p ⟨.reqQueryStringStart, some .path, false, fields⟩ = some x ∧
      (∀ uf, uf ≠ .fragment → uf ≠ .query → x.fields uf = fields uf) ∧
      x.fields .query = if query = [] then none else some (uint16 p, uint16 query.length) := by
  cases query with
  | nil =>
    obtain ⟨x, hx, hkeep⟩ := @urlLoop_fragmentTail tail htail p
      ⟨.reqQueryStringStart, some .path, false, fields⟩ (by simp [behindSlash])
    exact ⟨x, hx, fun uf hfrag _ => hkeep uf hfrag, (hkeep .query (by decide)).trans hunset⟩
  | cons c query =>
    have hfirst : UrlScan.step p c ⟨.reqQueryStringStart, some .path, false, fields⟩ =
        some ⟨.reqQueryString, some .query, false, fields.start .query p 1⟩ := by
      have hchar := parseUrlChar_queryChar (.inl rfl) (hquery c List.mem_cons_self)
      simp [UrlScan.step, hchar, urlField]
    have hloop := @urlLoop_field _ _ (uint16 p) query (p + 1) 1 (fields.start .query p 1) rfl rfl
      (fun c hc => parseUrlChar_queryChar (.inr rfl) (hquery c (List.mem_cons_of_mem _ hc)))
      (by simp [FieldData.start]; rfl)
    rw [List.cons_append, urlLoop, hfirst, Option.bind_some, urlLoop_append, hloop, Option.bind_some]
    obtain ⟨x, hx, hkeep⟩ := @urlLoop_fragmentTail tail htail (p + 1 + query.length)
      ⟨.reqQueryString, some .query, false, Function.update (fields.start .query p 1) .query
        (some (uint16 p, uint16 (1 + query.length)))⟩ (by simp [behindSlash])
    refine ⟨x, hx, fun uf hfrag hne => (hkeep uf hfrag).trans ?_, (hkeep .query (by decide)).trans ?_⟩
    · simp only [FieldData.start, Function.update_of_ne hne]
    · simp [Nat.add_comm 1]

/-! ## The fields of a target -/

/-- A list is what its filter takes from the front, and then the end or a character it refuses. -/
theorem takeWhile_cut (keep : UInt8 → Bool) (s : Str) :
    s = s.takeWhile keep ∨
      ∃ c rest, s = s.takeWhile keep ++ c :: rest ∧ keep c = false := by
  rcases hdrop : s.dropWhile keep with _ | ⟨c, rest⟩
  · exact .inl (by simpa [hdrop] using (List.takeWhile_append_dropWhile (p := keep) (l := s)).symm)
  · refine .inr ⟨c, rest, by rw [← hdrop, List.takeWhile_append_dropWhile], ?_⟩
    have hne : s.dropWhile keep ≠ [] := by simp [hdrop]
    have hhead := List.head_dropWhile_not keep hne
    simpa [hdrop] using hhead

/-- The filter of the path. -/
def pathChar (c : UInt8) : Bool := c != questionMark && c != numberSign

theorem isUrlChar_of_path {c : UInt8} (hc : targetChar c = true) (hne : pathChar c = true) :
    isUrlChar c = true := by
  simp only [targetChar, Bool.or_eq_true, beq_iff_eq] at hc
  simp only [pathChar, Bool.and_eq_true, bne_iff_ne] at hne
  exact (hc.resolve_right hne.2).resolve_right hne.1

theorem queryChar_of_query {c : UInt8} (hc : targetChar c = true) (hne : (c != numberSign) = true) :
    queryChar c = true := by
  simp only [targetChar, Bool.or_eq_true, beq_iff_eq] at hc
  rw [bne_iff_ne] at hne
  simpa only [queryChar, Bool.or_eq_true, beq_iff_eq] using hc.resolve_right hne

theorem queryPart_path {path : Str} (hpath : pathPart path = path) : queryPart path = [] := by
  unfold queryPart
  rw [hpath, List.drop_length]

theorem queryPart_behind {t rest : Str} {c : UInt8} (h : t = pathPart t ++ c :: rest) :
    queryPart t = if c = questionMark then rest.takeWhile (· != numberSign) else [] := by
  have hdrop : t.drop (pathPart t).length = c :: rest := by
    have hcongr := congrArg (List.drop (pathPart t).length) h
    rwa [List.drop_left] at hcongr
  unfold queryPart
  rw [hdrop]

/-- A target in origin form, taken apart. -/
theorem originForm_parts {t : Str} (h : OriginForm t) :
    ∃ path, pathPart t = '/'.toUInt8 :: path ∧ (∀ c ∈ path, isUrlChar c = true) ∧
      ((∃ tail, t = pathPart t ++ tail ∧ queryPart t = [] ∧ Fragment tail) ∨
        ∃ tail, t = pathPart t ++ questionMark :: (queryPart t ++ tail) ∧
          (∀ c ∈ queryPart t, queryChar c = true) ∧ Fragment tail) := by
  obtain ⟨rest, rfl, hrest⟩ := (originForm_iff t).mp h
  have hpath : pathPart ('/'.toUInt8 :: rest) = '/'.toUInt8 :: rest.takeWhile pathChar := by
    have hslash : ('/'.toUInt8 != questionMark && '/'.toUInt8 != numberSign) = true := by decide
    exact List.takeWhile_cons_of_pos hslash
  refine ⟨rest.takeWhile pathChar, hpath, fun c hc => isUrlChar_of_path
    (hrest c (List.takeWhile_subset _ hc)) (List.mem_takeWhile_imp hc), ?_⟩
  rcases takeWhile_cut pathChar rest with hall | ⟨c, behind, hcut, hc⟩
  · have hwhole : pathPart ('/'.toUInt8 :: rest) = '/'.toUInt8 :: rest := hpath.trans (by rw [← hall])
    exact .inl ⟨[], by rw [hwhole, List.append_nil], queryPart_path hwhole, .inl rfl⟩
  have hwhole : '/'.toUInt8 :: rest = pathPart ('/'.toUInt8 :: rest) ++ c :: behind := by
    rw [hpath, List.cons_append, ← hcut]
  have hquery := queryPart_behind hwhole
  have hbehind : ∀ c ∈ behind, targetChar c = true := by
    intro c hmem
    refine hrest c ?_
    rw [hcut]
    simp [hmem]
  by_cases hmark : c = questionMark
  · subst hmark
    rw [if_pos rfl] at hquery
    have hchars : ∀ c ∈ behind.takeWhile (· != numberSign), queryChar c = true := fun c hc =>
      queryChar_of_query (hbehind c (List.takeWhile_subset _ hc))
        (List.mem_takeWhile_imp (p := (· != numberSign)) hc)
    rw [hquery]
    rcases takeWhile_cut (· != numberSign) behind with hall | ⟨c, frag, hfrag, hsign⟩
    · exact .inr ⟨[], by rw [← hall, List.append_nil]; exact hwhole, hchars, .inl rfl⟩
    · obtain rfl : c = numberSign := by simpa using hsign
      refine .inr ⟨numberSign :: frag, by rw [← hfrag]; exact hwhole, hchars, .inr ⟨frag, rfl, ?_⟩⟩
      intro c hmem
      refine hbehind c ?_
      rw [hfrag]
      simp [hmem]
  · rw [if_neg hmark] at hquery
    have hsign : c = numberSign := by
      simp only [pathChar, Bool.and_eq_false_iff, bne_eq_false_iff_eq] at hc
      exact hc.resolve_left hmark
    subst hsign
    exact .inl ⟨_, hwhole, hquery, .inr ⟨behind, rfl, hbehind⟩⟩

/-- The offset and the length of the query of a target. -/
def queryField (t : Str) : Option (Nat × Nat) :=
  if queryPart t = [] then none
  else some (uint16 ((pathPart t).length + 1), uint16 (queryPart t).length)

/-- **The fields of a target in origin form** are those of its path and its query, in 16 bits. -/
theorem parseUrl_originForm {t : Str} (h : OriginForm t) :
    ∃ u, Http.parseUrl t = .parsed u ∧ u .path = some (0, uint16 (pathPart t).length) ∧
      u .query = queryField t := by
  obtain ⟨path, hpath, hchars, ⟨tail, htail, hquery, hfrag⟩ | ⟨tail, htail, hquery, hfrag⟩⟩ :=
    originForm_parts h
  · have hscan := urlLoop_slashPath hchars tail
    rw [← hpath, ← htail] at hscan
    obtain ⟨x, hx, hkeep⟩ := @urlLoop_fragmentTail tail hfrag (path.length + 1)
      ⟨.reqPath, some .path, false, Function.update (fun _ => none) .path
        (some (0, uint16 (path.length + 1)))⟩ (by simp [behindSlash])
    refine ⟨x.fields, parseUrl_of_loop (hscan.trans hx) ?_ ?_ ?_, ?_, ?_⟩
    · exact hkeep .schema (by decide)
    · exact hkeep .host (by decide)
    · exact hkeep .port (by decide)
    · rw [hkeep .path (by decide), hpath]
      rfl
    · rw [hkeep .query (by decide), queryField, if_pos hquery]
      rfl
  · have hscan := urlLoop_slashPath hchars (questionMark :: (queryPart t ++ tail))
    rw [← hpath, ← htail] at hscan
    obtain ⟨x, hx, hkeep, hfield⟩ := urlLoop_query hquery hfrag (path.length + 2)
      (Function.update (fun _ => none) .path (some (0, uint16 (path.length + 1)))) rfl
    have hstep (fields : FieldData) (p : Nat) :
        UrlScan.step p questionMark ⟨.reqPath, some .path, false, fields⟩ =
          some ⟨.reqQueryStringStart, some .path, false, fields⟩ := rfl
    rw [urlLoop, hstep, Option.bind_some, hx] at hscan
    refine ⟨x.fields, parseUrl_of_loop hscan ?_ ?_ ?_, ?_, ?_⟩
    · exact hkeep .schema (by decide) (by decide)
    · exact hkeep .host (by decide) (by decide)
    · exact hkeep .port (by decide) (by decide)
    · rw [hkeep .path (by decide) (by decide), hpath]
      rfl
    · rw [hfield, queryField, hpath]
      rfl

/-- What `get_url_field` makes of the path. -/
def cutPath (t : Str) : Str := t.take (uint16 (pathPart t).length)

/-- What `get_url_field` makes of the query. -/
def cutQuery (t : Str) : Str :=
  if queryPart t = [] then []
  else (t.drop (uint16 ((pathPart t).length + 1))).take (uint16 (queryPart t).length)

theorem queryPart_length {t : Str} (hne : queryPart t ≠ []) : (pathPart t).length + 1 ≤ t.length := by
  by_contra hlt
  have hlt : t.length ≤ (pathPart t).length := by omega
  refine hne ?_
  rw [queryPart, List.drop_eq_nil_of_le hlt]

theorem cutPath_short {t : Str} (h : (pathPart t).length < 2 ^ 16) : cutPath t = pathPart t := by
  rw [cutPath, uint16, Nat.mod_eq_of_lt h]
  exact (List.prefix_iff_eq_take.mp (List.takeWhile_prefix _)).symm

theorem cutQuery_short {t : Str} (h : OriginForm t) (hpath : (pathPart t).length + 1 < 2 ^ 16)
    (hquery : (queryPart t).length < 2 ^ 16) : cutQuery t = queryPart t := by
  rw [cutQuery, uint16, uint16, Nat.mod_eq_of_lt hpath, Nat.mod_eq_of_lt hquery]
  obtain ⟨-, -, -, ⟨-, -, hnil, -⟩ | ⟨tail, htail, -, -⟩⟩ := originForm_parts h
  · rw [if_pos hnil, hnil]
  · have hdrop : t.drop ((pathPart t).length + 1) = queryPart t ++ tail := by
      have hcongr := congrArg (List.drop ((pathPart t).length + 1)) htail
      rw [hcongr, ← List.drop_drop, List.drop_left, List.drop_one, List.tail_cons]
    rw [hdrop, List.take_left]
    split_ifs with hnil
    · exact hnil.symm
    · rfl

namespace RequestParser

/-- The request gets the parts that are cut out, decoded. -/
theorem urlParts_originForm {t : Str} (h : OriginForm t) (path query : Str) :
    urlParts t = .ok (some (path, query)) ↔
      (urlDecode (cutPath t)).map normalizePath = some path ∧
        urlDecode (cutQuery t) = some query := by
  obtain ⟨u, hu, hpath, hquery⟩ := parseUrl_originForm h
  have huri : getUrlField t u .path = .ok (cutPath t) := by
    rw [getUrlField, hpath]
    rfl
  have hargs : getUrlField t u .query = .ok (cutQuery t) := by
    rw [getUrlField, hquery, queryField, cutQuery]
    by_cases hne : queryPart t = []
    · rw [if_pos hne, if_pos hne]
    · have hlen := queryPart_length hne
      have hmod : uint16 ((pathPart t).length + 1) ≤ (pathPart t).length + 1 := Nat.mod_le _ _
      rw [if_neg hne, if_neg hne]
      exact if_neg (by omega)
  unfold urlParts urlPartsWith
  simp only [hu, huri, hargs]
  cases urlDecode (cutPath t) <;> cases urlDecode (cutQuery t) <;> simp

/-- `parse_url` sets the path and the query to the parts of the target. -/
theorem parseUrl_parts (req : HTTPServerRequest) (t path query : Str) :
    ((parseUrl req t).1 = .ok true ∧ (parseUrl req t).2.path = path ∧
        (parseUrl req t).2.query = query) ↔
      urlParts t = .ok (some (path, query)) := by
  rcases parseUrl_cases req t with ⟨f, hu, hp⟩ | ⟨hu, hp⟩ | ⟨path', query', GET, hu, hp⟩ <;>
    simp [hu, hp]

/-! ## When a target is taken apart -/

/-- The path and the query of the request are those of the target, where both can be decoded. -/
def TakenApart (req : HTTPServerRequest) (t : Str) : Prop :=
  ∀ path query, urlDecode (pathPart t) = some path → urlDecode (queryPart t) = some query →
    (parseUrl req t).1 = .ok true ∧ (parseUrl req t).2.path = normalizePath path ∧
      (parseUrl req t).2.query = query

/-- The path is shorter than 64 KiB, or what is left of its length leads to the same path. -/
def PathKept (t path : Str) : Prop :=
  (pathPart t).length < 2 ^ 16 ∨ (urlDecode (cutPath t)).map normalizePath = some (normalizePath path)

/-- There is no query, or it begins and ends within 64 KiB, or what is left of its offset and its
length leads to the same query. -/
def QueryKept (t query : Str) : Prop :=
  queryPart t = [] ∨ ((pathPart t).length + 1 < 2 ^ 16 ∧ (queryPart t).length < 2 ^ 16) ∨
    urlDecode (cutQuery t) = some query

/-- **`parse_url` takes a target apart** at its `?` and `#` if and only if the 16 bits of an offset
or a length are enough, or what they leave decodes to the same. -/
theorem parseUrl_target_iff (req : HTTPServerRequest) (t : Str) (h : OriginForm t) :
    TakenApart req t ↔
      ∀ path query, urlDecode (pathPart t) = some path → urlDecode (queryPart t) = some query →
        PathKept t path ∧ QueryKept t query := by
  refine forall₄_congr fun path query hpath hquery => ?_
  have hkept : PathKept t path ↔
      (urlDecode (cutPath t)).map normalizePath = some (normalizePath path) := by
    refine ⟨fun hk => hk.elim (fun hshort => ?_) id, .inr⟩
    rw [cutPath_short hshort, hpath, Option.map_some]
  have hkept' : QueryKept t query ↔ urlDecode (cutQuery t) = some query := by
    refine ⟨?_, fun hk => .inr (.inr hk)⟩
    rintro (hnil | ⟨hbegin, hend⟩ | hk)
    · rw [cutQuery, if_pos hnil, ← hnil, hquery]
    · rw [cutQuery_short h hbegin hend, hquery]
    · exact hk
  rw [hkept, hkept', parseUrl_parts, urlParts_originForm h]

/-- A target whose query is past its path and before a fragment. -/
def shortTarget : Str := str "/a%20b/?q=1?#f"

theorem shortTarget_apart : OriginForm shortTarget ∧ TakenApart .init shortTarget := by
  have h : OriginForm shortTarget := by decide +kernel
  exact ⟨h, (parseUrl_target_iff .init shortTarget h).mpr fun _ _ _ _ =>
    ⟨.inl (by decide +kernel), .inr (.inl ⟨by decide +kernel, by decide +kernel⟩)⟩⟩

/-! ## A target that is too long -/

/-- A character of the path is no end of the target. -/
theorem ne_end_of_isUrlChar {c : UInt8} (h : isUrlChar c = true) :
    c ≠ ' '.toUInt8 ∧ c ≠ CR ∧ c ≠ LF := by
  refine ⟨?_, ?_, ?_⟩ <;> rintro rfl <;> exact absurd h (by decide)

theorem switch_path {c : UInt8} (hc : isUrlChar c = true) {p : HttpParser}
    (hp : p.state = .reqPath) : switch p c = .go none p .none .next := by
  obtain ⟨hspace, hcr, hlf⟩ := ne_end_of_isUrlChar hc
  have hself : ({ p with state := .reqPath } : HttpParser) = p := by rw [← hp]
  have hnext : urlChar none p c = .go none p .none .next := by
    rw [urlChar, hp, parseUrlChar_path hc, hself]
    exact if_neg (by rw [hp]; decide)
  unfold switch
  rw [hp]
  simp only [switchRequestTarget, hp, hspace, hcr, hlf, or_self, if_false, hnext]

theorem reading_pathChar {c : UInt8} (hc : isUrlChar c = true) (seen : Bool) {p : HttpParser}
    (hp : p.state = .reqPath) (m : MessageLog) (hroom : p.nread + 1 ≤ HTTP_MAX_HEADER_SIZE) :
    Reading.byte (.going seen p m) c = .going seen { p with nread := p.nread + 1 } m := by
  have hcount : countByte p = { p with nread := p.nread + 1 } := by
    unfold countByte
    rw [hp]
    rfl
  have hstep : MessageLog.reader.stepByte c p m = (none, { p with nread := p.nread + 1 }, m) := by
    rw [Reader.stepByte, hcount, if_neg fun h => absurd h.2 (by simpa using hroom), passes,
      Reader.byte, @switch_path c hc { p with nread := p.nread + 1 } hp]
    simp only [Reader.call, hp]
    rfl
  rw [Reading.byte, hstep]

/-- The reader of a path counts its characters. -/
theorem reading_path {rest : Str} (hrest : ∀ c ∈ rest, isUrlChar c = true) (seen : Bool)
    {p : HttpParser} (hp : p.state = .reqPath) (m : MessageLog)
    (hroom : p.nread + rest.length ≤ HTTP_MAX_HEADER_SIZE) :
    Reading.text (.going seen p m) rest =
      .going seen { p with nread := p.nread + rest.length } m := by
  induction rest generalizing p with
  | nil => rfl
  | cons c rest ih =>
    rw [List.length_cons] at hroom
    rw [Reading.text, List.foldl_cons,
      reading_pathChar (hrest c List.mem_cons_self) seen hp m (by omega)]
    have htail := @ih (fun c hc => hrest c (List.mem_cons_of_mem _ hc))
      { p with nread := p.nread + 1 } hp (by simpa [Nat.add_assoc, Nat.add_comm 1] using hroom)
    rw [Reading.text] at htail
    rw [htail, List.length_cons, Nat.add_assoc, Nat.add_comm 1]

theorem scan_path {rest : Str} (hrest : ∀ c ∈ rest, isUrlChar c = true) (text : Str) :
    rest.foldl TargetScan.byte ⟨.target, text⟩ = ⟨.target, text ++ rest⟩ := by
  induction rest generalizing text with
  | nil => rw [List.foldl_nil, List.append_nil]
  | cons c rest ih =>
    obtain ⟨hspace, hcr, hlf⟩ := ne_end_of_isUrlChar (hrest c List.mem_cons_self)
    have hnext : ScanStage.next .target c = .target := if_neg (by simp [hspace, hcr, hlf])
    rw [List.foldl_cons, TargetScan.byte, hnext, if_pos rfl,
      ih (fun c hc => hrest c (List.mem_cons_of_mem _ hc)), List.append_assoc, List.singleton_append]

/-- A path of 64 KiB and one character. -/
def longTarget : Str := '/'.toUInt8 :: List.replicate (2 ^ 16) 'a'.toUInt8

/-- A request for it. -/
def longRequest : Str := str "GET /" ++ List.replicate (2 ^ 16) 'a'.toUInt8 ++ str " HTTP/1.1\r\n\r\n"

theorem longTarget_chars : ∀ c ∈ List.replicate (2 ^ 16) 'a'.toUInt8, isUrlChar c = true := by
  intro c hc
  rw [List.eq_of_mem_replicate hc]
  decide

theorem longRequest_admitted :
    ((new false).parse longRequest).1 = .ok ∧
      ((new false).parse longRequest).2.fields.url = longTarget := by
  have hne : longRequest ≠ [] := List.append_ne_nil_of_right_ne_nil _ (by decide)
  have hok : ((new false).parse longRequest).1 = .ok := by
    rw [parse_ok_iff false hne, longRequest, Reading.text_append, Reading.text_append]
    obtain ⟨p, m, hhead, hp, hroom, hend⟩ : ∃ p m,
        (startReading false).text (str "GET /") = .going false p m ∧ p.state = .reqPath ∧
          p.nread + 2 ^ 16 ≤ HTTP_MAX_HEADER_SIZE ∧
          (Reading.text (.going false { p with nread := p.nread + 2 ^ 16 } m)
            (str " HTTP/1.1\r\n\r\n")).ok = true :=
      ⟨_, _, rfl, by decide +kernel, by decide +kernel, by decide +kernel⟩
    rw [hhead, reading_path longTarget_chars false hp m (by rwa [List.length_replicate]),
      List.length_replicate]
    exact hend
  refine ⟨hok, ?_⟩
  have hscan := (parse_scanned (urlAt_start false) hne (by rw [hok]; decide)).1
  rw [hscan, TargetScan.read, if_neg (by decide), longRequest, List.foldl_append, List.foldl_append]
  have hhead : (str "GET /").foldl TargetScan.byte .start = ⟨.target, str "/"⟩ := rfl
  have htail (text : Str) : (str " HTTP/1.1\r\n\r\n").foldl TargetScan.byte ⟨.target, text⟩ =
      ⟨.done, text⟩ := rfl
  rw [hhead, scan_path longTarget_chars, htail]
  rfl

/-- `url_decode` leaves a text alone that escapes nothing. -/
theorem urlDecode_plain {s : Str} (h : ∀ c ∈ s, c ≠ 0 ∧ c ≠ '+'.toUInt8 ∧ c ≠ '%'.toUInt8) :
    urlDecode s = some s := by
  have hnul : 0 ∉ s := fun h0 => (h 0 h0).1 rfl
  have hloop : ∀ s : Str, (∀ c ∈ s, c ≠ '+'.toUInt8 ∧ c ≠ '%'.toUInt8) → urlDecodeLoop s = some s := by
    intro s hs
    induction s with
    | nil => rfl
    | cons c s ih =>
      obtain ⟨hplus, hpercent⟩ := hs c List.mem_cons_self
      rw [urlDecodeLoop.eq_def]
      simp [hplus, hpercent, ih fun c hc => hs c (List.mem_cons_of_mem _ hc)]
  rw [urlDecode, cstr_of_no_nul hnul]
  exact hloop s fun c hc => (h c hc).2

theorem longTarget_mem {c : UInt8} (h : c ∈ longTarget) : c = '/'.toUInt8 ∨ c = 'a'.toUInt8 :=
  (List.mem_cons.mp h).imp_right List.eq_of_mem_replicate

theorem longTarget_path : pathPart longTarget = longTarget :=
  List.takeWhile_eq_self_iff.mpr fun c hc => by rcases longTarget_mem hc with rfl | rfl <;> decide

theorem longTarget_decoded : urlDecode longTarget = some longTarget :=
  urlDecode_plain fun c hc => by rcases longTarget_mem hc with rfl | rfl <;> decide

theorem longTarget_normal : normalizePath longTarget = longTarget := by
  have hlen : (List.replicate (2 ^ 16) 'a'.toUInt8).length = 2 ^ 16 := List.length_replicate
  have hmem : ∀ c, c ∈ List.replicate (2 ^ 16) 'a'.toUInt8 → c = 'a'.toUInt8 := fun c =>
    List.eq_of_mem_replicate
  unfold longTarget
  generalize List.replicate (2 ^ 16) 'a'.toUInt8 = as at hlen hmem ⊢
  have hseg : Segment as := by
    refine ⟨?_, ?_, ?_, fun h => absurd (hmem _ h) (by decide), fun h => absurd (hmem _ h) (by decide)⟩ <;>
    · rintro rfl
      exact absurd hlen (by decide)
  have hpath : '/'.toUInt8 :: as = pathOf [as] := by simp [pathOf, join, str]
  rw [hpath]
  exact normalizePath_pathOf (by simpa using hseg)

/-- **The length of its path begins anew**: one character of it is left. -/
theorem longTarget_lost :
    ¬∀ (req : HTTPServerRequest) (t : Str), OriginForm t →
      (∃ junk data, ((new junk).parse data).1 = .ok ∧ ((new junk).parse data).2.fields.url = t) →
        TakenApart req t := by
  intro hall
  have horigin : OriginForm longTarget := (originForm_iff _).mpr ⟨_, rfl, fun c hc => by
    rw [targetChar, longTarget_chars c hc]
    rfl⟩
  have hapart := hall .init longTarget horigin ⟨false, longRequest, longRequest_admitted⟩
  have hquery : queryPart longTarget = [] := queryPart_path longTarget_path
  have hset := hapart longTarget [] (by rw [longTarget_path, longTarget_decoded]) (by rw [hquery]; rfl)
  rw [parseUrl_parts, urlParts_originForm horigin, longTarget_normal] at hset
  have hcut : cutPath longTarget = str "/" := by
    rw [cutPath, longTarget_path, longTarget, List.length_cons, List.length_replicate]
    rfl
  have hslash : (urlDecode (str "/")).map normalizePath = some (str "/") := by decide +kernel
  rw [hcut, hslash] at hset
  have hlen := congrArg List.length (Option.some.inj hset.1)
  rw [longTarget, List.length_cons, List.length_replicate] at hlen
  exact absurd hlen (by decide)

end RequestParser

end Wsrv
