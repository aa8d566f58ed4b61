import Wsrv.HttpParser
import Wsrv.Util

/-!
# The parts of a URL

`http_parser_parse_url` runs `parse_url_char` over a URL and notes where its
parts begin and how long they are, in numbers of 16 bits.  Its result is a
record that the caller leaves uninitialised, so that reading a part that was
never set is undefined behaviour (`none`).
-/

namespace Wsrv.Http

/-- `enum http_parser_url_fields`. -/
inductive UrlField
  | schema | host | port | path | query | fragment | userinfo
  deriving DecidableEq, Repr

/-- `field_data`, with the fields outside `field_set` unset. -/
abbrev FieldData := UrlField → Option (Nat × Nat)

/-- `uint16_t`. -/
def uint16 (n : Nat) : Nat := n % 2 ^ 16

/-- `field_data[uf].len++` of a field that is set. -/
def FieldData.extend (u : FieldData) (uf : UrlField) : FieldData :=
  Function.update u uf ((u uf).map fun f => (f.1, uint16 (f.2 + 1)))

/-- A field that begins at `off`. -/
def FieldData.start (u : FieldData) (uf : UrlField) (off len : Nat) : FieldData :=
  Function.update u uf (some (uint16 off, len))

/-! ## `http_parse_host` -/

/-- `enum http_host_state`. -/
inductive HostState
  | dead | userinfoStart | userinfo | hostStart | hostV6Start | host | hostV6 | hostV6End
  | portStart | port
  deriving DecidableEq, Repr

/-- `http_parse_host_char`. -/
def parseHostChar (s : HostState) (ch : UInt8) : HostState :=
  match s with
  | .userinfo | .userinfoStart =>
    if ch = '@'.toUInt8 then .hostStart
    else if isUserinfoChar ch then .userinfo
    else .dead
  | .hostStart =>
    if ch = '['.toUInt8 then .hostV6Start
    else if isHostChar ch then .host
    else .dead
  | .host =>
    if isHostChar ch then .host
    else if ch = ':'.toUInt8 then .portStart
    else .dead
  | .hostV6End => if ch = ':'.toUInt8 then .portStart else .dead
  | .hostV6 =>
    if ch = ']'.toUInt8 then .hostV6End
    else if isHex ch || ch = ':'.toUInt8 || ch = '.'.toUInt8 then .hostV6
    else .dead
  | .hostV6Start =>
    if isHex ch || ch = ':'.toUInt8 || ch = '.'.toUInt8 then .hostV6 else .dead
  | .port | .portStart => if isNum ch then .port else .dead
  | .dead => .dead

/-- The fields after a character at `p` that leads from `s` to `t`. -/
def hostField (u : FieldData) (p : Nat) (s t : HostState) : FieldData :=
  match t with
  | .host =>
    if s ≠ .host then (u.start .host p ((u .host).elim 0 (·.2))).extend .host
    else u.extend .host
  | .hostV6 =>
    if s ≠ .hostV6 then (u.start .host p ((u .host).elim 0 (·.2))).extend .host
    else u.extend .host
  | .port => if s ≠ .port then (u.start .port p 0).extend .port else u.extend .port
  | .userinfo =>
    if s ≠ .userinfo then (u.start .userinfo p 0).extend .userinfo else u.extend .userinfo
  | _ => u

/-- The loop over the characters of the host, or `none` where it returns 1. -/
def hostLoop : Str → Nat → HostState → FieldData → Option (HostState × FieldData)
  | [], _, s, u => some (s, u)
  | ch :: rest, p, s, u =>
    match parseHostChar s ch with
    | .dead => none
    | t => hostLoop rest (p + 1) t (hostField u p s t)

/-- `http_parse_host` of a host field that is set: the fields, or `none` where it returns 1. -/
def parseHost (buf : Str) (u : FieldData) (foundAt : Bool) (host : Nat × Nat) : Option FieldData :=
  let u := Function.update u .host (some (host.1, 0))
  let s := if foundAt then HostState.userinfoStart else .hostStart
  match hostLoop ((buf.drop host.1).take host.2) host.1 s u with
  | none => none
  | some (s, u) =>
    match s with
    | .hostStart | .hostV6Start | .hostV6 | .portStart | .userinfo | .userinfoStart => none
    | _ => some u

/-! ## `http_parser_parse_url` -/

/-- What a character that leads to the state `s` belongs to: a delimiter belongs to no field. -/
def urlField : State → Option UrlField
  | .reqSchema => some .schema
  | .reqServerWithAt | .reqServer => some .host
  | .reqPath => some .path
  | .reqQueryString => some .query
  | .reqFragment => some .fragment
  | _ => none

/-- The local variables of `http_parser_parse_url`. -/
structure UrlScan where
  state : State
  oldUf : Option UrlField
  foundAt : Bool
  fields : FieldData

/-- The character at `p`, or `none` where the URL is invalid. -/
def UrlScan.step (p : Nat) (ch : UInt8) (x : UrlScan) : Option UrlScan :=
  let s := parseUrlChar x.state ch
  if s = .dead then none
  else
    let x := { x with state := s, foundAt := x.foundAt || s == .reqServerWithAt }
    match urlField s with
    | none => some x
    | some uf =>
      if x.oldUf = some uf then some { x with fields := x.fields.extend uf }
      else some { x with fields := x.fields.start uf p 1, oldUf := some uf }

def urlLoop : Str → Nat → UrlScan → Option UrlScan
  | [], _, x => some x
  | ch :: rest, p, x => (x.step p ch).bind (urlLoop rest (p + 1))

/-- What `http_parser_parse_url` leaves behind: it fails, or it sets the fields, or it reads a
field that was never set. -/
inductive UrlResult
  | failed
  | parsed (u : FieldData)
  | undefined

/-- The check of the port at the end; the number itself is not used. -/
def checkPort (buf : Str) (u : FieldData) : UrlResult :=
  match u .port with
  | none => .parsed u
  | some (off, _) => if 0xffff < strtoul (buf.drop off) then .failed else .parsed u

/-- **`http_parser_parse_url`**, where the URL is not that of a `CONNECT`. -/
def parseUrl (buf : Str) : UrlResult :=
  match urlLoop buf 0 ⟨.reqSpacesBeforeUrl, none, false, fun _ => none⟩ with
  | none => .failed
  | some x =>
    if (x.fields .schema).isSome || (x.fields .host).isSome then
      match x.fields .host with
      | none => .undefined
      | some host =>
        match parseHost buf x.fields x.foundAt host with
        | none => .failed
        | some u => checkPort buf u
    else checkPort buf x.fields

/-! ## The fields lie in the URL -/

/-- Every field begins in the first `n` characters. -/
def FieldData.Within (u : FieldData) (n : Nat) : Prop :=
  ∀ uf off len, u uf = some (off, len) → off ≤ n

theorem within_none (n : Nat) : FieldData.Within (fun _ => none) n := by
  intro uf off len h
  cases h

theorem FieldData.Within.extend {u : FieldData} {n : Nat} (h : u.Within n) (uf : UrlField) :
    (u.extend uf).Within n := by
  intro uf' off len hf
  rcases eq_or_ne uf' uf with rfl | hne
  · simp only [FieldData.extend, Function.update_self, Option.map_eq_some_iff] at hf
    obtain ⟨f, hf, heq⟩ := hf
    obtain ⟨rfl, -⟩ := Prod.mk.inj heq
    exact h uf' f.1 f.2 hf
  · simp only [FieldData.extend, Function.update_of_ne hne] at hf
    exact h uf' off len hf

theorem FieldData.Within.start {u : FieldData} {n : Nat} (h : u.Within n) (uf : UrlField)
    {p : Nat} (len : Nat) (hp : p ≤ n) : (u.start uf p len).Within n := by
  intro uf' off len' hf
  rcases eq_or_ne uf' uf with rfl | hne
  · simp only [FieldData.start, Function.update_self, Option.some.injEq, Prod.mk.injEq] at hf
    have hmod : uint16 p ≤ p := Nat.mod_le _ _
    omega
  · simp only [FieldData.start, Function.update_of_ne hne] at hf
    exact h uf' off len' hf

theorem within_hostField {u : FieldData} {n p : Nat} (h : u.Within n) (hp : p ≤ n)
    (s t : HostState) : (hostField u p s t).Within n := by
  unfold hostField
  split
  case h_5 => exact h
  all_goals
    split_ifs
    · exact (h.start _ _ hp).extend _
    · exact h.extend _

theorem within_hostLoop {n : Nat} (rest : Str) {p : Nat} {s s' : HostState} {u u' : FieldData}
    (h : u.Within n) (hp : p + rest.length ≤ n) (hl : hostLoop rest p s u = some (s', u')) :
    u'.Within n := by
  induction rest generalizing p s u with
  | nil =>
    obtain ⟨-, rfl⟩ := Prod.mk.inj (Option.some.inj hl)
    exact h
  | cons ch rest ih =>
    rw [List.length_cons] at hp
    rw [hostLoop] at hl
    split at hl
    · cases hl
    · exact ih (within_hostField h (by omega) _ _) (by omega) hl

theorem within_parseHost {buf : Str} {u u' : FieldData} {at' : Bool} {host : Nat × Nat}
    (h : u.Within buf.length) (hh : u .host = some host)
    (hp : parseHost buf u at' host = some u') : u'.Within buf.length := by
  have hoff : host.1 ≤ buf.length := h .host host.1 host.2 hh
  have hu : FieldData.Within (Function.update u .host (some (host.1, 0))) buf.length := by
    intro uf off len hf
    rcases eq_or_ne uf .host with rfl | hne
    · simp only [Function.update_self, Option.some.injEq, Prod.mk.injEq] at hf
      omega
    · rw [Function.update_of_ne hne] at hf
      exact h uf off len hf
  unfold parseHost at hp
  simp only [] at hp
  split at hp
  · cases hp
  · rename_i s v hl
    have hlen : host.1 + ((buf.drop host.1).take host.2).length ≤ buf.length := by
      simp only [List.length_take, List.length_drop]
      omega
    have hv := within_hostLoop _ hu hlen hl
    split at hp <;> first
      | cases hp; done
      | exact Option.some.inj hp ▸ hv

theorem within_urlLoop {n : Nat} (rest : Str) {p : Nat} {x x' : UrlScan}
    (h : x.fields.Within n) (hp : p + rest.length ≤ n) (hl : urlLoop rest p x = some x') :
    x'.fields.Within n := by
  induction rest generalizing p x with
  | nil => exact Option.some.inj hl ▸ h
  | cons ch rest ih =>
    rw [List.length_cons] at hp
    rw [urlLoop] at hl
    obtain ⟨y, hy, hl⟩ := Option.bind_eq_some_iff.mp hl
    refine ih ?_ (by omega) hl
    unfold UrlScan.step at hy
    simp only [] at hy
    split at hy
    · cases hy
    split at hy
    · exact Option.some.inj hy ▸ h
    split at hy
    · exact Option.some.inj hy ▸ h.extend _
    · exact Option.some.inj hy ▸ h.start _ _ (by omega)

/-- **The fields of a parsed URL begin in the URL.** -/
theorem parseUrl_within {buf : Str} {u : FieldData} (h : parseUrl buf = .parsed u) :
    u.Within buf.length := by
  have hcheck : ∀ v : FieldData, v.Within buf.length → checkPort buf v = .parsed u →
      u.Within buf.length := by
    intro v hv hc
    unfold checkPort at hc
    split at hc
    · cases hc
      exact hv
    · split at hc
      · cases hc
      · cases hc
        exact hv
  unfold parseUrl at h
  split at h
  · cases h
  rename_i x hx
  have hw : x.fields.Within buf.length :=
    within_urlLoop buf (within_none _) (by omega) hx
  split at h
  · split at h
    · cases h
    rename_i host hh
    split at h
    · cases h
    · rename_i v hv
      exact hcheck v (within_parseHost hw hh hv) h
  · exact hcheck _ hw h

/-! ## A path and a query -/

theorem parseUrlChar_path {ch : UInt8} (h : isUrlChar ch = true) :
    parseUrlChar .reqPath ch = .reqPath :=
  forall_byte (P := fun ch => isUrlChar ch = true → parseUrlChar .reqPath ch = .reqPath)
    (by decide +kernel) ch h

theorem parseUrlChar_query {s : State} (hs : s = .reqQueryStringStart ∨ s = .reqQueryString)
    {ch : UInt8} (h : isUrlChar ch = true) : parseUrlChar s ch = .reqQueryString := by
  rcases hs with rfl | rfl
  · exact forall_byte (P := fun ch => isUrlChar ch = true →
      parseUrlChar .reqQueryStringStart ch = .reqQueryString) (by decide +kernel) ch h
  · exact forall_byte (P := fun ch => isUrlChar ch = true →
      parseUrlChar .reqQueryString ch = .reqQueryString) (by decide +kernel) ch h

theorem urlLoop_append (a b : Str) (p : Nat) (x : UrlScan) :
    urlLoop (a ++ b) p x = (urlLoop a p x).bind (urlLoop b (p + a.length)) := by
  induction a generalizing p x with
  | nil => rfl
  | cons c a ih =>
    rw [List.cons_append, urlLoop, urlLoop, Option.bind_assoc]
    congr 1
    funext y
    rw [ih, List.length_cons, Nat.add_right_comm, Nat.add_assoc]

theorem uint16_add (m n : Nat) : uint16 (uint16 m + n) = uint16 (m + n) := Nat.mod_add_mod m _ n

/-- The characters of one field make it longer and change nothing else. -/
theorem urlLoop_field {s : State} {uf : UrlField} {off : Nat} (rest : Str) (p m : Nat)
    (fields : FieldData) (hs : urlField s = some uf) (hat : (s == .reqServerWithAt) = false)
    (hstay : ∀ ch ∈ rest, parseUrlChar s ch = s) (hf : fields uf = some (off, uint16 m)) :
    urlLoop rest p ⟨s, some uf, false, fields⟩ =
      some ⟨s, some uf, false,
        Function.update fields uf (some (off, uint16 (m + rest.length)))⟩ := by
  induction rest generalizing p m fields with
  | nil => rw [urlLoop, List.length_nil, Nat.add_zero, ← hf, Function.update_eq_self]
  | cons ch rest ih =>
    have hdead : s ≠ .dead := by
      rintro rfl
      simp [urlField] at hs
    have hextend : fields.extend uf =
        Function.update fields uf (some (off, uint16 (m + 1))) := by
      simp only [FieldData.extend, hf, Option.map_some, uint16_add]
    have hstep : UrlScan.step p ch ⟨s, some uf, false, fields⟩ =
        some ⟨s, some uf, false, fields.extend uf⟩ := by
      simp [UrlScan.step, hstay ch List.mem_cons_self, hdead, hs, hat]
    rw [urlLoop, hstep, Option.bind_some, ih (p + 1) (m + 1) (fields.extend uf)
      (fun c hc => hstay c (List.mem_cons_of_mem _ hc)) (by rw [hextend]; simp), hextend,
      Function.update_idem, List.length_cons, Nat.add_assoc, Nat.add_comm 1]

/-- A URL without a scheme, a host and a port has no more to be checked. -/
theorem parseUrl_of_loop {buf : Str} {x : UrlScan}
    (h : urlLoop buf 0 ⟨.reqSpacesBeforeUrl, none, false, fun _ => none⟩ = some x)
    (hschema : x.fields .schema = none) (hhost : x.fields .host = none)
    (hport : x.fields .port = none) : parseUrl buf = .parsed x.fields := by
  unfold parseUrl
  simp [h, hschema, hhost, checkPort, hport]

/-- The scan of a path, which ends at the question mark. -/
theorem urlLoop_path (path rest : Str) (hpath : ∀ ch ∈ path, isUrlChar ch = true) :
    urlLoop ('/'.toUInt8 :: path ++ '?'.toUInt8 :: rest) 0
        ⟨.reqSpacesBeforeUrl, none, false, fun _ => none⟩ =
      urlLoop rest (path.length + 2) ⟨.reqQueryStringStart, some .path, false,
        Function.update (fun _ => none) .path (some (0, uint16 (path.length + 1)))⟩ := by
  have hone : UrlScan.step 0 '/'.toUInt8 ⟨.reqSpacesBeforeUrl, none, false, fun _ => none⟩ =
      some ⟨.reqPath, some .path, false, FieldData.start (fun _ => none) .path 0 1⟩ := rfl
  have hmark (fields : FieldData) (p : Nat) :
      UrlScan.step p '?'.toUInt8 ⟨.reqPath, some .path, false, fields⟩ =
        some ⟨.reqQueryStringStart, some .path, false, fields⟩ := rfl
  rw [List.cons_append, urlLoop, hone, Option.bind_some, urlLoop_append,
    @urlLoop_field _ _ 0 path 1 1 _ rfl rfl (fun ch h => parseUrlChar_path (hpath ch h)) rfl,
    Option.bind_some, urlLoop, hmark, Option.bind_some, FieldData.start, Function.update_idem,
    Nat.add_comm 1]

/-- **A path, a question mark and a query are told apart**, by offsets and lengths of 16 bits. -/
theorem parseUrl_path_query (path query : Str) (hpath : ∀ ch ∈ path, isUrlChar ch = true)
    (hquery : ∀ ch ∈ query, isUrlChar ch = true) :
    ∃ u, parseUrl ('/'.toUInt8 :: path ++ '?'.toUInt8 :: query) = .parsed u ∧
      u .path = some (0, uint16 (path.length + 1)) ∧
      u .query = if query = [] then none
        else some (uint16 (path.length + 2), uint16 query.length) := by
  cases query with
  | nil => exact ⟨_, parseUrl_of_loop (urlLoop_path path [] hpath) rfl rfl rfl, rfl, rfl⟩
  | cons c query =>
    have hfirst (fields : FieldData) (p : Nat) :
        UrlScan.step p c ⟨.reqQueryStringStart, some .path, false, fields⟩ =
          some ⟨.reqQueryString, some .query, false, fields.start .query p 1⟩ := by
      have hchar := parseUrlChar_query (.inl rfl) (hquery c List.mem_cons_self)
      simp [UrlScan.step, hchar, urlField]
    have hloop := urlLoop_path path (c :: query) hpath
    rw [urlLoop, hfirst, Option.bind_some, @urlLoop_field _ _ (uint16 (path.length + 2)) query _ 1
      _ rfl rfl (fun ch h => parseUrlChar_query (.inr rfl) (hquery ch (List.mem_cons_of_mem _ h)))
      rfl] at hloop
    refine ⟨_, parseUrl_of_loop hloop rfl rfl rfl, rfl, ?_⟩
    simp [Nat.add_comm]

end Wsrv.Http
