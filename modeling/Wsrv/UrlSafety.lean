import Wsrv.UrlCursor
import Wsrv.UrlRoundTrip

/-!
# Where `URL::parse` is undefined

`URL::parse` cuts its text at `://`, at the first slash and at the first `?`,
and takes the first token of the authority for the host.  The cuts are always
inside of the text.  The host may be missing, since `split` drops empty pieces,
and the decoder may leave a piece of the path or of the query at an escape that
is cut short: everything else completes or raises (`parse_defined_iff`).
-/

namespace Wsrv.URL

/-! ## The cuts -/

/-- What is left behind the protocol. -/
def behind (url : Str) : Str :=
  match findText (Wsrv.str "://") url with
  | none => url
  | some pos => url.drop (pos + 3)

/-- Where `parse` moves its cursor to: the positions of its calls of `substr`. -/
def cursors (url : Str) : List Nat :=
  let cursor :=
    match findText (Wsrv.str "://") url with
    | none => 0
    | some pos => pos + 3
  match find (url.drop cursor) '/'.toUInt8 with
  | none => [cursor]
  | some pos =>
    let path := cursor + pos + 1
    match find (url.drop path) '?'.toUInt8 with
    | none => [cursor, path]
    | some mark => [cursor, path, path + mark + 1]

/-- The texts that `parse` goes on with: behind the protocol, the path with the query, the query. -/
def pieces (url : Str) : List Str :=
  behind url ::
    match find (behind url) '/'.toUInt8 with
    | none => []
    | some pos =>
      let file := (behind url).drop (pos + 1)
      file ::
        match find file '?'.toUInt8 with
        | none => []
        | some mark => [file.drop (mark + 1)]

/-- **The cursor of `parse`** stands at these texts. -/
theorem drop_cursors (url : Str) : (cursors url).map (url.drop ·) = pieces url := by
  have hbehind : behind url = url.drop (match findText (Wsrv.str "://") url with
      | none => 0
      | some pos => pos + 3) := by
    unfold behind
    cases findText (Wsrv.str "://") url <;> rfl
  unfold cursors pieces
  rw [hbehind]
  dsimp only
  generalize (match findText (Wsrv.str "://") url with
      | none => 0
      | some pos => pos + 3) = cursor
  cases find (url.drop cursor) '/'.toUInt8 with
  | none => rfl
  | some pos =>
    have hfile : (url.drop cursor).drop (pos + 1) = url.drop (cursor + pos + 1) := by
      rw [List.drop_drop, Nat.add_assoc]
    simp only [hfile]
    cases find (url.drop (cursor + pos + 1)) '?'.toUInt8 with
    | none => rfl
    | some mark =>
      simp only [List.map_cons, List.map_nil, List.drop_drop, Nat.add_assoc]

theorem findText_le {t s : Str} {pos : Nat} (h : findText t s = some pos) :
    pos + t.length ≤ s.length := by
  induction s generalizing pos with
  | nil =>
    rw [findText] at h
    split at h
    · rename_i ht
      cases h
      rw [ht]
      exact le_rfl
    · cases h
  | cons c s ih =>
    rw [findText] at h
    split at h
    · rename_i hpfx
      cases h
      simpa using (List.isPrefixOf_iff_prefix.mp hpfx).length_le
    · obtain ⟨k, hk, rfl⟩ := Option.map_eq_some_iff.mp h
      have hle := ih hk
      rw [List.length_cons]
      omega

theorem find_drop_lt {s : Str} {c : UInt8} {i pos : Nat} (h : find (s.drop i) c = some pos) :
    i + pos < s.length := by
  have hlt := find_lt h
  rw [List.length_drop] at hlt
  omega

/-- No call of `substr` is behind the end. -/
theorem cursors_le (url : Str) : ∀ i ∈ cursors url, i ≤ url.length := by
  have hstart : (match findText (Wsrv.str "://") url with
      | none => 0
      | some pos => pos + 3) ≤ url.length := by
    split
    · exact Nat.zero_le _
    · rename_i pos hpos
      exact findText_le hpos
  unfold cursors
  dsimp only
  split
  · simpa using hstart
  · rename_i pos hpos
    have hpath := find_drop_lt hpos
    split
    · rw [List.forall_mem_cons, List.forall_mem_singleton]
      exact ⟨hstart, by omega⟩
    · rename_i mark hmark
      have hquery := find_drop_lt hmark
      rw [List.forall_mem_cons, List.forall_mem_cons, List.forall_mem_singleton]
      exact ⟨hstart, by omega, by omega⟩

/-! ## The host -/

theorem splitLoop_eq_nil_iff (d s token : Str) :
    splitLoop d s token = [] ↔ token = [] ∧ ∀ c ∈ s, c = 0 ∨ c ∈ d := by
  induction s generalizing token with
  | nil => by_cases h : token = [] <;> simp [splitLoop, h]
  | cons c s ih =>
    rw [splitLoop, List.forall_mem_cons]
    by_cases hc : c = 0 ∨ c ∈ d
    · by_cases ht : token = [] <;> simp [hc, ht, ih]
    · rw [if_neg hc, ih]
      simp [hc]

theorem split_ne_nil_iff (s d : Str) : split s d ≠ [] ↔ ∃ c ∈ s, c ≠ 0 ∧ c ∉ d := by
  rw [split, ne_eq, splitLoop_eq_nil_iff]
  push Not
  simp

/-! ## The escapes -/

/-- The decoder stays inside of a text without a NUL when its escapes are whole. -/
theorem urlDecode_isSome_iff {s : Str} (h : 0 ∉ s) :
    (urlDecode s).isSome ↔ UrlCursor.Escaped s := by
  rw [← UrlCursor.walk_decoded h, UrlCursor.decoded_isSome_iff, UrlCursor.walk_stays_iff]

/-- The pieces of a path. -/
def PathWhole (p : Str) : Prop := ∀ s ∈ split p (Wsrv.str "/"), UrlCursor.Escaped s

/-- The keys and the values of a query. -/
def QueryWhole (query : Str) : Prop :=
  ∀ t ∈ split query (Wsrv.str "&"), ∀ k v, split t (Wsrv.str "=") = [k, v] →
    UrlCursor.Escaped k ∧ UrlCursor.Escaped v

/-- The pieces of what is behind the host, up to a `?` and behind it. -/
def FileWhole (file : Str) : Prop :=
  match find file '?'.toUInt8 with
  | none => PathWhole file
  | some pos => PathWhole (file.take pos) ∧ QueryWhole (file.drop (pos + 1))

theorem split_no_nul (s d : Str) : ∀ t ∈ split s d, 0 ∉ t :=
  splitLoop_no_nul d s List.not_mem_nil

theorem split_no_empty (s d : Str) : ∀ t ∈ split s d, t ≠ [] := by
  intro t ht
  rw [split, splitLoop_eq] at ht
  simpa using (List.mem_filter.mp ht).2

theorem parsePathLoop_isSome_iff {tokens : List Str} (h : ∀ s ∈ tokens, s ≠ [] ∧ 0 ∉ s)
    (segments : List Str) :
    (parsePathLoop tokens segments).isSome ↔ ∀ s ∈ tokens, UrlCursor.Escaped s := by
  induction tokens generalizing segments with
  | nil => simp [parsePathLoop]
  | cons s tokens ih =>
    rw [List.forall_mem_cons] at h
    have hs := urlDecode_isSome_iff h.1.2
    rw [parsePathLoop, if_neg h.1.1, List.forall_mem_cons, ← hs]
    cases urlDecode s with
    | none => simp
    | some seg => simp [ih h.2]

theorem parsePath_isSome_iff (p : Str) : (parsePath p).isSome ↔ PathWhole p := by
  have htokens : ∀ s ∈ split p (Wsrv.str "/"), s ≠ [] ∧ 0 ∉ s :=
    fun s hs => ⟨split_no_empty p _ s hs, split_no_nul p _ s hs⟩
  unfold parsePath PathWhole
  split
  · rename_i hp
    rw [hp]
    simp [split, splitLoop]
  · exact parsePathLoop_isSome_iff htokens []

theorem parseQueryLoop_isSome_iff (tokens : List Str) (params : Dictionary) :
    (parseQueryLoop tokens params).isSome ↔ ∀ t ∈ tokens, ∀ k v, split t (Wsrv.str "=") = [k, v] →
      UrlCursor.Escaped k ∧ UrlCursor.Escaped v := by
  induction tokens generalizing params with
  | nil => simp [parseQueryLoop]
  | cons t tokens ih =>
    rw [parseQueryLoop, List.forall_mem_cons]
    split
    · rename_i k v hkv
      -- only a token of two pieces is decoded
      have hnul := split_no_nul t (Wsrv.str "=")
      rw [hkv, List.forall_mem_cons, List.forall_mem_singleton] at hnul
      have hpair : (∀ k' v', split t (Wsrv.str "=") = [k', v'] →
          UrlCursor.Escaped k' ∧ UrlCursor.Escaped v') ↔
            (urlDecode k).isSome ∧ (urlDecode v).isSome := by
        rw [urlDecode_isSome_iff hnul.1, urlDecode_isSome_iff hnul.2, hkv]
        simp
      rw [hpair]
      cases urlDecode k with
      | none => simp
      | some k' =>
        cases urlDecode v with
        | none => simp
        | some v' => simp [ih]
    · rename_i hother
      rw [ih, and_iff_right]
      exact fun k v hkv => absurd hkv (hother k v)

theorem parseFile_isSome_iff (file : Str) : (parseFile file).isSome ↔ FileWhole file := by
  unfold parseFile FileWhole
  cases find file '?'.toUInt8 with
  | none => rw [Option.isSome_map, parsePath_isSome_iff]
  | some pos =>
    simp only
    have hquery := parseQueryLoop_isSome_iff (split (file.drop (pos + 1)) (Wsrv.str "&")) ∅
    rw [← parsePath_isSome_iff, QueryWhole, ← hquery]
    cases parsePath (file.take pos) with
    | none => simp
    | some segments =>
      cases parseQueryLoop (split (file.drop (pos + 1)) (Wsrv.str "&")) ∅ with
      | none => simp
      | some params => simp

/-! ## The whole URL -/

/-- The port is not a number: `stoi` raises before the path is read. -/
def PortRaises (rest : Str) : Prop :=
  ∃ e, parsePort (split (authority rest) (Wsrv.str ":")).tail = .error e

/-- There is a character of a host, and behind a slash every escape has its two characters. -/
def Whole (url : Str) : Prop :=
  (∃ c ∈ authority (behind url), c ≠ 0 ∧ c ≠ ':'.toUInt8) ∧
    (PortRaises (behind url) ∨
      ∀ pos, find (behind url) '/'.toUInt8 = some pos → FileWhole ((behind url).drop (pos + 1)))

theorem parsePort_ne_undefined (tokens : List Str) : parsePort tokens ≠ .error .undefined := by
  unfold parsePort
  split
  · simp
  · split <;> simp

theorem parseRest_defined_iff (protocol rest : Str) :
    parseRest protocol rest ≠ .error .undefined ↔
      split (authority rest) (Wsrv.str ":") ≠ [] ∧
        (PortRaises rest ∨
          ∀ pos, find rest '/'.toUInt8 = some pos → FileWhole (rest.drop (pos + 1))) := by
  unfold parseRest PortRaises
  cases split (authority rest) (Wsrv.str ":") with
  | nil => simp
  | cons host tokens =>
    have hport := parsePort_ne_undefined tokens
    simp only [List.tail_cons]
    cases hparse : parsePort tokens with
    | error e =>
      rw [hparse] at hport
      simpa using hport
    | ok port =>
      cases hfind : find rest '/'.toUInt8 with
      | none => simp
      | some pos =>
        have hfile := parseFile_isSome_iff (rest.drop (pos + 1))
        simp only
        cases hread : parseFile (rest.drop (pos + 1)) with
        | none => simpa [hread] using hfile
        | some read => simpa [hread] using hfile

theorem parse_behind (url : Str) : ∃ protocol, parse url = parseRest protocol (behind url) := by
  unfold parse behind
  cases findText (Wsrv.str "://") url with
  | none => exact ⟨[], rfl⟩
  | some pos => exact ⟨url.take pos, rfl⟩

/-- **The constructor completes or raises**, and cuts inside of its text, exactly when there is a
host and no escape behind it is cut short. -/
theorem parse_defined_iff (url : Str) :
    ((∀ i ∈ cursors url, i ≤ url.length) ∧ parse url ≠ .error .undefined) ↔ Whole url := by
  obtain ⟨protocol, hparse⟩ := parse_behind url
  rw [and_iff_right (cursors_le url), hparse, parseRest_defined_iff, split_ne_nil_iff, Whole]
  simp [Wsrv.str]

/-- The empty string, a path, a slash behind `://` and an authority of colons have no host. -/
theorem no_host_undefined :
    parse [] = .error .undefined ∧ parse (Wsrv.str "/a") = .error .undefined ∧
      parse (Wsrv.str "http:///a") = .error .undefined ∧
        parse (Wsrv.str "::") = .error .undefined := by
  decide +kernel

end Wsrv.URL
