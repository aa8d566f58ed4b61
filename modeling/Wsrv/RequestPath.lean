import Wsrv.PercentCodec
import Wsrv.RequestDecode

/-!
# The path of a request

`parse_url` decodes the path of the target and then resolves its segments on a
stack.  `resolve` says what the stack is, and a `Segment` what may stand on it.
A path made of segments is cut into the same segments again, so normalising
changes nothing any more.
-/

namespace Wsrv.RequestParser

def slash : UInt8 := '/'.toUInt8

/-! ## The stack of segments -/

/-- What one segment of a path does to the stack. -/
def pushSegment (stack : List Str) (seg : Str) : List Str :=
  if seg = [] ∨ seg = str "." then stack
  else if seg = str ".." then stack.dropLast
  else stack ++ [seg]

/-- The stack after all segments. -/
def resolve (segs : List Str) : List Str := segs.foldl pushSegment []

/-- A name that stays on the stack and is found again when the path is cut at its slashes. -/
structure Segment (seg : Str) : Prop where
  ne_nil : seg ≠ []
  ne_dot : seg ≠ str "."
  ne_dotdot : seg ≠ str ".."
  no_slash : slash ∉ seg
  no_nul : 0 ∉ seg

theorem Segment.push {seg : Str} (h : Segment seg) (stack : List Str) :
    pushSegment stack seg = stack ++ [seg] := by
  simp [pushSegment, h.ne_nil, h.ne_dot, h.ne_dotdot]

theorem pushSegment_segments {stack : List Str} {seg : Str} (h : ∀ s ∈ stack, Segment s)
    (hslash : slash ∉ seg) (hnul : 0 ∉ seg) : ∀ s ∈ pushSegment stack seg, Segment s := by
  intro s hs
  unfold pushSegment at hs
  split_ifs at hs with h1 h2
  · exact h s hs
  · exact h s (List.mem_of_mem_dropLast hs)
  · rcases List.mem_append.mp hs with hs | hs
    · exact h s hs
    · obtain rfl := List.mem_singleton.mp hs
      exact ⟨fun h => h1 (.inl h), fun h => h1 (.inr h), h2, hslash, hnul⟩

/-- Only segments are left on the stack. -/
theorem foldl_pushSegment_segments (segs stack : List Str) (h : ∀ s ∈ stack, Segment s)
    (hsegs : ∀ seg ∈ segs, slash ∉ seg ∧ 0 ∉ seg) :
    ∀ s ∈ segs.foldl pushSegment stack, Segment s := by
  induction segs generalizing stack with
  | nil => exact h
  | cons seg segs ih =>
    have hseg := hsegs seg List.mem_cons_self
    exact ih (pushSegment stack seg) (pushSegment_segments h hseg.1 hseg.2)
      fun s hs => hsegs s (List.mem_cons_of_mem _ hs)

/-- A stack that is resolved again stays as it is. -/
theorem foldl_pushSegment_self (segs stack : List Str) (h : ∀ s ∈ segs, Segment s) :
    segs.foldl pushSegment stack = stack ++ segs := by
  induction segs generalizing stack with
  | nil => simp
  | cons seg segs ih =>
    rw [List.foldl_cons, (h seg List.mem_cons_self).push,
      ih _ fun s hs => h s (List.mem_cons_of_mem _ hs)]
    simp

theorem foldl_pushSegment_filter (segs stack : List Str) :
    (segs.filter (· ≠ [])).foldl pushSegment stack = segs.foldl pushSegment stack := by
  induction segs generalizing stack with
  | nil => rfl
  | cons seg segs ih =>
    by_cases hs : seg = []
    · rw [List.filter_cons_of_neg (by simp [hs]), ih, List.foldl_cons, hs]
      simp [pushSegment]
    · rw [List.filter_cons_of_pos (by simp [hs]), List.foldl_cons, ih, List.foldl_cons]

theorem normalizeSegments_eq (segs stack : List Str) :
    normalizeSegments segs stack = segs.foldl pushSegment stack := by
  induction segs generalizing stack with
  | nil => rfl
  | cons seg segs ih =>
    rw [normalizeSegments, List.foldl_cons, pushSegment]
    split_ifs with h1 h2 h3 h4 h5 <;> first | exact ih _ | simp_all

/-! ## Canonical paths -/

/-- The path that stands for a stack. -/
def pathOf (stack : List Str) : Str := str "/" ++ join (str "/") stack

theorem normalizePath_eq {src : Str} (h : 0 ∉ src) :
    normalizePath src = pathOf (resolve (src.splitOn slash)) := by
  have hsplit : split src (str "/") = (src.splitOn slash).filter (· ≠ []) := split_singleton slash h
  have hstack : normalizeSegments (split src (str "/")) [] = resolve (src.splitOn slash) := by
    rw [hsplit, normalizeSegments_eq, foldl_pushSegment_filter, resolve]
  unfold normalizePath
  simp only [hstack]
  split_ifs with h1 h2
  · rw [h1]
    rfl
  · rw [h2]
    rfl
  · rfl

theorem splitOn_pathOf {stack : List Str} (h : ∀ s ∈ stack, Segment s) (hne : stack ≠ []) :
    (pathOf stack).splitOn slash = [] :: stack := by
  have hj : join (str "/") stack = [slash].intercalate stack := join_eq_intercalate slash stack
  have hp : pathOf stack = slash :: [slash].intercalate stack := congrArg (str "/" ++ ·) hj
  rw [hp, List.splitOn_cons_eq_if_modifyHead,
    List.splitOn_intercalate slash (fun s hs => (h s hs).no_slash) hne]
  simp

theorem pathOf_no_nul {stack : List Str} (h : ∀ s ∈ stack, Segment s) : 0 ∉ pathOf stack := by
  intro h0
  rcases List.mem_append.mp h0 with h0 | h0
  · exact absurd h0 (by decide)
  · rcases mem_join h0 with h0 | ⟨s, hs, h0⟩
    · exact absurd h0 (by decide)
    · exact (h s hs).no_nul h0

/-- **A path of segments is normal.** -/
theorem normalizePath_pathOf {stack : List Str} (h : ∀ s ∈ stack, Segment s) :
    normalizePath (pathOf stack) = pathOf stack := by
  rw [normalizePath_eq (pathOf_no_nul h)]
  by_cases hne : stack = []
  · subst hne
    decide +kernel
  · rw [splitOn_pathOf h hne, resolve, List.foldl_cons,
      show pushSegment [] [] = [] by simp [pushSegment], foldl_pushSegment_self stack [] h,
      List.nil_append]

theorem resolve_segments {decoded : Str} (h : 0 ∉ decoded) :
    ∀ s ∈ resolve (decoded.splitOn slash), Segment s :=
  foldl_pushSegment_segments _ [] (by simp) fun _ hseg =>
    ⟨fun hm => (mem_of_splitOn hseg hm).2 rfl, fun hm => h (mem_of_splitOn hseg hm).1⟩

/-! ## What `parse_url` accepts -/

/-- What `parse_url` makes of a target it accepts. -/
theorem parseUrlWith_iff {decode : Str → Option Str} {req req' : HTTPServerRequest} {url : Str} :
    parseUrlWith decode req url = (.ok true, req') ↔
      ∃ u uri query path args GET, Http.parseUrl url = .parsed u ∧
        getUrlField url u .path = .ok uri ∧ getUrlField url u .query = .ok query ∧
        decode uri = some path ∧ decode query = some args ∧
        addArgs (split args (str "&")) req.GET = .ok GET ∧
        req' = { req with path := normalizePath path, query := args, GET := GET } := by
  constructor
  · intro h
    unfold parseUrlWith urlPartsWith at h
    cases hu : Http.parseUrl url with
    | undefined => simp [hu] at h
    | failed => simp [hu] at h
    | parsed u =>
      cases hp : getUrlField url u .path with
      | error e => simp [hu, hp] at h
      | ok uri =>
        cases hq : getUrlField url u .query with
        | error e => simp [hu, hp, hq] at h
        | ok query =>
          cases hd : decode uri with
          | none => simp [hu, hp, hq, hd] at h
          | some path =>
            cases hdq : decode query with
            | none => simp [hu, hp, hq, hd, hdq] at h
            | some args =>
              simp only [hu, hp, hq, hd, hdq] at h
              split at h
              · rename_i hargs
                obtain rfl := (Prod.mk.inj h).2
                exact ⟨u, uri, query, path, args, req.GET, rfl, hp, hq, hd, hdq,
                  by rw [hargs]; rfl, rfl⟩
              · split at h
                · rename_i GET hGET
                  obtain rfl := (Prod.mk.inj h).2
                  exact ⟨u, uri, query, path, args, GET, rfl, hp, hq, hd, hdq, hGET, rfl⟩
                · simp at h
  · rintro ⟨u, uri, query, path, args, GET, hu, hp, hq, hd, hdq, hGET, rfl⟩
    unfold parseUrlWith urlPartsWith
    simp only [hu, hp, hq, hd, hdq, hGET]
    split_ifs with hargs
    · subst hargs
      obtain rfl : req.GET = GET := Except.ok.inj hGET
      rfl
    · rfl

/-- **The path of a request is canonical**: it is the resolved stack of the decoded target, no
segment of it is empty, `.` or `..`, and normalising it changes nothing. -/
theorem parseUrl_canonical (decode : Str → Option Str)
    (hdecode : ∀ s t, decode s = some t → 0 ∉ t) (req req' : HTTPServerRequest) (url : Str)
    (h : parseUrlWith decode req url = (.ok true, req')) :
    ∃ u uri decoded, Http.parseUrl url = .parsed u ∧ getUrlField url u .path = .ok uri ∧
      decode uri = some decoded ∧
      req'.path = str "/" ++ join (str "/") (resolve (decoded.splitOn slash)) ∧
      req'.path.head? = some slash ∧
      (req'.path = str "/" ∨ ∀ seg ∈ req'.path.tail.splitOn slash,
        seg ≠ [] ∧ seg ≠ str "." ∧ seg ≠ str "..") ∧
      normalizePath req'.path = req'.path := by
  obtain ⟨u, uri, query, decoded, args, GET, hu, huri, -, hdec, -, -, rfl⟩ := parseUrlWith_iff.mp h
  have hnul := hdecode uri decoded hdec
  have hsegs := resolve_segments hnul
  have hpath := normalizePath_eq hnul
  refine ⟨u, uri, decoded, hu, huri, hdec, hpath, by rw [hpath]; rfl, ?_,
    by simp only [hpath, normalizePath_pathOf hsegs]⟩
  simp only [hpath]
  cases hr : resolve (decoded.splitOn slash) with
  | nil => exact .inl rfl
  | cons s stack =>
    right
    rw [hr] at hsegs
    have hcut := splitOn_pathOf hsegs (by simp)
    have htail : (pathOf (s :: stack)).splitOn slash =
        [] :: (pathOf (s :: stack)).tail.splitOn slash := by
      rw [show pathOf (s :: stack) = slash :: (pathOf (s :: stack)).tail from rfl,
        List.splitOn_cons_eq_if_modifyHead]
      simp
    rw [hcut] at htail
    intro seg hseg
    rw [← (List.cons.inj htail).2] at hseg
    have := hsegs seg hseg
    exact ⟨this.ne_nil, this.ne_dot, this.ne_dotdot⟩

/-- Escaped slashes and dots, repeated slashes and dot segments. -/
def dottedTarget : Str := str "/a//%2e%2e%2fb/./c?d"

theorem dotted_path_canonical :
    (parseUrl .init dottedTarget).1 = .ok true ∧
      (parseUrl .init dottedTarget).2.path = str "/b/c" ∧
      normalizePath (parseUrl .init dottedTarget).2.path = (parseUrl .init dottedTarget).2.path := by
  have h : (parseUrl .init dottedTarget).1 = .ok true := by decide +kernel
  have hpath : (parseUrl .init dottedTarget).2.path = str "/b/c" := by decide +kernel
  refine ⟨h, hpath, ?_⟩
  generalize hr : parseUrl .init dottedTarget = r at h
  obtain ⟨_, req'⟩ := r
  obtain rfl : _ = Except.ok true := h
  obtain ⟨u, uri, decoded, -, -, -, -, -, -, hfix⟩ :=
    parseUrl_canonical urlDecode urlDecode_no_nul .init req' dottedTarget hr
  exact hfix

end Wsrv.RequestParser
