import Wsrv.Util

/-!
# Requests of the client

The `URL` class and the `HTTPClientRequest`: both write a map of parameters as
pairs `key=value` between ampersands.
-/

namespace Wsrv

/-! ## URLs -/

/-- The members of `URL`; its parts are decoded. -/
structure URL where
  protocol : Str := []
  host : Str := []
  fragment : Str := []
  port : Int := -1
  params : Dictionary := ∅
  segments : List Str := []

namespace URL

/-- The loop of `makeQueryString`. -/
def queryLoop (encoded : Bool) : List (Str × Str) → Bool → Str → Str
  | [], _, res => res
  | kv :: kvs, first, res =>
    let res := if first then res else res ++ str "&"
    let key := if encoded then urlEncode kv.1 else kv.1
    let val := if encoded then urlEncode kv.2 else kv.2
    queryLoop encoded kvs false (res ++ key ++ str "=" ++ val)

/-- `URL::makeQueryString`. -/
def makeQueryString (u : URL) (encoded : Bool) : Str := queryLoop encoded u.params.toList true []

end URL

/-! ## Requests -/

/-- `HTTPClientRequest::Method`. -/
inductive ClientMethod
  | GET | POST | PUT | DELETE | PATCH | HEAD | OPTIONS | TRACE
  deriving DecidableEq, Repr

/-- The members of `HTTPClientRequest`. -/
structure HTTPClientRequest where
  url : URL
  headers : Dictionary := ∅
  method : ClientMethod := .GET
  body : Str := []
  mime : Str := []

namespace HTTPClientRequest

/-- The loop of `setBodyURLEncoded`. -/
def bodyLoop : List (Str × Str) → Str → Str
  | [], body => body
  | kv :: kvs, body =>
    let body := if body = [] then body else body ++ str "&"
    bodyLoop kvs (body ++ urlEncode kv.1 ++ str "=" ++ urlEncode kv.2)

/-- `HTTPClientRequest::setBodyURLEncoded`. -/
def setBodyURLEncoded (req : HTTPClientRequest) (params : Dictionary) : HTTPClientRequest :=
  { req with
    body := bodyLoop params.toList req.body
    mime := str "application/x-www-form-urlencoded" }

end HTTPClientRequest

/-! ## The pairs -/

def amp : UInt8 := '&'.toUInt8

def equal : UInt8 := '='.toUInt8

/-- `key=value`, both encoded. -/
def encodedPair (kv : Str × Str) : Str := urlEncode kv.1 ++ equal :: urlEncode kv.2

theorem queryLoop_append (kvs : List (Str × Str)) (res : Str) :
    URL.queryLoop true kvs false res = res ++ kvs.flatMap fun kv => amp :: encodedPair kv := by
  induction kvs generalizing res with
  | nil => simp [URL.queryLoop]
  | cons kv kvs ih =>
    rw [URL.queryLoop, ih]
    simp [encodedPair, amp, equal, str]

theorem bodyLoop_append (kvs : List (Str × Str)) (body : Str) (h : body ≠ []) :
    HTTPClientRequest.bodyLoop kvs body = body ++ kvs.flatMap fun kv => amp :: encodedPair kv := by
  induction kvs generalizing body with
  | nil => simp [HTTPClientRequest.bodyLoop]
  | cons kv kvs ih =>
    rw [HTTPClientRequest.bodyLoop, ih _ (by simp [str])]
    simp [h, encodedPair, amp, equal, str]

theorem intercalate_cons_flatMap {α : Type} (s : α) (p : List α) (ps : List (List α)) :
    [s].intercalate (p :: ps) = p ++ ps.flatMap (s :: ·) := by
  induction ps generalizing p with
  | nil => simp
  | cons q ps ih => rw [List.intercalate_cons_cons, ih]; simp

/-- The query string is the pairs between ampersands. -/
theorem makeQueryString_eq (u : URL) :
    u.makeQueryString true = [amp].intercalate (u.params.toList.map encodedPair) := by
  unfold URL.makeQueryString
  cases u.params.toList with
  | nil => rfl
  | cons kv kvs =>
    rw [List.map_cons, intercalate_cons_flatMap, URL.queryLoop, queryLoop_append,
      List.flatMap_map]
    simp [encodedPair, amp, equal, str]

/-- So is the body of a form. -/
theorem setBodyURLEncoded_body (req : HTTPClientRequest) (params : Dictionary)
    (h : req.body = []) :
    (req.setBodyURLEncoded params).body = [amp].intercalate (params.toList.map encodedPair) := by
  unfold HTTPClientRequest.setBodyURLEncoded
  simp only [h]
  cases params.toList with
  | nil => rfl
  | cons kv kvs =>
    rw [List.map_cons, intercalate_cons_flatMap, HTTPClientRequest.bodyLoop,
      bodyLoop_append _ _ (by simp [str]), List.flatMap_map]
    simp [encodedPair, amp, equal, str]

end Wsrv
