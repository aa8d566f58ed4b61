import Wsrv.Auth
import Wsrv.Lib.EcmaSyntax
import Wsrv.Onion
import Wsrv.ResponseBody

/-!
# Compression

`CompressMiddleware` compresses the response on the way back.  It asks whether
the response is compressed already by looking for the one name "gzip" in
`Content-Encoding`, and overwrites that header: a body in another coding is
compressed once more and loses the name of its own coding.

`transparent_iff`: any number of layers keep the bytes that the headers stand
for exactly when that does not happen.
-/

namespace Wsrv

open Middleware

variable {ω : Type}

/-! ## The source -/

namespace HTTPServerResponse

/-- The text of `gzip_include_mime_rx`. -/
def gzipIncludeMimeRx : Str :=
  str ("(text/.*)|(application/x-javascript.*)|(application/javascript)" ++
    "|(application/xhtml+xml)|(application/xml)")

def gzipMinContentLength : Nat := 200

/-- `HTTPServerResponse::contentBenefitsFromCompression`. -/
def contentBenefitsFromCompression (r : HTTPServerResponse) : Bool :=
  if r.content.length < gzipMinContentLength then false
  else if r.getHeaderAttribute (str "Content-Encoding") = str "gzip" then false
  else
    let mime := r.getHeaderAttribute (str "Content-Type")
    if mime = [] then false
    else ((Ecma.compile gzipIncludeMimeRx).bind fun rx => Ecma.fullMatch rx mime).isSome

end HTTPServerResponse

/-- `CompressMiddleware::handle`; an exception goes on. -/
def CompressMiddleware.handle (env : HostEnvironment) : IMiddleware Exception (Exchange ω) :=
  fun x => .next x fun outcome x =>
    match outcome with
    | .error e => .ret (.error e) x
    | .ok _ =>
      if x.req.supportsGzip && x.res.contentBenefitsFromCompression then
        .ret (.ok ()) { x with res := x.res.compress env }
      else .ret (.ok ()) x

namespace Compression

open HTTPServerResponse ResponseBody

/-- The layers around a handler, the outermost first. -/
def pipeline (layers : List HostEnvironment) (h : RequestHandler Exception (Exchange ω)) :
    MiddlewareContext Exception (Exchange ω) :=
  ⟨layers.map CompressMiddleware.handle, some h⟩

/-! ## What compression should keep -/

/-- The codings of content by their names.  The empty name, which stands for no header, is no
coding. -/
structure ContentCodings where
  encode : Str → Str → Str
  decode : Str → Str → Str
  lossless : ∀ name bytes, decode name (encode name bytes) = bytes
  plain : ∀ bytes, decode [] bytes = bytes

/-- The bytes a response stands for. -/
def decoded (codings : ContentCodings) (r : HTTPServerResponse) : Str :=
  codings.decode (r.getHeaderAttribute (str "Content-Encoding")) r.content

/-- The final response stands for the bytes of the one downstream, and its length is right. -/
structure Transparent (codings : ContentCodings) (downstream final : HTTPServerResponse) : Prop where
  bytes : decoded codings final = decoded codings downstream
  length : final.headers[str "Content-Length"]? = some (toString final.content.length)

/-- Some sequence of operations makes the response. -/
def Built (r : HTTPServerResponse) : Prop := ∃ ops, runOps ops .init = some r

/-- A layer compresses what has been handed to it. -/
def Compresses (r : Ended Exception (Exchange ω)) : Prop :=
  r.1 = .ok () ∧ r.2.req.supportsGzip ∧ r.2.res.contentBenefitsFromCompression

/-- A layer compresses content that is in a coding and is not its own decoding. -/
def Recodes (codings : ContentCodings) (layers : List HostEnvironment)
    (r : Ended Exception (Exchange ω)) : Prop :=
  layers ≠ [] ∧ Compresses r ∧ decoded codings r.2.res ≠ r.2.res.content

/-! ## One layer -/

/-- What a layer makes of a response. -/
def finish (env : HostEnvironment) (r : Ended Exception (Exchange ω)) :
    Ended Exception (Exchange ω) :=
  match r.1 with
  | .error _ => r
  | .ok _ =>
    if r.2.req.supportsGzip && r.2.res.contentBenefitsFromCompression then
      (.ok (), { r.2 with res := r.2.res.compress env })
    else r

theorem handle_atMostOnce (env : HostEnvironment) (x : Exchange ω) :
    (CompressMiddleware.handle env x).AtMostOnce := by
  intro outcome x
  cases outcome with
  | error e => trivial
  | ok _ =>
    simp only
    split <;> trivial

theorem compose_handle (layers : List HostEnvironment) (h : RequestHandler Exception (Exchange ω))
    (x : Exchange ω) :
    compose (layers.map CompressMiddleware.handle) (fun x => some (h x)) x =
      some (layers.foldr finish (h x)) := by
  induction layers with
  | nil => exact compose_nil _ _
  | cons env layers ih =>
    rw [List.map_cons, compose_cons, CompressMiddleware.handle]
    simp only [ih, Option.bind_some, List.foldr_cons, ascend, finish]
    rcases hr : (layers.foldr finish (h x)) with ⟨e | _, y⟩
    · rfl
    · by_cases hc : (y.req.supportsGzip && y.res.contentBenefitsFromCompression) = true
      · simp only [if_pos hc]
      · simp only [if_neg hc]

/-- The run of the layers. -/
theorem run_pipeline (layers : List HostEnvironment) (h : RequestHandler Exception (Exchange ω))
    (x : Exchange ω) : ((pipeline layers h).run x).state = (layers.foldr finish (h x)).2 := by
  have honce : ∀ m ∈ layers.map (CompressMiddleware.handle (ω := ω)), ∀ x, (m x).AtMostOnce := by
    intro m hm x
    obtain ⟨env, -, rfl⟩ := List.mem_map.mp hm
    exact handle_atMostOnce env x
  have hrun := run_compose h honce x
  rw [compose_handle] at hrun
  exact (congrArg Prod.snd (Option.some.inj hrun)).symm

theorem compress_encoding (r : HTTPServerResponse) (env : HostEnvironment) :
    (r.compress env).headers[str "Content-Encoding"]? = some (str "gzip") := by
  rw [compress, setContentLength, addHeader_ne _ _ (by decide)]
  exact Std.ExtTreeMap.getElem?_insert_self

theorem compress_getEncoding (r : HTTPServerResponse) (env : HostEnvironment) :
    (r.compress env).getHeaderAttribute (str "Content-Encoding") = str "gzip" := by
  rw [getHeaderAttribute, Std.ExtTreeMap.getD_eq_getD_getElem?, compress_encoding]
  rfl

/-- What is compressed is not compressed again. -/
theorem compress_no_benefit (r : HTTPServerResponse) (env : HostEnvironment) :
    (r.compress env).contentBenefitsFromCompression = false := by
  simp [contentBenefitsFromCompression, compress_getEncoding]

theorem finish_of_compresses {r : Ended Exception (Exchange ω)} (h : Compresses r)
    (env : HostEnvironment) : finish env r = (.ok (), { r.2 with res := r.2.res.compress env }) := by
  obtain ⟨hok, hgzip, hbenefits⟩ := h
  simp [finish, hok, hgzip, hbenefits]

theorem finish_of_not {r : Ended Exception (Exchange ω)} (h : ¬ Compresses r)
    (env : HostEnvironment) : finish env r = r := by
  rcases hr : r.1 with e | _
  · simp [finish, hr]
  · have hno : (r.2.req.supportsGzip && r.2.res.contentBenefitsFromCompression) = false := by
      by_contra hc
      rw [Bool.not_eq_false, Bool.and_eq_true] at hc
      exact h ⟨hr, hc.1, hc.2⟩
    simp [finish, hr, hno]

/-! ## All layers -/

/-- **The innermost layer decides**, and those around it leave its response alone. -/
theorem foldr_finish (layers : List HostEnvironment) (r : Ended Exception (Exchange ω)) :
    ((layers = [] ∨ ¬ Compresses r) ∧ layers.foldr finish r = r) ∨
      Compresses r ∧ ∃ env ∈ layers,
        layers.foldr finish r = (.ok (), { r.2 with res := r.2.res.compress env }) := by
  induction layers with
  | nil => exact .inl ⟨.inl rfl, rfl⟩
  | cons env layers ih =>
    rw [List.foldr_cons]
    rcases ih with ⟨-, hsame⟩ | ⟨hc, inner, hinner, heq⟩
    · rw [hsame]
      by_cases hc : Compresses r
      · exact .inr ⟨hc, env, List.mem_cons_self, finish_of_compresses hc env⟩
      · exact .inl ⟨.inr hc, finish_of_not hc env⟩
    · refine .inr ⟨hc, inner, List.mem_cons_of_mem _ hinner, ?_⟩
      rw [heq]
      apply finish_of_not
      rintro ⟨-, -, hbenefits⟩
      rw [compress_no_benefit] at hbenefits
      cases hbenefits

theorem decoded_compress {codings : ContentCodings} {env : HostEnvironment}
    (hgzip : env.gzip = codings.encode (str "gzip")) (r : HTTPServerResponse) :
    decoded codings (r.compress env) = r.content := by
  rw [decoded, compress_getEncoding]
  show codings.decode (str "gzip") (env.gzip r.content) = r.content
  rw [hgzip, codings.lossless]

/-- Content that pays to be compressed is there. -/
theorem Compresses.content_ne_nil {r : Ended Exception (Exchange ω)} (h : Compresses r) :
    r.2.res.content ≠ [] := by
  rintro hnil
  have hbenefits := h.2.2
  simp [contentBenefitsFromCompression, hnil, gzipMinContentLength] at hbenefits

/-- **When compression is transparent.**  The layers keep the bytes the response stands for, with
the right length, if and only if none of them compresses content that is in a coding, and the
response downstream has a length. -/
theorem transparent_iff (codings : ContentCodings) (layers : List HostEnvironment)
    (hgzip : ∀ env ∈ layers, env.gzip = codings.encode (str "gzip"))
    (h : RequestHandler Exception (Exchange ω)) (x : Exchange ω) (hbuilt : Built (h x).2.res) :
    Transparent codings (h x).2.res ((pipeline layers h).run x).state.res ↔
      ¬ Recodes codings layers (h x) ∧ (h x).2.res.headers[str "Content-Length"]? ≠ none := by
  obtain ⟨ops, hops⟩ := hbuilt
  have hagrees : Agrees (h x).2.res := agrees_init.runOps hops
  rw [run_pipeline]
  rcases foldr_finish layers (h x) with ⟨hnone, hsame⟩ | ⟨hc, env, henv, heq⟩
  · have hno : ¬ Recodes codings layers (h x) := fun hrec =>
      hnone.elim (fun hnil => hrec.1 hnil) fun hnot => hnot hrec.2.1
    rw [hsame]
    constructor
    · intro ht
      exact ⟨hno, by rw [ht.length]; exact Option.some_ne_none _⟩
    · rintro ⟨-, hlength⟩
      obtain ⟨v, hv⟩ := Option.ne_none_iff_exists'.mp hlength
      exact ⟨rfl, by rw [hv, hagrees.size v hv]⟩
  · have hlayers : layers ≠ [] := List.ne_nil_of_mem henv
    have hbytes := decoded_compress (hgzip env henv) (h x).2.res
    rw [heq]
    constructor
    · intro ht
      refine ⟨fun hrec => hrec.2.2 (ht.bytes.symm.trans hbytes), ?_⟩
      obtain ⟨v, hv⟩ := hagrees.present hc.content_ne_nil
      rw [hv]
      exact Option.some_ne_none _
    · rintro ⟨hrec, -⟩
      refine ⟨?_, Std.ExtTreeMap.getElem?_insert_self⟩
      by_contra hne
      exact hrec ⟨hlayers, hc, fun hdec => hne (hbytes.trans hdec.symm)⟩

/-! ### A page in another coding -/

/-- Every coding puts its name before the bytes. -/
def namedCodings : ContentCodings where
  encode name bytes := name ++ bytes
  decode name bytes := bytes.drop name.length
  lossless _ _ := List.drop_left
  plain _ := rfl

/-- The compressor of `namedCodings`. -/
def namedEnvironment : HostEnvironment :=
  { emptyEnvironment with gzip := fun bytes => str "gzip" ++ bytes }

/-- A page that has been compressed with Brotli. -/
def brotliPage : Str := str "br" ++ List.replicate 200 'a'.toUInt8

/-- Answers with the page. -/
def brotliHandler : RequestHandler Exception (Exchange Unit) :=
  fun x => (.ok (), { x with res :=
    HTTPServerResponse.init.encodeFileData namedEnvironment brotliPage (str "br") (str "text/html") 0 })

def gzipExchange : Exchange Unit :=
  ⟨{ HTTPServerRequest.init with
      SERVER := (∅ : Dictionary).insert (str "Accept-Encoding") (str "gzip, br") }, .init, ()⟩

theorem brotliPage_not_transparent :
    ¬ Transparent namedCodings (brotliHandler gzipExchange).2.res
      ((pipeline [namedEnvironment] brotliHandler).run gzipExchange).state.res :=
  fun h => absurd h.bytes (by decide +kernel)

theorem brotliPage_transparent_iff :
    Transparent namedCodings (brotliHandler gzipExchange).2.res
        ((pipeline [namedEnvironment] brotliHandler).run gzipExchange).state.res ↔
      ¬ Recodes namedCodings [namedEnvironment] (brotliHandler gzipExchange) ∧
        (brotliHandler gzipExchange).2.res.headers[str "Content-Length"]? ≠ none := by
  refine transparent_iff namedCodings [namedEnvironment] ?_ brotliHandler gzipExchange ?_
  · intro env henv
    rw [List.mem_singleton.mp henv]
    rfl
  · exact ⟨[(namedEnvironment, .encodeFileData brotliPage (str "br") (str "text/html") 0)], rfl⟩

end Compression

end Wsrv
