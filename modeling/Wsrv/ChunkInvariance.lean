import Wsrv.DecodeSafety
import Wsrv.RequestTarget

/-!
# The reads of a request

A complete request may come in any reads.  What the parser has collected after
the last is the same for all of them (`feed_reading`), except the target, of
which only the part in the read with its end is left.

`reads_agree_iff` says which reads come to the same request: those whose parts
of the target are the same for `parse_url`.
-/

namespace Wsrv

open Http

namespace RequestParser

/-! ## Feeding -/

open Reading in
/-- **The reads of a request** up to the one that completes it are the reader on their bytes, if
it is not complete before, and the scan for the target. -/
theorem feed_reading {rp : RequestParser} {seen : Bool} {p : HttpParser} {m : MessageLog}
    {sc : TargetScan} {reads : List Str} (h : At rp (.going seen p m)) (hu : UrlAt rp sc)
    (hne : ∀ data ∈ reads, data ≠ []) (hreads : reads ≠ [])
    (hok : (Reading.text (.going seen p m) reads.flatten).ok = true)
    (hfirst : ∀ t u, t ≠ [] → u ≠ [] → reads.flatten = t ++ u →
      (Reading.text (.going seen p m) t).ok = false) :
    (rp.feed reads).1 = .ok ∧
      At (rp.feed reads).2 (Reading.text (.going seen p m) reads.flatten) ∧
      (rp.feed reads).2.fields.url = (reads.foldl TargetScan.read sc).text := by
  induction reads generalizing rp seen p m sc with
  | nil => exact absurd rfl hreads
  | cons data rest ih =>
    have hdata : data ≠ [] := hne data List.mem_cons_self
    rw [List.flatten_cons, text_append] at hok ⊢
    generalize hr : Reading.text (.going seen p m) data = r at hok ⊢
    have hgoes : r ≠ .failed := by
      rintro rfl
      rw [text_failed] at hok
      cases hok
    obtain ⟨hat, hresult⟩ := (parse_reading h hdata).1 (by rw [hr]; exact hgoes)
    have hurl := parse_scanned hu hdata (by rw [hresult, result]; split_ifs <;> simp)
    rw [hr] at hat hresult
    rw [feed, List.foldl_cons]
    rcases hparse : rp.parse data with ⟨res, rp'⟩
    rw [hparse] at hat hresult hurl
    simp only at hat hresult hurl
    obtain ⟨htext, hscan⟩ := hurl
    cases hrest : rest with
    | nil =>
      simp only [hrest, List.flatten_nil, text, List.foldl_nil] at hok ⊢
      rw [result, hok] at hresult
      subst hresult
      exact ⟨rfl, hat, htext⟩
    | cons data' rest' =>
      have hrest' : rest.flatten ≠ [] := by
        rw [hrest, List.flatten_cons]
        exact fun h => hne data' (by simp [hrest]) (List.append_eq_nil_iff.mp h).1
      have hnot : r.ok = false := by
        rw [← hr]
        exact hfirst data rest.flatten hdata hrest' (List.flatten_cons ..)
      rw [result, hnot] at hresult
      subst hresult
      rw [← hrest]
      cases r with
      | complete p' m' => cases hnot
      | failed => exact absurd rfl hgoes
      | going seen' p' m' =>
        have herrno : rp'.parser.httpErrno = .ok := hat.1 ▸ hat.2.2.1
        refine ih hat (hscan rfl herrno) (fun d hd => hne d (List.mem_cons_of_mem _ hd))
          (by simp [hrest]) hok ?_
        intro t u ht hu htu
        have := hfirst (data ++ t) u (by simp [hdata]) hu (by
          rw [List.flatten_cons, htu, List.append_assoc])
        rwa [text_append, hr] at this

/-! ## Complete requests -/

/-- The bytes are one complete request: read at once they complete a message, and the bytes before
the last do not. -/
structure Complete (junk : Bool) (s : Str) : Prop where
  ok : ((new junk).parse s).1 = .ok
  first : ∀ i < s.length, 0 < i → ((new junk).parse (s.take i)).1 ≠ .ok
  ne_nil : s ≠ []

/-- A way to cut the bytes into reads. -/
structure Cut (s : Str) (reads : List Str) : Prop where
  flatten : reads.flatten = s
  ne_nil : ∀ data ∈ reads, data ≠ []

/-- The reader before the first byte. -/
def startReading (junk : Bool) : Reading :=
  .going false (init .request) ⟨[], [], [], [], [], junk⟩

theorem at_start (junk : Bool) : Reading.At (new junk) (startReading junk) :=
  ⟨rfl, rfl, rfl, Reader.settled_between rfl⟩

theorem urlAt_start (junk : Bool) : UrlAt (new junk) .start :=
  ⟨rfl, rfl, fun _ _ => rfl, rfl⟩

/-- The first read of a fresh parser completes the message where the reader does. -/
theorem parse_ok_iff (junk : Bool) {data : Str} (hne : data ≠ []) :
    ((new junk).parse data).1 = .ok ↔ ((startReading junk).text data).ok = true := by
  obtain ⟨hgoes, hfails⟩ := Reading.parse_reading (at_start junk) hne
  by_cases hr : (startReading junk).text data = .failed
  · have hne := hfails hr rfl (.inr rfl)
    rw [hr]
    exact ⟨fun h => absurd h hne, fun h => nomatch h⟩
  · rw [(hgoes hr).2, Reading.result, startReading]
    cases (Reading.text (.going false (init .request) ⟨[], [], [], [], [], junk⟩) data).ok <;> simp

/-- **Any reads of a complete request** come to what the reader has collected, and to the part of
the target in the read with its end. -/
theorem feed_cut {junk : Bool} {s : Str} (hs : Complete junk s) {reads : List Str}
    (hc : Cut s reads) :
    ((new junk).feed reads).1 = .ok ∧
      Reading.At ((new junk).feed reads).2 ((startReading junk).text s) ∧
      ((new junk).feed reads).2.fields.url = targetTail reads := by
  obtain ⟨rfl, hne⟩ := hc
  refine feed_reading (at_start junk) (urlAt_start junk) hne ?_ ?_ ?_
  · rintro rfl
    exact hs.ne_nil rfl
  · exact (parse_ok_iff junk hs.ne_nil).mp hs.ok
  · intro t u ht hu htu
    have hlt : t.length < reads.flatten.length := by
      rw [htu, List.length_append]
      exact Nat.lt_add_of_pos_right (List.length_pos_of_ne_nil hu)
    have hnot := hs.first t.length hlt (List.length_pos_of_ne_nil ht)
    rw [htu, List.take_left, ne_eq, parse_ok_iff junk ht] at hnot
    exact Bool.eq_false_iff.mpr hnot

/-- Two parsers at the same place of the reader differ in the target only. -/
theorem at_complete {rp rp' : RequestParser} {r : Reading} (hr : r.ok = true)
    (h : Reading.At rp r) (h' : Reading.At rp' r) :
    rp.parser.method = rp'.parser.method ∧ rp.fields.eraseUrl = rp'.fields.eraseUrl := by
  cases r with
  | failed => cases hr
  | complete p m => exact ⟨h.1.trans h'.1.symm, h.2.trans h'.2.symm⟩
  | going seen p m =>
    exact ⟨congrArg HttpParser.method (h.1.trans h'.1.symm), h.2.1.trans h'.2.1.symm⟩

/-! ## The request they come to -/

/-- Two runs of a parser complete their messages, and come to the same request, which is not
undefined behaviour. -/
structure SameRequest (run run' : Result × RequestParser) : Prop where
  ok : run.1 = .ok
  ok' : run'.1 = .ok
  same : run.2.decodeMessage .init = run'.2.decodeMessage .init
  defined : (run.2.decodeMessage .init).1 ≠ .error .undefined

theorem normalizePath_ne_nil (src : Str) : normalizePath src ≠ [] := by
  unfold normalizePath
  simp only
  split_ifs
  · decide
  · decide
  · exact fun h => absurd (List.append_eq_nil_iff.mp h).1 (by decide)

theorem urlParts_path {url path query : Str} (h : urlParts url = .ok (some (path, query))) :
    path ≠ [] := by
  unfold urlParts urlPartsWith at h
  split at h
  · cases h
  · cases h
  · split at h
    · split at h
      · cases h
        exact normalizePath_ne_nil _
      · cases h
    · cases h
    · cases h

/-- What `parse_url` sees of a target is its path and its query. -/
theorem parseUrl_congr {url url' : Str} (h : urlParts url = urlParts url')
    (req : HTTPServerRequest) : parseUrl req url = parseUrl req url' := by
  unfold urlParts at h
  unfold parseUrl parseUrlWith
  rw [h]

/-- The parts of the target that a decoded message shows. -/
def shownParts (r : Decoded) : Except Fault (Option (Str × Str)) :=
  if r.2.path = [] then
    match r.1 with
    | .ok _ => .ok none
    | .error f => .error f
  else .ok (some (r.2.path, r.2.query))

theorem decodeMessage_shownParts (rp : RequestParser) :
    shownParts (rp.decodeMessage .init) = urlParts rp.fields.url ∧
      ((rp.decodeMessage .init).1 = .error .undefined ↔
        urlParts rp.fields.url = .error .undefined) := by
  have hpath : (startRequest rp .init).path = [] := rfl
  unfold decodeMessage
  generalize startRequest rp .init = req at hpath
  rcases parseUrl_cases req rp.fields.url with ⟨f, hu, hp⟩ | ⟨hu, hp⟩ | ⟨path, query, GET, hu, hp⟩
  · rw [hp, hu]
    simp [Decoded.andThen, shownParts, hpath]
  · rw [hp, hu]
    simp [Decoded.andThen, shownParts, hpath]
  · rw [hp, hu, Decoded.andThen]
    obtain ⟨hdefined, hpath', hquery⟩ := cookiesAndForm_target
      { req with path := path, query := query, GET := GET } rp.fields.body
    simp only at hdefined hpath' hquery
    refine ⟨?_, fun h => absurd h hdefined, fun h => by cases h⟩
    rw [shownParts, hpath', hquery, if_neg (urlParts_path hu)]

/-- Messages that differ in the target only are decoded alike where its parts are the same. -/
theorem decode_target_iff {rp rp' : RequestParser} (hm : rp.parser.method = rp'.parser.method)
    (hf : rp.fields.eraseUrl = rp'.fields.eraseUrl) :
    rp.decodeMessage .init = rp'.decodeMessage .init ↔
      urlParts rp.fields.url = urlParts rp'.fields.url := by
  constructor
  · intro h
    rw [← (decodeMessage_shownParts rp).1, h, (decodeMessage_shownParts rp').1]
  · intro h
    have hh : rp.fields.headers = rp'.fields.headers := (congrArg RequestFields.headers hf :)
    have hp : rp.fields.protocol = rp'.fields.protocol := (congrArg RequestFields.protocol hf :)
    have hb : rp.fields.body = rp'.fields.body := (congrArg RequestFields.body hf :)
    unfold decodeMessage
    simp only [startRequest, hm, hh, hp, hb, parseUrl_congr h]

/-- **Two ways to cut a complete request into reads** come to the same request exactly where the
parts of the target in the reads with its end have the same path and query, and these are
defined. -/
theorem reads_agree_iff {junk : Bool} {s : Str} (hs : Complete junk s) {reads reads' : List Str}
    (hc : Cut s reads) (hc' : Cut s reads') :
    SameRequest ((new junk).feed reads) ((new junk).feed reads') ↔
      urlParts (targetTail reads) = urlParts (targetTail reads') ∧
        urlParts (targetTail reads) ≠ .error .undefined := by
  obtain ⟨hok, hat, hurl⟩ := feed_cut hs hc
  obtain ⟨hok', hat', hurl'⟩ := feed_cut hs hc'
  obtain ⟨hm, hf⟩ := at_complete ((parse_ok_iff junk hs.ne_nil).mp hs.ok) hat hat'
  have hsame := decode_target_iff hm hf
  have hdefined := (decodeMessage_shownParts ((new junk).feed reads).2).2
  rw [hurl] at hdefined
  rw [hurl, hurl'] at hsame
  constructor
  · intro h
    exact ⟨hsame.mp h.same, fun hu => h.defined (hdefined.mpr hu)⟩
  · rintro ⟨h, hu⟩
    exact ⟨hok, hok', hsame.mpr h, fun hd => hu (hdefined.mp hd)⟩

/-- Where no read ends inside of the target or directly behind it, nothing of it is lost. -/
theorem targetTail_uncut {reads : List Str}
    (h : ∀ i < reads.length, ((reads.take i).foldl TargetScan.read .start).stage ≠ .target) :
    targetTail reads = targetTail [reads.flatten] := by
  have hscan : ∀ (sc : TargetScan) (reads : List Str),
      (∀ i < reads.length, ((reads.take i).foldl TargetScan.read sc).stage ≠ .target) →
      reads.foldl TargetScan.read sc = reads.flatten.foldl TargetScan.byte sc := by
    intro sc reads h
    induction reads generalizing sc with
    | nil => rfl
    | cons data rest ih =>
      have hread : sc.read data = data.foldl TargetScan.byte sc :=
        congrArg (data.foldl TargetScan.byte) (if_neg (h 0 (by simp)))
      rw [List.foldl_cons, List.flatten_cons, List.foldl_append, ← hread]
      exact ih _ fun i hi => h (i + 1) (by simpa using hi)
  rw [targetTail, hscan .start reads h]
  rfl

/-- A request whose target is long enough to be cut. -/
def cutTarget : Str := str "GET /a/b?c=d HTTP/1.1\r\nHost: h\r\n\r\n"

theorem cutTarget_complete : Complete false cutTarget :=
  ⟨by decide +kernel, by decide +kernel, by decide⟩

/-- Between the target and the version no cut matters. -/
theorem cutTarget_agree :
    SameRequest ((new false).feed [cutTarget])
      ((new false).feed [cutTarget.take 13, cutTarget.drop 13]) :=
  (reads_agree_iff cutTarget_complete ⟨by decide, by decide⟩ ⟨by decide, by decide⟩).mpr
    (by decide +kernel)

/-- Inside of the target a cut loses what comes before it. -/
theorem cutTarget_lost :
    ¬∀ (junk : Bool) (s : Str) (reads reads' : List Str), Complete junk s → Cut s reads →
      Cut s reads' → SameRequest ((new junk).feed reads) ((new junk).feed reads') := by
  intro h
  have hsame := h false cutTarget [cutTarget] [cutTarget.take 6, cutTarget.drop 6]
    cutTarget_complete ⟨by decide, by decide⟩ ⟨by decide, by decide⟩
  have hparts := congrArg shownParts hsame.same
  rw [(decodeMessage_shownParts _).1, (decodeMessage_shownParts _).1] at hparts
  revert hparts
  decide +kernel

end RequestParser

end Wsrv
