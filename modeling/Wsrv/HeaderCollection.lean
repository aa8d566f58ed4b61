import Wsrv.ResponseParser

/-!
# Collecting the headers

Neither parser is told where a header ends.  `on_header_field` takes the header
before it as finished when its value is not empty; after an empty value it goes
on appending to the old name.

The abstract collector `HeaderFields` has the three members that decide this.
`collect_headers`: from a state with nothing half read, the lines it is told of
end up in the map, provided that no value is empty.  `headersCollected_iff`: in
both parsers, and only then.
-/

namespace Wsrv

/-! ## The collector -/

/-- What the callbacks know of the headers: the name and the value that are being read, and the
headers that are finished. -/
structure HeaderFields where
  field : Str
  value : Str
  headers : Dictionary

/-- A call of `on_header_field` or `on_header_value`. -/
inductive HeaderCall
  | field (data : Str)
  | value (data : Str)

namespace HeaderFields

def flush (s : HeaderFields) : HeaderFields :=
  if s.value = [] then s else ⟨[], [], s.headers.insert s.field s.value⟩

def call (s : HeaderFields) : HeaderCall → HeaderFields
  | .field data => { s.flush with field := s.flush.field ++ data }
  | .value data => { s with value := s.value ++ data }

/-- Nothing is left in the name when a new header begins. -/
def Ready (s : HeaderFields) : Prop := s.value = [] → s.field = []

theorem flush_ready {s : HeaderFields} (h : s.Ready) : s.flush = ⟨[], [], s.flush.headers⟩ := by
  unfold flush
  split_ifs with hv
  · have hf := h hv
    cases s
    simp_all
  · rfl

theorem foldl_field (names : List Str) (name : Str) (headers : Dictionary) :
    (names.map HeaderCall.field).foldl call ⟨name, [], headers⟩ =
      ⟨name ++ names.flatten, [], headers⟩ := by
  induction names generalizing name with
  | nil => simp
  | cons n names ih =>
    have hcall : call ⟨name, [], headers⟩ (.field n) = ⟨name ++ n, [], headers⟩ := rfl
    rw [List.map_cons, List.foldl_cons, hcall, ih, List.flatten_cons, List.append_assoc]

theorem foldl_value (values : List Str) (name value : Str) (headers : Dictionary) :
    (values.map HeaderCall.value).foldl call ⟨name, value, headers⟩ =
      ⟨name, value ++ values.flatten, headers⟩ := by
  induction values generalizing value with
  | nil => simp
  | cons v values ih =>
    have hcall : call ⟨name, value, headers⟩ (.value v) = ⟨name, value ++ v, headers⟩ := rfl
    rw [List.map_cons, List.foldl_cons, hcall, ih, List.flatten_cons, List.append_assoc]

end HeaderFields

/-! ## Header lines -/

/-- A header line as the HTTP parser reports it: its name and its value in pieces, at least one of
each.  An empty value is one piece without a character. -/
structure ReportedLine where
  names : List Str
  values : List Str
  names_reported : names ≠ []
  values_reported : values ≠ []

namespace ReportedLine

def name (l : ReportedLine) : Str := l.names.flatten

def value (l : ReportedLine) : Str := l.values.flatten

def calls (l : ReportedLine) : List HeaderCall :=
  l.names.map .field ++ l.values.map .value

/-- The line is read into an empty name, and what was read before is finished. -/
theorem foldl_calls (l : ReportedLine) (s : HeaderFields) (h : s.Ready) :
    l.calls.foldl HeaderFields.call s = ⟨l.name, l.value, s.flush.headers⟩ := by
  obtain ⟨n, names, hnames⟩ := List.exists_cons_of_ne_nil l.names_reported
  have hfirst : s.call (.field n) = ⟨n, [], s.flush.headers⟩ := by
    rw [HeaderFields.call, HeaderFields.flush_ready h]
    rfl
  rw [calls, List.foldl_append, hnames, List.map_cons, List.foldl_cons, hfirst,
    HeaderFields.foldl_field, HeaderFields.foldl_value]
  simp [name, value, hnames]

end ReportedLine

/-- **Lines without an empty value are all collected.** -/
theorem collect_headers (lines : List ReportedLine) (s : HeaderFields) (h : s.Ready)
    (hvalue : ∀ l ∈ lines, l.value ≠ []) :
    ((lines.flatMap ReportedLine.calls).foldl HeaderFields.call s).flush.headers =
      lines.foldl (fun m l => m.insert l.name l.value) s.flush.headers := by
  induction lines generalizing s with
  | nil => rfl
  | cons l lines ih =>
    have hl := hvalue l List.mem_cons_self
    rw [List.flatMap_cons, List.foldl_append, l.foldl_calls s h,
      ih _ (fun h => absurd h hl) fun l' hl' => hvalue l' (List.mem_cons_of_mem _ hl')]
    simp [HeaderFields.flush, hl]

/-- No empty value is ever collected. -/
theorem collect_no_nil (calls : List HeaderCall) (s : HeaderFields)
    (h : ∀ k : Str, s.headers[k]? ≠ some []) :
    ∀ k : Str, (calls.foldl HeaderFields.call s).flush.headers[k]? ≠ some [] := by
  have flush (s : HeaderFields) (h : ∀ k : Str, s.headers[k]? ≠ some []) (k : Str) :
      s.flush.headers[k]? ≠ some [] := by
    unfold HeaderFields.flush
    split_ifs with hv
    · exact h k
    · simp only [Std.ExtTreeMap.getElem?_insert]
      split_ifs
      · simpa using hv
      · exact h k
  induction calls generalizing s with
  | nil => exact flush s h
  | cons c calls ih =>
    cases c with
    | field data => exact ih _ (flush s h)
    | value data => exact ih _ h

/-- The map has exactly one entry for each line, from its name to its value. -/
structure HeadersCollected (lines : List ReportedLine) (headers : Dictionary) : Prop where
  entries : ∀ l ∈ lines, headers[l.name]? = some l.value
  no_others : ∀ k ∈ headers, ∃ l ∈ lines, l.name = k

theorem headersCollected_foldl (lines : List ReportedLine)
    (hdistinct : (lines.map ReportedLine.name).Nodup) :
    HeadersCollected lines (lines.foldl (fun m l => m.insert l.name l.value) ∅) := by
  have hlist : lines.foldl (fun (m : Dictionary) l => m.insert l.name l.value) ∅ =
      .ofList (lines.map fun l => (l.name, l.value)) := by
    rw [Std.ExtTreeMap.ofList_eq_foldl, List.foldl_map]
  rw [hlist]
  constructor
  · intro l hl
    refine Std.ExtTreeMap.getElem?_ofList_of_mem (by simp) ?_ (List.mem_map.mpr ⟨l, hl, rfl⟩)
    rw [List.pairwise_map]
    exact (List.pairwise_map.mp hdistinct).imp fun hne => by simpa using hne
  · intro k hk
    simpa [Std.ExtTreeMap.mem_ofList] using hk

/-- **The headers are collected exactly when no value is empty.** -/
theorem collect_iff (lines : List ReportedLine)
    (hdistinct : (lines.map ReportedLine.name).Nodup) :
    HeadersCollected lines
        ((lines.flatMap ReportedLine.calls).foldl HeaderFields.call ⟨[], [], ∅⟩).flush.headers ↔
      ∀ l ∈ lines, l.value ≠ [] := by
  constructor
  · intro h l hl hnil
    refine collect_no_nil (lines.flatMap ReportedLine.calls) ⟨[], [], ∅⟩ (by simp) l.name ?_
    rw [h.entries l hl, hnil]
  · intro h
    rw [collect_headers lines ⟨[], [], ∅⟩ (fun _ => rfl) h]
    exact headersCollected_foldl lines hdistinct

/-! ## The two parsers -/

namespace RequestFields

def headerCall (rp : RequestFields) : HeaderCall → RequestFields
  | .field data => rp.onHeaderField data
  | .value data => rp.onHeaderValue data

def headerFields (rp : RequestFields) : HeaderFields :=
  ⟨rp.currentHeaderField, rp.currentHeaderValue, rp.headers⟩

theorem headerFields_flush (rp : RequestFields) :
    rp.flushHeader.headerFields = rp.headerFields.flush := by
  unfold flushHeader HeaderFields.flush headerFields
  split_ifs <;> rfl

theorem headerFields_call (rp : RequestFields) (c : HeaderCall) :
    rp.headerFields.call c = (rp.headerCall c).headerFields := by
  cases c with
  | field data =>
    rw [HeaderFields.call, ← rp.headerFields_flush]
    rfl
  | value data => rfl

end RequestFields

namespace ResponseFields

def headerCall (rp : ResponseFields) : HeaderCall → ResponseFields
  | .field data => rp.onHeaderField data
  | .value data => rp.onHeaderValue data

def headerFields (rp : ResponseFields) : HeaderFields :=
  ⟨rp.currentHeaderField, rp.currentHeaderValue, rp.headers⟩

theorem headerFields_flush (rp : ResponseFields) :
    rp.flushHeader.headerFields = rp.headerFields.flush := by
  unfold flushHeader HeaderFields.flush headerFields
  split_ifs <;> rfl

theorem headerFields_call (rp : ResponseFields) (c : HeaderCall) :
    rp.headerFields.call c = (rp.headerCall c).headerFields := by
  cases c with
  | field data =>
    rw [HeaderFields.call, ← rp.headerFields_flush]
    rfl
  | value data => rfl

end ResponseFields

/-- `headers_` of a new `RequestParser` after these calls and `on_headers_complete`. -/
def requestHeaders (junk : Bool) (parser : Http.HttpParser) (calls : List HeaderCall) :
    Dictionary :=
  ((calls.foldl RequestFields.headerCall (RequestParser.new junk).fields).onHeadersComplete
    parser).headers

/-- `headers_` of a new `ResponseParser` after these calls and `on_headers_complete`. -/
def responseHeaders (junk : Bool) (calls : List HeaderCall) : Dictionary :=
  (calls.foldl ResponseFields.headerCall (ResponseParser.new junk).fields).onHeadersComplete.headers

theorem requestHeaders_eq (junk : Bool) (parser : Http.HttpParser) (calls : List HeaderCall) :
    requestHeaders junk parser calls =
      (calls.foldl HeaderFields.call ⟨[], [], ∅⟩).flush.headers := by
  have h := @List.foldl_hom _ _ _ RequestFields.headerFields _ _ calls
    (RequestParser.new junk).fields RequestFields.headerFields_call
  rw [show (⟨[], [], ∅⟩ : HeaderFields) = (RequestParser.new junk).fields.headerFields from rfl, h,
    ← RequestFields.headerFields_flush]
  rfl

theorem responseHeaders_eq (junk : Bool) (calls : List HeaderCall) :
    responseHeaders junk calls = (calls.foldl HeaderFields.call ⟨[], [], ∅⟩).flush.headers := by
  have h := @List.foldl_hom _ _ _ ResponseFields.headerFields _ _ calls
    (ResponseParser.new junk).fields ResponseFields.headerFields_call
  rw [show (⟨[], [], ∅⟩ : HeaderFields) = (ResponseParser.new junk).fields.headerFields from rfl, h,
    ← ResponseFields.headerFields_flush]
  rfl

/-- **Both parsers collect the headers exactly when no value is empty.** -/
theorem headersCollected_iff (lines : List ReportedLine)
    (hdistinct : (lines.map ReportedLine.name).Nodup) (junk : Bool) (parser : Http.HttpParser) :
    (HeadersCollected lines (requestHeaders junk parser (lines.flatMap ReportedLine.calls)) ↔
        ∀ l ∈ lines, l.value ≠ []) ∧
      (HeadersCollected lines (responseHeaders junk (lines.flatMap ReportedLine.calls)) ↔
        ∀ l ∈ lines, l.value ≠ []) := by
  rw [requestHeaders_eq, responseHeaders_eq]
  exact ⟨collect_iff lines hdistinct, collect_iff lines hdistinct⟩

/-- Two headers, the first of them in pieces. -/
def acceptLines : List ReportedLine :=
  [⟨[str "Acc", str "ept"], [str "text/", str "html"], by decide, by decide⟩,
    ⟨[str "Host"], [str "a"], by decide, by decide⟩]

theorem acceptLines_collected :
    HeadersCollected acceptLines
      (requestHeaders false (Http.init .request) (acceptLines.flatMap ReportedLine.calls)) :=
  ((headersCollected_iff acceptLines (by decide +kernel) false (Http.init .request)).1).mpr
    (by decide +kernel)

/-- A host after a header without a value. -/
def hostLines : List ReportedLine :=
  [⟨[str "X-Em", str "pty"], [[]], by decide, by decide⟩,
    ⟨[str "Host"], [str "a"], by decide, by decide⟩]

theorem empty_value_joins_names :
    ¬ HeadersCollected hostLines
        (requestHeaders false (Http.init .request) (hostLines.flatMap ReportedLine.calls)) ∧
      ¬ HeadersCollected hostLines
        (responseHeaders false (hostLines.flatMap ReportedLine.calls)) := by
  have hreq : requestHeaders false (Http.init .request) (hostLines.flatMap ReportedLine.calls) =
      (∅ : Dictionary).insert (str "X-EmptyHost") (str "a") := by decide +kernel
  have hres : responseHeaders false (hostLines.flatMap ReportedLine.calls) =
      (∅ : Dictionary).insert (str "X-EmptyHost") (str "a") := by decide +kernel
  have hlost : ¬ HeadersCollected hostLines
      ((∅ : Dictionary).insert (str "X-EmptyHost") (str "a")) := by
    intro h
    have := h.entries ⟨[str "Host"], [str "a"], by decide, by decide⟩ (by simp [hostLines])
    exact absurd this (by decide)
  rw [hreq, hres]
  exact ⟨hlost, hlost⟩

example :
    let message := str "GET / HTTP/1.1\r\nX-Empty:\r\nHost: a\r\n\r\n"
    let r := (RequestParser.new false).feed [message]
    r.1 = .ok ∧ r.2.fields.headers[str "X-EmptyHost"]? = some (str "a") := by
  decide +kernel

end Wsrv
