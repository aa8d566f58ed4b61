import Wsrv.MultipartRoundTrip

/-!
# What a multipart body leaves in the request

Every value that `parse_multipart_data` stores should be a slice of the body
between the empty line behind the headers of a part and the next boundary
(`Sound`).  That is so when every part is delimited (`values_are_slices`): its
last header line is not cut off at the count of `get_next_line`, and the first
line break with two dashes behind its headers has the boundary behind it.  The
body of a form with readable parts is one of these (`encodeParts_closed`).  The
text of a part without a boundary is stored with the end of the stream as a
character (`truncated_stored`).
-/

namespace Wsrv.RequestParser

/-! ## The parts of a body -/

/-- The loop comes to a part with a name: what its headers say, and the stream behind them. -/
inductive Comes (bnd : Str) : IStream → Part → IStream → Prop
  | here {strm part strm₁} : partHeaders strm {} = .ok (part, strm₁) → part.formField ≠ [] →
      Comes bnd strm part strm₁
  | later {strm part₀ strm₀ data strm₂ part strm₁} : partHeaders strm {} = .ok (part₀, strm₀) →
      part₀.formField ≠ [] → mimeLoop bnd 0 0 0 [] strm₀ = .ok (data, strm₂) →
      Comes bnd strm₂ part strm₁ → Comes bnd strm part strm₁

/-- The parts of a body whose first line is a boundary. -/
def HasPart (bnd body : Str) (part : Part) (strm₁ : IStream) : Prop :=
  compareAt (getNextLine ⟨body, false⟩).1 2 bnd.length bnd = .ok true ∧
    Comes bnd (getNextLine ⟨body, false⟩).2 part strm₁

/-- A value starts right after the empty line behind the headers of a part, and a line break, two
dashes and the boundary follow it. -/
def Slice (bnd body v : Str) : Prop :=
  ∃ part strm₁ before after, HasPart bnd body part strm₁ ∧
    body = before ++ str "\r\n\r\n" ++ strm₁.rest ∧ strm₁.rest = v ++ (marker ++ (bnd ++ after))

/-- **What the body leaves in the request are slices of it**, and a part without a boundary behind
it leaves nothing. -/
structure Sound (bnd body : Str) : Prop where
  POST : ∀ req req', parseMultipartData req ⟨body, false⟩ bnd = .ok req' →
    ∀ name v : Str, req'.POST[name]? = some v → req.POST[name]? = some v ∨ Slice bnd body v
  FILE : ∀ req req', parseMultipartData req ⟨body, false⟩ bnd = .ok req' →
    ∀ file ∈ req'.FILE, file ∈ req.FILE ∨ Slice bnd body file.data
  missing : ∀ part strm₁, HasPart bnd body part strm₁ → ¬ marker ++ bnd <:+: strm₁.rest →
    ∀ req, ∃ strm₂, parseMimeData req strm₁ part.formField part.fileName part.contentType bnd =
      .ok (req, strm₂)

/-! ## What a part stores -/

/-- The text up to the boundary is the only value a part leaves. -/
theorem parseMimeData_stores {req req' : HTTPServerRequest} {strm strm₂ : IStream}
    {fld fileName contentType bnd : Str}
    (h : parseMimeData req strm fld fileName contentType bnd = .ok (req', strm₂)) :
    ∃ data, mimeLoop bnd 0 0 0 [] strm = .ok (data, strm₂) ∧
      (∀ name v : Str, req'.POST[name]? = some v → req.POST[name]? = some v ∨ v = data) ∧
      ∀ file ∈ req'.FILE, file ∈ req.FILE ∨ file.data = data := by
  unfold parseMimeData at h
  split at h
  · cases h
  · rename_i data strm' hmime
    refine ⟨data, ?_⟩
    split at h
    · cases h
      refine ⟨hmime, fun name v hv => ?_, fun file hfile => .inl hfile⟩
      rw [Std.ExtTreeMap.getElem?_insert] at hv
      split at hv
      · exact .inr (Option.some.inj hv).symm
      · exact .inl hv
    · split at h
      · cases h
        refine ⟨hmime, fun name v hv => .inl hv, fun file hfile => ?_⟩
        rcases List.mem_append.mp hfile with hold | hnew
        · exact .inl hold
        · rw [List.mem_singleton.mp hnew]
          exact .inr rfl
      · cases h
        exact ⟨hmime, fun name v hv => .inl hv, fun file hfile => .inl hfile⟩

/-- A value that the loop leaves is the text of a part it comes to. -/
def Stored (bnd : Str) (strm : IStream) (v : Str) : Prop :=
  ∃ part strm₁ strm₂, Comes bnd strm part strm₁ ∧ mimeLoop bnd 0 0 0 [] strm₁ = .ok (v, strm₂)

/-- **Every value of the loop comes from one of the parts**, by induction on the stream. -/
theorem multipartLoop_stores (bnd : Str) {req req' : HTTPServerRequest} {strm : IStream}
    (h : multipartLoop bnd req strm = .ok req') :
    (∀ name v : Str, req'.POST[name]? = some v → req.POST[name]? = some v ∨ Stored bnd strm v) ∧
      ∀ file ∈ req'.FILE, file ∈ req.FILE ∨ Stored bnd strm file.data := by
  induction hn : strm.size using Nat.strong_induction_on generalizing req strm with
  | _ n ih =>
    subst hn
    obtain ⟨part, strm₁, hpart, -, hlt⟩ := partHeaders_ok strm {}
    by_cases hf : part.formField = []
    · rw [multipartLoop_end hpart hf] at h
      cases h
      exact ⟨fun name v hv => .inl hv, fun file hfile => .inl hfile⟩
    · have hne : part ≠ {} := by
        rintro rfl
        exact hf rfl
      obtain ⟨req₂, strm₂, hmime, hle⟩ :=
        parseMimeData_ok req strm₁ part.formField part.fileName part.contentType bnd
      rw [multipartLoop_part hpart hf hmime] at h
      obtain ⟨data, hdata, hPOST, hFILE⟩ := parseMimeData_stores hmime
      obtain ⟨hPOST', hFILE'⟩ := ih _ (hle.trans_lt (hlt hne)) h rfl
      have hhere : Stored bnd strm data := ⟨part, strm₁, strm₂, .here hpart hf, hdata⟩
      have hlater {v : Str} (hv : Stored bnd strm₂ v) : Stored bnd strm v := by
        obtain ⟨part', strm', strm'', hcomes, hv⟩ := hv
        exact ⟨part', strm', strm'', .later hpart hf hdata hcomes, hv⟩
      constructor
      · intro name v hv
        rcases hPOST' name v hv with hv | hv
        · rcases hPOST name v hv with hv | rfl
          · exact .inl hv
          · exact .inr hhere
        · exact .inr (hlater hv)
      · intro file hfile
        rcases hFILE' file hfile with hfile | hfile
        · rcases hFILE file hfile with hfile | hfile
          · exact .inl hfile
          · rw [hfile]
            exact .inr hhere
        · exact .inr (hlater hfile)

/-! ## Delimited parts -/

/-- The header lines of a part, up to the empty line in front of `content`.  Lines may be cut at
the count, but not the last one right in front of its line break. -/
inductive Header : Str → Str → Prop
  | last {line content} : line ≠ [] →
      getNextLine ⟨line ++ CR :: LF :: CR :: LF :: content, false⟩ =
        (line, ⟨CR :: LF :: content, false⟩) →
      Header (line ++ CR :: LF :: CR :: LF :: content) content
  | line {text line rest content} : line ≠ [] →
      getNextLine ⟨text, false⟩ = (line, ⟨rest, false⟩) → Header rest content →
      Header text content

/-- Every part up to the first one without a name ends at a boundary, and no other line break with
two dashes behind it stands before that. -/
inductive Delimited (bnd : Str) : Str → Prop
  | stop {text part strm₁} : partHeaders ⟨text, false⟩ {} = .ok (part, strm₁) →
      part.formField = [] → Delimited bnd text
  | part {text content after} : Header text (content ++ (marker ++ (bnd ++ after))) →
      ¬ marker <:+: content → Delimited bnd (after.drop 2) → Delimited bnd text

/-- A body whose parts are delimited, if its first line is a boundary. -/
def Closed (bnd body : Str) : Prop :=
  compareAt (getNextLine ⟨body, false⟩).1 2 bnd.length bnd = .ok true →
    Delimited bnd (getNextLine ⟨body, false⟩).2.rest

theorem IStream.get_suffix (strm : IStream) : strm.get.2.rest <:+ strm.rest := by
  unfold IStream.get
  split
  · exact List.suffix_rfl
  · split
    · exact List.suffix_rfl
    · rename_i c rest hrest
      rw [hrest]
      exact List.suffix_cons c rest

theorem getNextLine_suffix (strm : IStream) : (getNextLine strm).2.rest <:+ strm.rest :=
  getNextLineLoop_keeps (P := fun s => s.rest <:+ strm.rest) (fun s h => s.get_suffix.trans h) 1000 []
    List.suffix_rfl

/-- The content stands behind an empty line. -/
theorem Header.emptyLine {text content : Str} (h : Header text content) :
    ∃ before, text = before ++ str "\r\n\r\n" ++ content := by
  induction h with
  | last hne hline => exact ⟨_, (List.append_assoc _ (str "\r\n\r\n") _).symm⟩
  | line hne hline _ ih =>
    obtain ⟨before, rfl⟩ := ih
    obtain ⟨front, hfront⟩ := getNextLine_suffix ⟨_, false⟩
    rw [hline] at hfront
    have htext := hfront.symm
    exact ⟨front ++ before, by simpa only [List.append_assoc] using htext⟩

theorem Header.partHeaders_eq {text content : Str} (h : Header text content) (part : Part) :
    ∃ part', partHeaders ⟨text, false⟩ part = .ok (part', ⟨content, false⟩) := by
  induction h generalizing part with
  | @last line content hne hline =>
    obtain ⟨part', hadd⟩ := addHeader_ok part line
    refine ⟨part', ?_⟩
    rw [partHeaders, dif_neg (by rw [hline]; exact hne)]
    simp only [hline, hadd]
    exact partHeaders_end part' _
  | @line text line rest content hne hline _ ih =>
    obtain ⟨part', hadd⟩ := addHeader_ok part line
    obtain ⟨part'', htail⟩ := ih part'
    refine ⟨part'', ?_⟩
    rw [partHeaders, dif_neg (by rw [hline]; exact hne)]
    simp only [hline, hadd, htail]

/-- A delimited content is read up to its boundary. -/
theorem mimeLoop_delimited (bnd : Str) {content : Str} (h : ¬ marker <:+: content) (after : Str) :
    ∃ strm₂, mimeLoop bnd 0 0 0 [] ⟨content ++ (marker ++ (bnd ++ after)), false⟩ =
        .ok (content, strm₂) ∧
      (strm₂.eof = true ∨ strm₂ = ⟨after.drop 2, false⟩) := by
  rw [← List.append_assoc, mimeLoop_marker bnd (marker_start h), IStream.read_append]
  refine ⟨_, by rw [if_pos rfl, List.nil_append], ?_⟩
  match after with
  | [] => exact .inl rfl
  | [c] => exact .inl rfl
  | c :: d :: after => exact .inr rfl

/-- Where the stream has ended the loop comes to no part. -/
theorem not_comes_eof {bnd : Str} {strm strm₁ : IStream} {part : Part} (heof : strm.eof = true) :
    ¬ Comes bnd strm part strm₁ := by
  have hline : (getNextLine strm).1 = [] := by
    rw [getNextLine, getNextLineLoop, if_pos heof]
  have hpart : partHeaders strm {} = .ok ({}, (getNextLine strm).2) := by
    rw [partHeaders, dif_pos hline]
  intro h
  cases h with
  | here h hf =>
    rw [hpart] at h
    cases h
    exact hf rfl
  | later h hf =>
    rw [hpart] at h
    cases h
    exact hf rfl

/-- **A part of a delimited text is a slice of it**, by induction over the parts. -/
theorem Delimited.comes {bnd text : Str} (h : Delimited bnd text) {part : Part} {strm₁ : IStream}
    (hcomes : Comes bnd ⟨text, false⟩ part strm₁) :
    ∃ before content after, text = before ++ str "\r\n\r\n" ++ strm₁.rest ∧
      strm₁ = ⟨content ++ (marker ++ (bnd ++ after)), false⟩ ∧ ¬ marker <:+: content := by
  induction h with
  | stop hpart hf =>
    cases hcomes with
    | here h hne =>
      rw [hpart] at h
      cases h
      exact absurd hf hne
    | later h hne =>
      rw [hpart] at h
      cases h
      exact absurd hf hne
  | @part text content after hheader hcontent _ ih =>
    obtain ⟨before, hbefore⟩ := hheader.emptyLine
    obtain ⟨part', hpart⟩ := hheader.partHeaders_eq {}
    obtain ⟨strm₂, hmime, hbehind⟩ := mimeLoop_delimited bnd hcontent after
    cases hcomes with
    | here h hne =>
      rw [hpart] at h
      cases h
      exact ⟨before, content, after, hbefore, rfl, hcontent⟩
    | later h hne hdata htail =>
      rw [hpart] at h
      cases h
      rw [hmime] at hdata
      cases hdata
      rcases hbehind with heof | rfl
      · exact absurd htail (not_comes_eof heof)
      · obtain ⟨before', content', after', htext, hstrm, hcontent'⟩ := ih htail
        refine ⟨before ++ str "\r\n\r\n" ++ content ++ marker ++ bnd ++ after.take 2 ++ before',
          content', after', ?_, hstrm, hcontent'⟩
        calc text = before ++ str "\r\n\r\n" ++ (content ++ (marker ++ (bnd ++ after))) := hbefore
          _ = before ++ str "\r\n\r\n" ++
              (content ++ (marker ++ (bnd ++ (after.take 2 ++ after.drop 2)))) := by
            rw [List.take_append_drop]
          _ = _ := by
            rw [htext]
            simp only [List.append_assoc]

/-! ## Soundness -/

/-- The stream behind the first line has not ended when a part follows. -/
theorem Comes.eof {bnd : Str} {strm strm₁ : IStream} {part : Part}
    (h : Comes bnd strm part strm₁) : strm = ⟨strm.rest, false⟩ := by
  obtain ⟨rest, eof⟩ := strm
  cases eof with
  | true => exact absurd h (not_comes_eof rfl)
  | false => rfl

theorem Closed.part {bnd body : Str} (h : Closed bnd body) {part : Part} {strm₁ : IStream}
    (hpart : HasPart bnd body part strm₁) :
    ∃ before content after, body = before ++ str "\r\n\r\n" ++ strm₁.rest ∧
      strm₁ = ⟨content ++ (marker ++ (bnd ++ after)), false⟩ ∧ ¬ marker <:+: content := by
  obtain ⟨hfirst, hcomes⟩ := hpart
  have hdel := h hfirst
  obtain ⟨front, hfront⟩ := getNextLine_suffix ⟨body, false⟩
  rw [hcomes.eof] at hcomes
  obtain ⟨before, content, after, htext, hstrm, hcontent⟩ := hdel.comes hcomes
  refine ⟨front ++ before, content, after, ?_, hstrm, hcontent⟩
  simp only at hfront
  rw [← hfront, htext]
  simp only [List.append_assoc]

/-- The text of a part of a closed body is a slice. -/
theorem Closed.slice {bnd body : Str} (h : Closed bnd body)
    (hfirst : compareAt (getNextLine ⟨body, false⟩).1 2 bnd.length bnd = .ok true) {v : Str}
    (hv : Stored bnd (getNextLine ⟨body, false⟩).2 v) : Slice bnd body v := by
  obtain ⟨part, strm₁, strm₂, hcomes, hdata⟩ := hv
  obtain ⟨before, content, after, hbody, rfl, hcontent⟩ := h.part ⟨hfirst, hcomes⟩
  obtain ⟨strm₃, hmime, -⟩ := mimeLoop_delimited bnd hcontent after
  rw [hmime] at hdata
  cases hdata
  exact ⟨part, _, before, after, ⟨hfirst, hcomes⟩, hbody, rfl⟩

/-- Behind a first line that is no boundary nothing is read. -/
theorem parseMultipartData_cases {req req' : HTTPServerRequest} {bnd body : Str}
    (h : parseMultipartData req ⟨body, false⟩ bnd = .ok req') :
    req' = req ∨ compareAt (getNextLine ⟨body, false⟩).1 2 bnd.length bnd = .ok true ∧
      multipartLoop bnd req (getNextLine ⟨body, false⟩).2 = .ok req' := by
  unfold parseMultipartData at h
  simp only at h
  split at h
  · cases h
    exact .inl rfl
  · split at h
    · cases h
    · cases h
      exact .inl rfl
    · rename_i hfirst
      exact .inr ⟨hfirst, h⟩

theorem Closed.sound {bnd body : Str} (h : Closed bnd body) : Sound bnd body where
  POST req req' hreq name v hv := by
    rcases parseMultipartData_cases hreq with rfl | ⟨hfirst, hloop⟩
    · exact .inl hv
    · exact ((multipartLoop_stores bnd hloop).1 name v hv).imp_right (h.slice hfirst)
  FILE req req' hreq file hfile := by
    rcases parseMultipartData_cases hreq with rfl | ⟨hfirst, hloop⟩
    · exact .inl hfile
    · exact ((multipartLoop_stores bnd hloop).2 file hfile).imp_right (h.slice hfirst)
  missing part strm₁ hpart hmissing req := by
    obtain ⟨before, content, after, -, rfl, -⟩ := h.part hpart
    exact absurd ⟨content, after, by simp⟩ hmissing

/-! ## Bodies of a form -/

/-- Header lines that are read whole, by induction over the lines. -/
theorem Header.lines (content : Str) {line : Str} {lines : List Str}
    (h : ∀ l ∈ line :: lines, l ≠ [] ∧ CR ∉ l ∧ l.length < 1000) :
    Header (((line :: lines).flatMap fun l => l ++ [CR, LF]) ++ CR :: LF :: content) content := by
  induction lines generalizing line with
  | nil =>
    obtain ⟨hne, hCR, hlen⟩ := h line List.mem_cons_self
    simpa using Header.last hne (getNextLine_line hCR hlen (CR :: LF :: content))
  | cons next lines ih =>
    obtain ⟨⟨hne, hCR, hlen⟩, hnext⟩ := List.forall_mem_cons.mp h
    have hline := getNextLine_line hCR hlen
      (((next :: lines).flatMap fun l => l ++ [CR, LF]) ++ CR :: LF :: content)
    rw [List.flatMap_cons, List.append_assoc, List.append_assoc]
    exact .line hne hline (ih hnext)

theorem FormPart.header_encode (p : FormPart)
    (hlines : ∀ line ∈ p.headerLines, CR ∉ line ∧ line.length < 1000) (rest : Str) :
    Header (p.encode ++ rest) (p.content ++ rest) := by
  have hne : ∀ line ∈ p.headerLines, line ≠ [] := by
    have hdisposition : str "Content-Disposition: form-data; name=\"" ≠ [] := by decide
    have htype : str "Content-Type: " ≠ [] := by decide
    intro line hline
    rcases List.mem_cons.mp hline with rfl | hline
    · unfold disposition
      split <;> simp [hdisposition]
    · obtain ⟨ct, -, rfl⟩ := Option.map_eq_some_iff.mp (Option.mem_toList.mp hline)
      simp [htype]
  have h := Header.lines (p.content ++ rest) fun line hline => ⟨hne line hline, hlines line hline⟩
  simpa only [encode, headerLines, List.append_assoc, List.cons_append, List.nil_append] using h

/-- Behind every content stands the boundary of the next part, or the last one. -/
theorem delimited_behindBoundary (bnd : Str) {parts : List FormPart} (h : ∀ p ∈ parts, p.Readable) :
    Delimited bnd ((behindBoundary bnd parts).drop 2) := by
  induction parts with
  | nil => exact .stop (partHeaders_end {} []) rfl
  | cons p parts ih =>
    obtain ⟨hp, hparts⟩ := List.forall_mem_cons.mp h
    have hrest : (behindBoundary bnd (p :: parts)).drop 2 =
        p.encode ++ (marker ++ (bnd ++ behindBoundary bnd parts)) := rfl
    rw [hrest]
    exact .part (p.header_encode hp.lines _) hp.content (ih hparts)

/-- **The body of a form whose parts are readable is closed**, and it has its first part. -/
theorem encodeParts_closed {bnd : Str} (hCR : CR ∉ bnd) (hlen : bnd.length ≤ 997) {p : FormPart}
    {parts : List FormPart} (hp : p.Sendable bnd) (h : ∀ q ∈ p :: parts, q.Readable) :
    Closed bnd (encodeParts bnd (p :: parts)) ∧
      ∃ strm₁, HasPart bnd (encodeParts bnd (p :: parts)) p.header strm₁ := by
  have hread := h p List.mem_cons_self
  obtain ⟨hdash, hlen', -⟩ := boundaryLine hCR
  have hline : getNextLine ⟨encodeParts bnd (p :: parts), false⟩ =
      (str "--" ++ bnd, ⟨(behindBoundary bnd (p :: parts)).drop 2, false⟩) := by
    rw [encodeParts_eq]
    exact getNextLine_line hdash (by omega) _
  have hfirst : compareAt (str "--" ++ bnd) 2 bnd.length bnd = .ok true := by
    simpa using compareAt_boundary bnd []
  have hpart := p.partHeaders_encode hp.name hp.fileName hread.lines
    (marker ++ (bnd ++ behindBoundary bnd parts))
  unfold Closed HasPart
  rw [hline]
  exact ⟨fun _ => delimited_behindBoundary bnd h, _, hfirst, .here hpart hread.name⟩

/-! ## Truncated bodies -/

/-- The text that is read is no longer than the stream and what was there. -/
theorem mimeLoop_length (bnd : Str) {b1 b2 b3 : UInt8} {data data' : Str} {strm strm' : IStream}
    (h : mimeLoop bnd b1 b2 b3 data strm = .ok (data', strm')) :
    data'.length ≤ data.length + strm.size := by
  induction hn : strm.size using Nat.strong_induction_on generalizing b1 b2 b3 data strm with
  | _ n ih =>
    subst hn
    rw [mimeLoop] at h
    split at h
    · cases h
      exact Nat.le_add_right _ _
    · rename_i heof
      have hget := strm.get_size_lt heof
      simp only [] at h
      split at h
      · split at h
        · cases h
        · have hread := strm.get.2.read_size bnd.length
          have htake := List.length_take_le (data.length - 3) data
          split at h
          · cases h
            omega
          · have := ih _ (hread.trans_lt hget) h rfl
            omega
      · have := ih _ hget h rfl
        simp only [List.length_append, List.length_singleton] at this
        omega

/-- A part with a name, and no boundary behind its headers. -/
def Truncated (bnd body : Str) : Prop :=
  ∃ part strm₁, HasPart bnd body part strm₁ ∧ ¬ marker ++ bnd <:+: strm₁.rest ∧
    (part.fileName = [] ∨ strm₁.rest.length < fileUploadMaxSize)

/-- **A part without a boundary is stored all the same**, unless it is a file that is too large. -/
theorem truncated_stored (strm : IStream) {fld fileName : Str} (contentType bnd : Str)
    (hsize : fileName = [] ∨ strm.rest.length < fileUploadMaxSize) :
    ∃ req strm', ∀ strm₂,
      parseMimeData .init strm fld fileName contentType bnd = .ok (req, strm') ∧
        parseMimeData .init strm fld fileName contentType bnd ≠ .ok (.init, strm₂) := by
  obtain ⟨data, strm', hmime, -⟩ := @mimeLoop_ok bnd 0 0 0 [] strm ⟨by decide, by decide, by decide⟩
  have hlength := mimeLoop_length bnd hmime
  unfold parseMimeData
  rw [hmime]
  simp only
  split
  · refine ⟨_, _, fun strm₂ => ⟨rfl, fun h => ?_⟩⟩
    have hPOST : HTTPServerRequest.init.POST.insert fld data = HTTPServerRequest.init.POST :=
      congrArg HTTPServerRequest.POST (Prod.mk.inj (Except.ok.inj h)).1
    have hget : (HTTPServerRequest.init.POST.insert fld data)[fld]? = none := by
      rw [hPOST]
      exact Std.ExtTreeMap.getElem?_empty
    rw [Std.ExtTreeMap.getElem?_insert_self] at hget
    cases hget
  · rename_i hne
    have hlt := hsize.resolve_left hne
    have hle : data.length ≤ fileUploadMaxSize := by
      unfold IStream.size at hlength
      split at hlength <;> simp only [List.length_nil] at hlength <;> omega
    rw [if_pos hle]
    refine ⟨_, _, fun strm₂ => ⟨rfl, fun h => ?_⟩⟩
    have hFILE := congrArg HTTPServerRequest.FILE (Prod.mk.inj (Except.ok.inj h)).1
    cases hFILE

theorem Truncated.not_sound {bnd body : Str} (h : Truncated bnd body) : ¬ Sound bnd body := by
  obtain ⟨part, strm₁, hpart, hmissing, hsize⟩ := h
  intro hsound
  obtain ⟨strm₂, hnothing⟩ := hsound.missing part strm₁ hpart hmissing .init
  obtain ⟨req, strm', hstored⟩ := truncated_stored strm₁ part.contentType bnd hsize
  exact (hstored strm₂).2 hnothing

/-- A field whose value is cut off. -/
def cutField : FormPart := ⟨str "f", none, none, str "hel"⟩

def cutBody : Str := str "--x" ++ CR :: LF :: (cutField.encode ++ [])

theorem cutBody_truncated : Truncated (str "x") cutBody := by
  have hline : getNextLine ⟨cutBody, false⟩ = (str "--x", ⟨cutField.encode ++ [], false⟩) :=
    getNextLine_line (by decide) (by decide) _
  have hpart := cutField.partHeaders_encode (by decide +kernel) (by simp [cutField])
    (by decide +kernel) []
  refine ⟨cutField.header, ⟨cutField.content ++ [], false⟩, ⟨?_, ?_⟩, by decide, .inl rfl⟩
  · rw [hline]
    rfl
  · rw [hline]
    exact .here hpart (by decide)

theorem cutBody_not_sound : ¬ Sound (str "x") cutBody := cutBody_truncated.not_sound

/-- **Multipart bodies are read soundly when their parts are delimited**, and never when a part
that fits is cut off. -/
theorem values_are_slices (bnd body : Str) :
    (Closed bnd body → Sound bnd body) ∧ (Truncated bnd body → ¬ Sound bnd body) :=
  ⟨Closed.sound, Truncated.not_sound⟩

end Wsrv.RequestParser
