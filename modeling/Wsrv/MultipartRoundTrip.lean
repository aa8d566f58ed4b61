import Wsrv.DecodeSafety
import Wsrv.FormRoundTrip

/-!
# Multipart bodies from the encoder to the server

A list of parts is encoded as `multipart/form-data`, and `parse_multipart_data`
reads it back (`multipart_roundTrip`), where the header lines are short enough
for `get_next_line` and in no content a line break is followed by two dashes:
`parse_mime_data` takes these for a boundary and drops what it compares
(`mimeLoop_lookAlike`).
-/

namespace Wsrv.RequestParser

/-! ## Lines -/

/-- Characters other than a carriage return are read as they stand, as far as the count goes. -/
theorem getNextLineLoop_chars {line : Str} (h : CR ∉ line) (n : Nat) (res rest : Str) :
    getNextLineLoop (line.length + n) res ⟨line ++ rest, false⟩ =
      getNextLineLoop n (res ++ line) ⟨rest, false⟩ := by
  induction line generalizing res with
  | nil => simp
  | cons c line ih =>
    simp only [List.mem_cons, not_or] at h
    have hc : c ≠ CR := fun he => h.1 he.symm
    rw [List.length_cons, Nat.add_right_comm, getNextLineLoop]
    simp only [Bool.false_eq_true, if_false, IStream.get, List.cons_append, hc]
    rw [ih h.2]
    simp

/-- A line of less than 1000 characters is read whole, with its line break. -/
theorem getNextLine_line {line : Str} (h : CR ∉ line) (hlen : line.length < 1000) (rest : Str) :
    getNextLine ⟨line ++ CR :: LF :: rest, false⟩ = (line, ⟨rest, false⟩) := by
  obtain ⟨n, hn⟩ : ∃ n, 1000 = line.length + (n + 1) := ⟨999 - line.length, by omega⟩
  rw [getNextLine, hn, getNextLineLoop_chars h, getNextLineLoop]
  simp [IStream.get]

/-- Of a line of 1000 characters the line break is left. -/
theorem getNextLine_full {line : Str} (h : CR ∉ line) (hlen : line.length = 1000) (rest : Str) :
    getNextLine ⟨line ++ rest, false⟩ = (line, ⟨rest, false⟩) := by
  rw [getNextLine, show 1000 = line.length + 0 by omega, getNextLineLoop_chars h]
  rfl

theorem getNextLine_empty (rest : Str) :
    getNextLine ⟨CR :: LF :: rest, false⟩ = ([], ⟨rest, false⟩) :=
  @getNextLine_line [] (by simp) (by simp) rest

/-! ## The text up to a boundary -/

/-- What `parse_mime_data` stops at before it looks for the boundary. -/
def marker : Str := str "\r\n--"

theorem mimeLoop_cons (bnd : Str) (b1 b2 b3 c : UInt8) (data rest : Str) :
    mimeLoop bnd b1 b2 b3 data ⟨c :: rest, false⟩ =
      if b1 = CR ∧ b2 = LF ∧ b3 = '-'.toUInt8 ∧ c = '-'.toUInt8 then
        if data.length < 3 then .error (.lengthError (str "basic_string::_M_replace_aux"))
        else
          let data := data.take (data.length - 3)
          let r := (⟨rest, false⟩ : IStream).read bnd.length
          if r.1 = bnd then .ok (data, r.2.get.2.get.2)
          else mimeLoop bnd b2 b3 c data r.2
      else mimeLoop bnd b2 b3 c (data ++ [c]) ⟨rest, false⟩ := by
  rw [mimeLoop]
  rfl

/-- **The window finds the first marker**, and what stands before it is text. -/
theorem mimeLoop_marker (bnd : Str) {b1 b2 b3 : UInt8} {content : Str}
    (h : ¬ marker <:+: b1 :: b2 :: b3 :: content) (data rest : Str) :
    mimeLoop bnd b1 b2 b3 data ⟨content ++ marker ++ rest, false⟩ =
      let r := (⟨rest, false⟩ : IStream).read bnd.length
      if r.1 = bnd then .ok (data ++ content, r.2.get.2.get.2)
      else mimeLoop bnd LF '-'.toUInt8 '-'.toUInt8 (data ++ content) r.2 := by
  induction content generalizing b1 b2 b3 data with
  | nil =>
    have hmarker : marker = [CR, LF, '-'.toUInt8, '-'.toUInt8] := by decide
    have hdash : '-'.toUInt8 ≠ CR := by decide
    have hCR : CR ≠ '-'.toUInt8 := by decide
    have hLF : LF ≠ '-'.toUInt8 := by decide
    simp only [hmarker, List.nil_append, List.cons_append, mimeLoop_cons, hCR, hLF, and_false,
      false_and, if_false, and_self, if_true, List.append_nil, List.append_assoc,
      List.length_append, List.length_cons, List.length_nil]
    rw [if_neg (by omega), Nat.zero_add, Nat.add_sub_cancel, List.take_left]
  | cons c content ih =>
    have hwindow : ¬ (b1 = CR ∧ b2 = LF ∧ b3 = '-'.toUInt8 ∧ c = '-'.toUInt8) := by
      rintro ⟨rfl, rfl, rfl, rfl⟩
      exact h ⟨[], content, rfl⟩
    rw [List.cons_append, List.cons_append, mimeLoop_cons, if_neg hwindow,
      ih fun hin => h (hin.trans (List.suffix_cons b1 _).isInfix)]
    simp

/-! ## Parts and their encoding -/

/-- `"` -/
def quote : UInt8 := 34

/-- A field of a form: with a file name it is a file. -/
structure FormPart where
  name : Str
  fileName : Option Str := none
  contentType : Option Str := none
  content : Str

namespace FormPart

def disposition (p : FormPart) : Str :=
  match p.fileName with
  | none => str "Content-Disposition: form-data; name=\"" ++ p.name ++ [quote]
  | some f =>
    str "Content-Disposition: form-data; name=\"" ++ p.name ++ str "\"; filename=\"" ++ f ++ [quote]

def headerLines (p : FormPart) : List Str :=
  p.disposition :: (p.contentType.map (str "Content-Type: " ++ ·)).toList

def encode (p : FormPart) : Str :=
  (p.headerLines.flatMap fun line => line ++ [CR, LF]) ++ [CR, LF] ++ p.content

/-- The entry of `FILE_` for the part as a file. -/
def upload (p : FormPart) (fileName : Str) : UploadedFile :=
  ⟨p.name, fileName, p.contentType.getD [], p.content.length, p.content⟩

end FormPart

/-- Every part behind a boundary, and a last boundary with two dashes. -/
def encodeParts (bnd : Str) (parts : List FormPart) : Str :=
  (parts.flatMap fun p => str "--" ++ bnd ++ [CR, LF] ++ p.encode ++ [CR, LF]) ++
    (str "--" ++ bnd ++ str "--\r\n")

/-- What stands behind a boundary. -/
def behindBoundary (bnd : Str) : List FormPart → Str
  | [] => str "--\r\n"
  | p :: ps => [CR, LF] ++ p.encode ++ (marker ++ (bnd ++ behindBoundary bnd ps))

theorem encodeParts_eq (bnd : Str) (parts : List FormPart) :
    encodeParts bnd parts = str "--" ++ bnd ++ behindBoundary bnd parts := by
  have hmarker : marker = [CR, LF] ++ str "--" := by decide
  induction parts with
  | nil => rfl
  | cons p ps ih =>
    rw [behindBoundary, hmarker]
    unfold encodeParts at ih ⊢
    simp only [List.flatMap_cons, List.append_assoc] at ih ⊢
    rw [ih]

/-! ## The disposition of a part -/

/-- A text that stands between quotes on a header line. -/
def Quotable (s : Str) : Prop := ∀ c ∈ s, c ≠ quote ∧ c ≠ CR ∧ c ≠ LF

/-- `"(.*?)(?=")"` takes all of a quotable text, up to the closing quote. -/
theorem first_quoted {s : Str} (h : Quotable s) (i : Nat) (caps : Regex.Captures UInt8)
    (rest : Str) :
    Regex.First (.seq (.group i (.star (fun c => c != LF && c != CR) false))
        (.seq (.look (Regex.word (str "\""))) (Regex.word (str "\"")))) caps (s ++ quote :: rest)
      (rest, Function.update caps i (some s)) := by
  have hquote : Regex.First (Regex.word (str "\"")) (Function.update caps i (some s))
      (quote :: rest) (rest, Function.update caps i (some s)) :=
    Regex.first_word (str "\"") rest _
  refine Regex.first_group_star_reluctant ?_ ?_ (hquote.look.seq hquote)
  · intro c hc
    simp [(h c hc).2]
  · intro c hc caps w
    have hne : ¬ c = 34 := (h c hc).1
    have hword : str "\"" = [34] := by decide
    simp [Regex.runs, Regex.word, hword, hne]

theorem first_space (c : UInt8) (hc : isspace c = false) (pre : Str)
    (hpre : pre.all isspace = true) (caps : Regex.Captures UInt8) (rest : Str) :
    Regex.First (.star isspace true) caps (pre ++ c :: rest) (c :: rest, caps) := by
  have h := Regex.first_star_greedy isspace caps (pre ++ c :: rest)
  rwa [List.dropWhile_append_of_pos (List.all_eq_true.mp hpre), List.dropWhile_cons_of_neg (by simp [hc])] at h

theorem fullMatch_field {name : Str} (h : Quotable name) :
    Regex.fullMatch dispositionRegex (str "form-data; name=\"" ++ (name ++ [quote])) =
      some (Function.update (fun _ => none) 1 (some name)) := by
  have hsplit : str "form-data; name=\"" ++ (name ++ [quote]) =
      str "form-data;" ++ ([32] ++ (110 :: (str "ame=\"" ++ (name ++ [quote])))) := by
    have hword : str "form-data; name=\"" = str "form-data;" ++ ([32] ++ 110 :: str "ame=\"") := by
      rfl
    simp [hword]
  rw [hsplit]
  refine Regex.fullMatch_of_first <| (Regex.first_word _ _ _).seq <|
    (first_space 110 rfl [32] rfl _ _).seq <|
      (Regex.first_word (str "name=\"") (name ++ [quote]) _).seq <|
        (first_quoted h 1 _ []).seq <| Regex.first_opt_none ?_
  rfl

theorem fullMatch_file {name f : Str} (hname : Quotable name) (hf : Quotable f) :
    Regex.fullMatch dispositionRegex
        (str "form-data; name=\"" ++ (name ++ (str "\"; filename=\"" ++ (f ++ [quote])))) =
      some (Function.update (Function.update (fun _ => none) 1 (some name)) 2 (some f)) := by
  have hsplit : str "form-data; name=\"" ++ (name ++ (str "\"; filename=\"" ++ (f ++ [quote]))) =
      str "form-data;" ++ ([32] ++ (110 :: (str "ame=\"" ++ (name ++ quote ::
        ([] ++ 59 :: ([32] ++ (102 :: (str "ilename=\"" ++ (f ++ [quote]))))))))) := by
    have hword : str "form-data; name=\"" = str "form-data;" ++ ([32] ++ 110 :: str "ame=\"") := by
      rfl
    have hword' : str "\"; filename=\"" = quote :: 59 :: 32 :: 102 :: str "ilename=\"" := by
      rfl
    simp [hword, hword']
  rw [hsplit]
  refine Regex.fullMatch_of_first <| (Regex.first_word _ _ _).seq <|
    (first_space 110 rfl [32] rfl _ _).seq <|
      (Regex.first_word (str "name=\"") _ _).seq <|
        (first_quoted hname 1 _ _).seq <| Regex.First.opt <|
          (first_space 59 rfl [] rfl _ _).seq <|
            (Regex.first_word (str ";") _ _).seq <|
              (first_space 102 rfl [32] rfl _ _).seq <|
                (Regex.first_word (str "filename=\"") (f ++ [quote]) _).seq <|
                  first_quoted hf 2 _ []

/-! ## Header lines -/

/-- A value with no blank around it, and not empty. -/
def Trimmed (v : Str) : Prop :=
  v ≠ [] ∧ (∀ c ∈ v.head?, c ∉ trimChars) ∧ ∀ c ∈ v.getLast?, c ∉ trimChars

theorem Trimmed.trim_eq {v : Str} (h : Trimmed v) : trim (32 :: v) = v := by
  obtain ⟨hne, hfirst, hlast⟩ := h
  obtain ⟨a, v', rfl⟩ := List.exists_cons_of_ne_nil hne
  have ha : a ∉ trimChars := hfirst a (by simp)
  have hblank : (32 : UInt8) ∈ trimChars := by decide
  have hltrim : ltrim (32 :: a :: v') = a :: v' := by
    simp [ltrim, ha, hblank]
  have hrtrim : rtrim (a :: v') = a :: v' := by
    have hl := hlast ((a :: v').getLast hne) (List.getLast?_eq_getLast_of_ne_nil hne)
    have hdrop : (a :: v').rdropWhile (trimChars.contains ·) = a :: v' :=
      List.rdropWhile_eq_self_iff.mpr fun _ => by simpa using hl
    simp only [rtrim, hdrop, ite_self]
  rw [trim, hltrim, hrtrim]

theorem addHeader_disposition (part : Part) {v : Str} (h : Trimmed v)
    {subm : Regex.Captures UInt8} (hm : Regex.fullMatch dispositionRegex v = some subm) :
    part.addHeader (str "Content-Disposition" ++ ':'.toUInt8 :: 32 :: v) =
      .ok { part with formField := (subm 1).getD [], fileName := (subm 2).getD [] } := by
  have hkey : trim (str "Content-Disposition") = str "Content-Disposition" := rfl
  rw [Part.addHeader, find_append_cons (by decide)]
  simp only [List.take_left', List.drop_append, Nat.add_sub_cancel_left, List.drop_one,
    List.tail_cons, List.drop_eq_nil_of_le (Nat.le_succ _), List.nil_append, hkey, if_true,
    h.trim_eq, hm]

theorem addHeader_contentType (part : Part) (ct : Str) :
    part.addHeader (str "Content-Type" ++ ':'.toUInt8 :: 32 :: ct) =
      .ok { part with contentType := trim (32 :: ct) } := by
  have hkey : trim (str "Content-Type") = str "Content-Type" := rfl
  have hne : str "Content-Type" ≠ str "Content-Disposition" := by decide
  have htype : compareAt (str "Content-Type") 0 12 (str "Content-Type") = .ok true := by
    rfl
  rw [Part.addHeader, find_append_cons (by decide)]
  simp only [List.take_left', List.drop_append, Nat.add_sub_cancel_left, List.drop_one,
    List.tail_cons, List.drop_eq_nil_of_le (Nat.le_succ _), List.nil_append, hkey, hne, if_false,
    htype]

theorem partHeaders_line {line : Str} (hne : line ≠ []) (h : CR ∉ line) (hlen : line.length < 1000)
    {part part' : Part} (hadd : part.addHeader line = .ok part') (rest : Str) :
    partHeaders ⟨line ++ CR :: LF :: rest, false⟩ part = partHeaders ⟨rest, false⟩ part' := by
  have hline := getNextLine_line h hlen rest
  rw [partHeaders, dif_neg (by rw [hline]; exact hne)]
  simp only [hline, hadd]

theorem partHeaders_end (part : Part) (rest : Str) :
    partHeaders ⟨CR :: LF :: rest, false⟩ part = .ok (part, ⟨rest, false⟩) := by
  have hline := getNextLine_empty rest
  rw [partHeaders, dif_pos (by rw [hline])]
  rw [hline]

/-- Behind a line of 1000 characters its line break is read as an empty line. -/
theorem partHeaders_full {line : Str} (h : CR ∉ line) (hlen : line.length = 1000)
    {part part' : Part} (hadd : part.addHeader line = .ok part') (rest : Str) :
    partHeaders ⟨line ++ CR :: LF :: rest, false⟩ part = .ok (part', ⟨rest, false⟩) := by
  have hne : line ≠ [] := by
    rintro rfl
    simp at hlen
  have hline := getNextLine_full h hlen (CR :: LF :: rest)
  rw [partHeaders, dif_neg (by rw [hline]; exact hne)]
  simp only [hline, hadd]
  exact partHeaders_end part' rest

theorem trimmed_quoted (u : Str) : Trimmed (str "form-data; name=\"" ++ u ++ [quote]) := by
  have hword : str "form-data; name=\"" = 102 :: str "orm-data; name=\"" := rfl
  have hfirst : (102 : UInt8) ∉ trimChars := by decide
  have hlast : quote ∉ trimChars := by decide
  refine ⟨by simp, ?_, ?_⟩
  · rw [hword]
    simpa using hfirst
  · simpa only [List.getLast?_concat, Option.mem_some_iff, forall_eq'] using hlast

namespace FormPart

/-- What the header lines of the part say. -/
def header (p : FormPart) : Part where
  formField := p.name
  fileName := p.fileName.getD []
  contentType := (p.contentType.map fun ct => trim (32 :: ct)).getD []

theorem addHeader_own (p : FormPart) (hname : Quotable p.name)
    (hfile : ∀ f, p.fileName = some f → Quotable f) :
    Part.addHeader {} p.disposition =
      .ok { formField := p.name, fileName := p.fileName.getD [] } := by
  have hword : str "Content-Disposition: form-data; name=\"" =
      str "Content-Disposition" ++ ':'.toUInt8 :: 32 :: str "form-data; name=\"" := by
    rfl
  unfold disposition
  cases hf : p.fileName with
  | none =>
    have h := addHeader_disposition {} (trimmed_quoted p.name)
      (by rw [List.append_assoc]; exact fullMatch_field hname)
    simp only [hword, List.append_assoc, List.cons_append] at h ⊢
    exact h
  | some f =>
    have htrim := trimmed_quoted (p.name ++ (str "\"; filename=\"" ++ f))
    have h := addHeader_disposition {} htrim
      (by simpa only [List.append_assoc] using fullMatch_file hname (hfile f hf))
    simp only [hword, List.append_assoc, List.cons_append] at h ⊢
    exact h

/-- The header lines of a part are read up to the content, as they are written. -/
theorem partHeaders_encode (p : FormPart) (hname : Quotable p.name)
    (hfile : ∀ f, p.fileName = some f → Quotable f)
    (hlines : ∀ line ∈ p.headerLines, CR ∉ line ∧ line.length < 1000) (rest : Str) :
    partHeaders ⟨p.encode ++ rest, false⟩ {} = .ok (p.header, ⟨p.content ++ rest, false⟩) := by
  have hdisp := hlines p.disposition (by simp [headerLines])
  have hadd := p.addHeader_own hname hfile
  have hne : p.disposition ≠ [] := by
    have hword : str "Content-Disposition: form-data; name=\"" ≠ [] := by decide
    unfold disposition
    split <;> simp [hword]
  unfold encode headerLines header
  cases hct : p.contentType with
  | none =>
    simp only [Option.map_none, Option.toList_none, List.flatMap_cons, List.flatMap_nil,
      List.append_nil, List.append_assoc, List.cons_append, List.nil_append, Option.getD_none]
    rw [partHeaders_line hne hdisp.1 hdisp.2 hadd, partHeaders_end]
  | some ct =>
    have hline := hlines (str "Content-Type: " ++ ct) (by simp [headerLines, hct])
    have hword : str "Content-Type: " ++ ct = str "Content-Type" ++ ':'.toUInt8 :: 32 :: ct := by
      have : str "Content-Type: " = str "Content-Type" ++ [':'.toUInt8, 32] := rfl
      simp [this]
    rw [hword] at hline
    simp only [Option.map_some, Option.toList_some, List.flatMap_cons, List.flatMap_nil, hword,
      List.append_nil, List.append_assoc, List.cons_append, List.nil_append, Option.getD_some]
    have hread := partHeaders_line (by simp) hline.1 hline.2
      (addHeader_contentType { formField := p.name, fileName := p.fileName.getD [] } ct)
      (CR :: LF :: (p.content ++ rest))
    simp only [List.append_assoc, List.cons_append] at hread
    rw [partHeaders_line hne hdisp.1 hdisp.2 hadd, hread, partHeaders_end]

end FormPart

/-! ## The content of a part -/

theorem IStream.read_append (a rest : Str) :
    (⟨a ++ rest, false⟩ : IStream).read a.length = (a, ⟨rest, false⟩) := by
  simp [IStream.read]

theorem marker_start {content : Str} (h : ¬ marker <:+: content) :
    ¬ marker <:+: 0 :: 0 :: 0 :: content := by
  have hmarker : marker = [CR, LF, '-'.toUInt8, '-'.toUInt8] := by decide
  have hCR : CR ≠ 0 := by decide
  simpa [hmarker, List.infix_cons_iff, hCR] using h

/-- A content without a marker is read up to the boundary, which is skipped with the two characters
behind it. -/
theorem mimeLoop_content (bnd : Str) {content : Str} (h : ¬ marker <:+: content) (x y : UInt8)
    (rest : Str) :
    mimeLoop bnd 0 0 0 [] ⟨content ++ (marker ++ (bnd ++ x :: y :: rest)), false⟩ =
      .ok (content, ⟨rest, false⟩) := by
  rw [← List.append_assoc, mimeLoop_marker bnd (marker_start h), IStream.read_append]
  simp [IStream.get]

theorem parseMimeData_content (req : HTTPServerRequest) (bnd : Str) {content : Str}
    (h : ¬ marker <:+: content) (hsize : content.length ≤ fileUploadMaxSize) (x y : UInt8)
    (rest fld fileName contentType : Str) :
    parseMimeData req ⟨content ++ (marker ++ (bnd ++ x :: y :: rest)), false⟩ fld fileName
        contentType bnd =
      .ok (if fileName = [] then { req with POST := req.POST.insert fld content }
        else { req with FILE := req.FILE ++ [⟨fld, fileName, contentType, content.length, content⟩] },
        ⟨rest, false⟩) := by
  rw [parseMimeData, mimeLoop_content bnd h]
  simp only [hsize, if_true]
  split <;> rfl

/-! ## The round trip -/

/-- A part as a form may have it: quotable names, and a content of at most 20 MiB that has no
boundary in it. -/
structure FormPart.Sendable (bnd : Str) (p : FormPart) : Prop where
  name : Quotable p.name
  fileName : ∀ f, p.fileName = some f → Quotable f
  content : ¬ marker ++ bnd <:+: p.content
  size : p.content.length ≤ fileUploadMaxSize

/-- A part as the server reads it: the names are not empty, every header line is read whole, the
type of a file has no blank around it, and no line break in the content is followed by two
dashes. -/
structure FormPart.Readable (p : FormPart) : Prop where
  name : p.name ≠ []
  fileName : p.fileName ≠ some []
  lines : ∀ line ∈ p.headerLines, CR ∉ line ∧ line.length < 1000
  contentType : p.fileName ≠ none → ∀ ct, p.contentType = some ct → Trimmed ct
  content : ¬ marker <:+: p.content

/-- The last content of the plain field of a name. -/
def lastContent (parts : List FormPart) (name : Str) : Option Str :=
  ((parts.filter fun p => p.fileName = none ∧ p.name = name).getLast?).map (·.content)

/-- The files, in order. -/
def uploads (parts : List FormPart) : List UploadedFile :=
  parts.filterMap fun p => p.fileName.map p.upload

/-- Every plain field is mapped to its last content, and every file is listed. -/
def RoundTrips (req : HTTPServerRequest) (bnd : Str) (parts : List FormPart) : Prop :=
  ∃ req', parseMultipartData req ⟨encodeParts bnd parts, false⟩ bnd = .ok req' ∧
    (∀ name, req'.POST[name]? = (lastContent parts name).or req.POST[name]?) ∧
    req'.FILE = req.FILE ++ uploads parts

/-- What a part leaves in the request. -/
def FormPart.store (req : HTTPServerRequest) (p : FormPart) : HTTPServerRequest :=
  match p.fileName with
  | none => { req with POST := req.POST.insert p.name p.content }
  | some f => { req with FILE := req.FILE ++ [p.upload f] }

theorem store_POST (parts : List FormPart) (req : HTTPServerRequest) (name : Str) :
    (parts.foldl FormPart.store req).POST[name]? =
      (lastContent parts name).or req.POST[name]? := by
  induction parts using List.reverseRecOn with
  | nil => simp [lastContent]
  | append_singleton parts p ih =>
    rw [List.foldl_append, List.foldl_cons, List.foldl_nil, FormPart.store]
    cases hf : p.fileName with
    | some f =>
      have hlast : lastContent (parts ++ [p]) name = lastContent parts name := by
        simp [lastContent, hf]
      rw [hlast]
      exact ih
    | none =>
      by_cases hname : p.name = name
      · simp [lastContent, hf, hname]
      · have hlast : lastContent (parts ++ [p]) name = lastContent parts name := by
          simp [lastContent, hname]
        rw [hlast, ← ih]
        simp [Std.ExtTreeMap.getElem?_insert, hname]

theorem store_FILE (parts : List FormPart) (req : HTTPServerRequest) :
    (parts.foldl FormPart.store req).FILE = req.FILE ++ uploads parts := by
  induction parts generalizing req with
  | nil => simp [uploads]
  | cons p parts ih =>
    rw [List.foldl_cons, ih, FormPart.store]
    cases hf : p.fileName <;> simp [uploads, hf]

/-- One turn of the loop: the header and the content of a part, and the boundary behind it. -/
theorem multipartLoop_encode (bnd : Str) {p : FormPart} (hs : p.Sendable bnd)
    (hlines : ∀ line ∈ p.headerLines, CR ∉ line ∧ line.length < 1000)
    (hcontent : ¬ marker <:+: p.content) (hname : p.name ≠ []) (req : HTTPServerRequest)
    (x y : UInt8) (rest : Str) :
    multipartLoop bnd req ⟨p.encode ++ (marker ++ (bnd ++ x :: y :: rest)), false⟩ =
      multipartLoop bnd
        (if p.header.fileName = [] then { req with POST := req.POST.insert p.name p.content }
          else { req with
            FILE := req.FILE ++
              [⟨p.name, p.header.fileName, p.header.contentType, p.content.length, p.content⟩] })
        ⟨rest, false⟩ :=
  multipartLoop_part (p.partHeaders_encode hs.name hs.fileName hlines _) hname
    (parseMimeData_content req bnd hcontent hs.size x y rest _ _ _)

theorem multipartLoop_store (bnd : Str) {p : FormPart} (hs : p.Sendable bnd) (hr : p.Readable)
    (req : HTTPServerRequest) (x y : UInt8) (rest : Str) :
    multipartLoop bnd req ⟨p.encode ++ (marker ++ (bnd ++ x :: y :: rest)), false⟩ =
      multipartLoop bnd (p.store req) ⟨rest, false⟩ := by
  rw [multipartLoop_encode bnd hs hr.lines hr.content hr.name]
  congr 1
  unfold FormPart.store FormPart.header FormPart.upload
  cases hf : p.fileName with
  | none => simp
  | some f =>
    have hne : f ≠ [] := fun he => hr.fileName (by rw [hf, he])
    cases hct : p.contentType with
    | none => simp [hne]
    | some ct => simp [hne, (hr.contentType (by simp [hf]) ct hct).trim_eq]

theorem behindBoundary_eq (bnd : Str) (parts : List FormPart) :
    ∃ x y, behindBoundary bnd parts = x :: y :: (behindBoundary bnd parts).drop 2 := by
  cases parts with
  | nil => exact ⟨45, 45, rfl⟩
  | cons p ps => exact ⟨CR, LF, rfl⟩

/-- **All parts are read**, and the line break behind the last boundary ends the loop. -/
theorem multipartLoop_parts (bnd : Str) (parts : List FormPart)
    (h : ∀ p ∈ parts, p.Sendable bnd ∧ p.Readable) (req : HTTPServerRequest) :
    multipartLoop bnd req ⟨(behindBoundary bnd parts).drop 2, false⟩ =
      .ok (parts.foldl FormPart.store req) := by
  induction parts generalizing req with
  | nil =>
    have hrest : (behindBoundary bnd []).drop 2 = [CR, LF] := rfl
    rw [hrest]
    exact multipartLoop_end (partHeaders_end {} []) rfl req
  | cons p ps ih =>
    obtain ⟨hs, hr⟩ := h p List.mem_cons_self
    obtain ⟨x, y, hxy⟩ := behindBoundary_eq bnd ps
    have hrest : (behindBoundary bnd (p :: ps)).drop 2 =
        p.encode ++ (marker ++ (bnd ++ behindBoundary bnd ps)) := rfl
    rw [hrest, hxy, multipartLoop_store bnd hs hr,
      ih fun q hq => h q (List.mem_cons_of_mem _ hq)]
    rfl

/-- The first line is the boundary with what of the dashes behind it the count allows. -/
theorem compareAt_boundary (bnd t : Str) :
    compareAt (str "--" ++ bnd ++ t) 2 bnd.length bnd = .ok true := by
  have hlen : (str "--").length = 2 := by decide
  have hdrop : (str "--" ++ bnd ++ t).drop 2 = bnd ++ t := by
    rw [List.append_assoc]
    exact List.drop_left' hlen
  rw [compareAt, if_neg (by simp only [List.length_append, hlen]; omega), hdrop, List.take_left]
  simp

/-- Behind the last of the text there are no headers. -/
theorem partHeaders_nothing : ∃ strm, partHeaders ⟨[], false⟩ {} = .ok ({}, strm) := by
  have hline : getNextLine ⟨[], false⟩ = ([255], ⟨[], true⟩) := rfl
  have hadd : Part.addHeader {} [255] = .ok {} := rfl
  have hline' : getNextLine ⟨[], true⟩ = ([], ⟨[], true⟩) := rfl
  refine ⟨⟨[], true⟩, ?_⟩
  rw [partHeaders, dif_neg (by rw [hline]; simp)]
  simp only [hline, hadd]
  rw [partHeaders, dif_pos (by rw [hline']), hline']

theorem boundaryLine {bnd : Str} (hCR : CR ∉ bnd) :
    CR ∉ str "--" ++ bnd ∧ (str "--" ++ bnd).length = 2 + bnd.length ∧ str "--" ++ bnd ≠ [] := by
  have hdash : CR ∉ str "--" := by decide
  have hne : str "--" ≠ [] := by decide
  refine ⟨by simp [hdash, hCR], ?_, by simp [hne]⟩
  rw [List.length_append]
  rfl

/-- A body without parts is its last boundary; the count may end within the dashes behind it. -/
theorem parseMultipartData_nil {bnd : Str} (hCR : CR ∉ bnd) (hlen : bnd.length ≤ 997)
    (req : HTTPServerRequest) :
    parseMultipartData req ⟨encodeParts bnd [], false⟩ bnd = .ok req := by
  obtain ⟨hdash, hlen', -⟩ := boundaryLine hCR
  obtain ⟨n, hn⟩ : ∃ n, 1000 = (str "--" ++ bnd).length + (n + 1) := ⟨997 - bnd.length, by omega⟩
  obtain ⟨strm, hend⟩ := partHeaders_nothing
  -- the first line, what is left behind it, and that this is no header
  obtain ⟨t, rest, hline, hrest⟩ : ∃ t rest,
      getNextLine ⟨encodeParts bnd [], false⟩ = (str "--" ++ bnd ++ t, ⟨rest, false⟩) ∧
        ∃ strm, partHeaders ⟨rest, false⟩ {} = .ok ({}, strm) := by
    rw [encodeParts_eq, behindBoundary, getNextLine, hn, getNextLineLoop_chars hdash]
    match n with
    | 0 =>
      have hpart := @partHeaders_line (str "-") (by decide) (by decide) (by decide) {} {} rfl []
      exact ⟨str "-", str "-\r\n",
        @getNextLineLoop_chars (str "-") (by decide) 0 _ (str "-\r\n"), strm, hpart.trans hend⟩
    | 1 =>
      exact ⟨str "--", [CR, LF], @getNextLineLoop_chars (str "--") (by decide) 0 _ [CR, LF], _,
        partHeaders_end {} []⟩
    | n + 2 =>
      have hchars := @getNextLineLoop_chars (str "--") (by decide) (n + 1)
        ([] ++ (str "--" ++ bnd)) [CR, LF]
      rw [show (str "--").length + (n + 1) = n + 2 + 1 by simp [str]; omega] at hchars
      refine ⟨str "--", [], hchars.trans ?_, strm, hend⟩
      simp [getNextLineLoop, IStream.get]
  have hne : str "--" ++ bnd ++ t ≠ [] := by
    have : str "--" ≠ [] := by decide
    simp [this]
  obtain ⟨strm, hpart⟩ := hrest
  rw [parseMultipartData, hline]
  simp only [hne, if_false, compareAt_boundary]
  exact multipartLoop_end hpart rfl req

/-- Behind the first boundary the loop over the parts begins. -/
theorem parseMultipartData_cons {bnd : Str} (hCR : CR ∉ bnd) (hlen : bnd.length ≤ 997)
    (p : FormPart) (ps : List FormPart) (req : HTTPServerRequest) :
    parseMultipartData req ⟨encodeParts bnd (p :: ps), false⟩ bnd =
      multipartLoop bnd req ⟨(behindBoundary bnd (p :: ps)).drop 2, false⟩ := by
  obtain ⟨hdash, hlen', hne⟩ := boundaryLine hCR
  have hline : getNextLine ⟨encodeParts bnd (p :: ps), false⟩ =
      (str "--" ++ bnd, ⟨(behindBoundary bnd (p :: ps)).drop 2, false⟩) := by
    rw [encodeParts_eq]
    exact getNextLine_line hdash (by omega) _
  have hcompare : compareAt (str "--" ++ bnd) 2 bnd.length bnd = .ok true := by
    simpa using compareAt_boundary bnd []
  rw [parseMultipartData, hline]
  simp only [hne, if_false, hcompare]

/-- **Multipart bodies are read back**, with every field, every file and every content as it was. -/
theorem multipart_roundTrip {bnd : Str} (hCR : CR ∉ bnd) (hlen : bnd.length ≤ 997)
    {parts : List FormPart} (h : ∀ p ∈ parts, p.Sendable bnd ∧ p.Readable)
    (req : HTTPServerRequest) : RoundTrips req bnd parts := by
  refine ⟨parts.foldl FormPart.store req, ?_, fun name => store_POST parts req name,
    store_FILE parts req⟩
  cases parts with
  | nil => exact parseMultipartData_nil hCR hlen req
  | cons p ps => rw [parseMultipartData_cons hCR hlen, multipartLoop_parts bnd _ h]

instance (s : Str) : Decidable (Quotable s) :=
  inferInstanceAs (Decidable (∀ c ∈ s, c ≠ quote ∧ c ≠ CR ∧ c ≠ LF))

instance (v : Str) : Decidable (Trimmed v) :=
  inferInstanceAs (Decidable
    (v ≠ [] ∧ (∀ c ∈ v.head?, c ∉ trimChars) ∧ ∀ c ∈ v.getLast?, c ∉ trimChars))

instance (bnd : Str) (p : FormPart) : Decidable (p.Sendable bnd) :=
  decidable_of_iff (Quotable p.name ∧ (∀ f ∈ p.fileName, Quotable f) ∧
      ¬ marker ++ bnd <:+: p.content ∧ p.content.length ≤ fileUploadMaxSize)
    ⟨fun h => ⟨h.1, h.2.1, h.2.2.1, h.2.2.2⟩, fun h => ⟨h.name, h.fileName, h.content, h.size⟩⟩

instance (p : FormPart) : Decidable p.Readable :=
  decidable_of_iff (p.name ≠ [] ∧ p.fileName ≠ some [] ∧
      (∀ line ∈ p.headerLines, CR ∉ line ∧ line.length < 1000) ∧
      (p.fileName ≠ none → ∀ ct ∈ p.contentType, Trimmed ct) ∧ ¬ marker <:+: p.content)
    ⟨fun h => ⟨h.1, h.2.1, h.2.2.1, h.2.2.2.1, h.2.2.2.2⟩,
      fun h => ⟨h.name, h.fileName, h.lines, h.contentType, h.content⟩⟩

/-- A field given twice, and a file that is not text. -/
def profileForm : List FormPart :=
  [⟨str "nick", none, none, str "one"⟩,
    ⟨str "photo", some (str "me.png"), some (str "image/png"), [0, 13, 10, 45, 13, 255]⟩,
    ⟨str "nick", none, some (str " text/plain"), str "--two\r\n-"⟩]

theorem profileForm_roundTrip :
    lastContent profileForm (str "nick") = some (str "--two\r\n-") ∧
      RoundTrips .init (str "--x--") profileForm :=
  ⟨by decide, multipart_roundTrip (by decide) (by decide) (by decide +kernel) .init⟩

/-! ## What is not read back -/

theorem not_roundTrips {req req' : HTTPServerRequest} {bnd : Str} {parts : List FormPart}
    (h : parseMultipartData req ⟨encodeParts bnd parts, false⟩ bnd = .ok req')
    (hne : (∃ name, req'.POST[name]? ≠ (lastContent parts name).or req.POST[name]?) ∨
      req'.FILE ≠ req.FILE ++ uploads parts) : ¬ RoundTrips req bnd parts := by
  rintro ⟨req'', h', hPOST, hFILE⟩
  obtain rfl : req' = req'' := Except.ok.inj (h.symm.trans h')
  rcases hne with ⟨name, hne⟩ | hne
  · exact hne (hPOST name)
  · exact hne hFILE

/-- **A marker that no boundary follows is dropped**, with as many characters as a boundary has. -/
theorem mimeLoop_lookAlike {bnd before w after : Str} (hbefore : ¬ marker <:+: before)
    (hlen : w.length = bnd.length) (hw : w ≠ bnd) (hafter : ¬ marker <:+: after) (x y : UInt8)
    (rest : Str) :
    mimeLoop bnd 0 0 0 []
        ⟨before ++ (marker ++ (w ++ (after ++ (marker ++ (bnd ++ x :: y :: rest))))), false⟩ =
      .ok (before ++ after, ⟨rest, false⟩) := by
  have hmarker : marker = [CR, LF, '-'.toUInt8, '-'.toUInt8] := by decide
  have hLF : CR ≠ LF := by decide
  have hdash : CR ≠ '-'.toUInt8 := by decide
  have hwindow : ¬ marker <:+: LF :: '-'.toUInt8 :: '-'.toUInt8 :: after := by
    simpa [hmarker, List.infix_cons_iff, hLF, hdash] using hafter
  rw [← List.append_assoc, mimeLoop_marker bnd (marker_start hbefore), ← hlen, IStream.read_append]
  simp only [hw, if_false]
  rw [← List.append_assoc after, mimeLoop_marker bnd hwindow, IStream.read_append]
  simp [IStream.get]

/-- A body of one part: the loop ends behind it. -/
theorem parseMultipartData_single {bnd : Str} (hCR : CR ∉ bnd) (hlen : bnd.length ≤ 997)
    {p : FormPart} (hs : p.Sendable bnd)
    (hlines : ∀ line ∈ p.headerLines, CR ∉ line ∧ line.length < 1000)
    (hcontent : ¬ marker <:+: p.content) (hname : p.name ≠ []) (req : HTTPServerRequest) :
    parseMultipartData req ⟨encodeParts bnd [p], false⟩ bnd =
      .ok (if p.header.fileName = [] then { req with POST := req.POST.insert p.name p.content }
        else { req with
          FILE := req.FILE ++
            [⟨p.name, p.header.fileName, p.header.contentType, p.content.length, p.content⟩] }) := by
  have hrest : (behindBoundary bnd [p]).drop 2 =
      p.encode ++ (marker ++ (bnd ++ 45 :: 45 :: [CR, LF])) := rfl
  rw [parseMultipartData_cons hCR hlen, hrest, multipartLoop_encode bnd hs hlines hcontent hname]
  exact multipartLoop_end (partHeaders_end {} []) rfl _

theorem quotable_field : Quotable (str "f") := by decide +kernel

theorem quotable_file : Quotable (str "a.txt") := by decide +kernel

theorem quotable_nil : Quotable [] := fun _ h => absurd h List.not_mem_nil

theorem quotable_some {s : Str} (h : Quotable s) : ∀ f, some s = some f → Quotable f :=
  fun _ hf => Option.some.inj hf ▸ h

/-- A part with a content that has no dashes. -/
theorem sendable_plain {name : Str} {fileName contentType : Option Str} (hname : Quotable name)
    (hfile : ∀ f, fileName = some f → Quotable f) :
    FormPart.Sendable (str "x") ⟨name, fileName, contentType, str "v"⟩ where
  name := hname
  fileName := hfile
  content := show ¬ marker ++ str "x" <:+: str "v" by decide
  size := show (str "v").length ≤ fileUploadMaxSize by decide

theorem dashedFile_sendable :
    FormPart.Sendable (str "x") ⟨str "f", some (str "a.txt"), none, str "a\r\n--b"⟩ :=
  ⟨quotable_field, quotable_some quotable_file, by decide, by decide⟩

/-- A file with a line that begins with two dashes. -/
theorem dashedFile_lost :
    ¬ RoundTrips .init (str "x") [⟨str "f", some (str "a.txt"), none, str "a\r\n--b"⟩] := by
  have hs := dashedFile_sendable
  have hpart := FormPart.partHeaders_encode _ hs.name hs.fileName (by decide)
    (marker ++ (str "x" ++ 45 :: 45 :: [CR, LF]))
  have hloop := @mimeLoop_lookAlike (str "x") (str "a") (str "b") [] (by decide) rfl (by decide)
    (by decide) 45 45 [CR, LF]
  have hmime : parseMimeData .init
      ⟨str "a\r\n--b" ++ (marker ++ (str "x" ++ 45 :: 45 :: [CR, LF])), false⟩
      (str "f") (str "a.txt") [] (str "x") =
      .ok ({ HTTPServerRequest.init with FILE := [⟨str "f", str "a.txt", [], 1, str "a"⟩] },
        ⟨[CR, LF], false⟩) := by
    have hread : str "a\r\n--b" ++ (marker ++ (str "x" ++ 45 :: 45 :: [CR, LF])) =
        str "a" ++ (marker ++ (str "b" ++ ([] ++ (marker ++ (str "x" ++ 45 :: 45 :: [CR, LF]))))) :=
      rfl
    rw [parseMimeData, hread, hloop]
    rfl
  refine @not_roundTrips .init
    { HTTPServerRequest.init with FILE := [⟨str "f", str "a.txt", [], 1, str "a"⟩] } _ _ ?_ (.inr ?_)
  · rw [parseMultipartData_cons (by decide) (by decide)]
    exact (multipartLoop_part hpart (by decide) hmime).trans
      (multipartLoop_end (partHeaders_end {} []) rfl _)
  · decide

/-- A field without a name ends the loop. -/
theorem nameless_lost : ¬ RoundTrips .init (str "x") [⟨[], none, none, str "v"⟩] := by
  have hs : FormPart.Sendable (str "x") ⟨[], none, none, str "v"⟩ :=
    sendable_plain quotable_nil nofun
  have hpart := FormPart.partHeaders_encode _ hs.name hs.fileName (by decide)
    (marker ++ (str "x" ++ 45 :: 45 :: [CR, LF]))
  refine @not_roundTrips .init .init _ _ ?_ (.inl ⟨[], ?_⟩)
  · rw [parseMultipartData_cons (by decide) (by decide)]
    exact multipartLoop_end hpart rfl _
  · decide

/-- A file without a name is a field. -/
theorem unnamedFile_lost : ¬ RoundTrips .init (str "x") [⟨str "f", some [], none, str "v"⟩] :=
  not_roundTrips
    (parseMultipartData_single (by decide) (by decide)
      (sendable_plain quotable_field (quotable_some quotable_nil)) (by decide +kernel)
      (by decide) (by decide) .init)
    (.inr (by decide))

/-- An empty content type is read as a blank. -/
theorem blankType_lost :
    ¬ RoundTrips .init (str "x") [⟨str "f", some (str "a.txt"), some [], str "v"⟩] :=
  not_roundTrips
    (parseMultipartData_single (by decide) (by decide)
      (sendable_plain quotable_field (quotable_some quotable_file)) (by decide +kernel)
      (by decide) (by decide) .init)
    (.inr (by decide))

/-- A content type with a line break is read up to it. -/
theorem brokenType_lost :
    ¬ RoundTrips .init (str "x")
      [⟨str "f", some (str "a.txt"), some (str "a\r\nb"), str "v"⟩] := by
  have hs : FormPart.Sendable (str "x")
      ⟨str "f", some (str "a.txt"), some (str "a\r\nb"), str "v"⟩ :=
    sendable_plain quotable_field (quotable_some quotable_file)
  have hdisp := @partHeaders_line
    (FormPart.disposition ⟨str "f", some (str "a.txt"), none, []⟩) (by decide)
    (by decide) (by decide) {} _
    (FormPart.addHeader_own ⟨str "f", some (str "a.txt"), none, []⟩ hs.name hs.fileName)
  have htype := @partHeaders_line (str "Content-Type: a") (by decide) (by decide) (by decide)
    ⟨str "f", str "a.txt", [], []⟩ _ (addHeader_contentType _ (str "a"))
  have hrest := @partHeaders_line (str "b") (by decide) (by decide) (by decide)
    ⟨str "f", str "a.txt", trim (str " a"), []⟩ _ rfl
  have hpart := (hdisp _).trans ((htype _).trans ((hrest _).trans (partHeaders_end _
    (str "v" ++ (marker ++ (str "x" ++ 45 :: 45 :: [CR, LF]))))))
  refine @not_roundTrips .init
    { HTTPServerRequest.init with FILE := [⟨str "f", str "a.txt", str "a", 1, str "v"⟩] } _ _ ?_ (.inr ?_)
  · rw [parseMultipartData_cons (by decide) (by decide)]
    exact (multipartLoop_part hpart (by decide)
      (parseMimeData_content .init (str "x") (by decide) (by decide) 45 45 [CR, LF] _ _ _)).trans
      (multipartLoop_end (partHeaders_end {} []) rfl _)
  · decide

/-- Of a boundary of 998 characters the line break is left, and read as the end of the headers. -/
theorem longBoundary_lost :
    ¬ RoundTrips .init (List.replicate 998 120) [⟨str "f", none, none, str "v"⟩] := by
  have hCR : CR ∉ List.replicate 998 (120 : UInt8) := fun h =>
    absurd (List.eq_of_mem_replicate h) (by decide)
  obtain ⟨hdash, hlen, hne⟩ := boundaryLine hCR
  have hline := getNextLine_full hdash (by rw [hlen, List.length_replicate])
    (behindBoundary (List.replicate 998 120) [⟨str "f", none, none, str "v"⟩])
  have hcompare := compareAt_boundary (List.replicate 998 120) []
  rw [List.append_nil] at hcompare
  refine @not_roundTrips .init .init _ _ ?_ (.inl ⟨str "f", ?_⟩)
  · rw [parseMultipartData, encodeParts_eq, hline]
    simp only [hne, if_false, hcompare]
    exact multipartLoop_end (partHeaders_end {} _) rfl _
  · decide

/-- A boundary with a line break is not found on the first line. -/
theorem brokenBoundary_lost : ¬ RoundTrips .init [CR, LF] [⟨str "f", none, none, str "v"⟩] := by
  have hline := @getNextLine_line (str "--") (by decide) (by decide)
    (behindBoundary [CR, LF] [⟨str "f", none, none, str "v"⟩])
  refine @not_roundTrips .init .init _ _ ?_ (.inl ⟨str "f", ?_⟩)
  · have hread : encodeParts [CR, LF] [⟨str "f", none, none, str "v"⟩] =
        str "--" ++ CR :: LF :: behindBoundary [CR, LF] [⟨str "f", none, none, str "v"⟩] := rfl
    have hcompare : compareAt (str "--") 2 2 [CR, LF] = .ok false := rfl
    rw [parseMultipartData, hread, hline]
    simp only [List.length_cons, List.length_nil, hcompare]
    rfl
  · decide

theorem longName_sendable :
    FormPart.Sendable (str "x") ⟨List.replicate 961 97, none, none, str "v"⟩ where
  name c hc := by
    rw [List.eq_of_mem_replicate hc]
    decide
  fileName := nofun
  content := by decide
  size := by decide

/-- Of a header line of 1000 characters the line break is left, and read as the end of the
headers. -/
theorem longName_lost :
    ¬ RoundTrips .init (str "x") [⟨List.replicate 961 97, none, none, str "v"⟩] := by
  have hs := longName_sendable
  have hpart := @partHeaders_full
    (FormPart.disposition ⟨List.replicate 961 97, none, none, str "v"⟩) (by decide +kernel)
    (by decide +kernel) {} _ (FormPart.addHeader_own _ hs.name hs.fileName)
    (str "\r\nv" ++ (marker ++ (str "x" ++ 45 :: 45 :: [CR, LF])))
  have hread : (behindBoundary (str "x") [⟨List.replicate 961 97, none, none, str "v"⟩]).drop 2 =
      FormPart.disposition ⟨List.replicate 961 97, none, none, str "v"⟩ ++ CR :: LF ::
        (str "\r\nv" ++ (marker ++ (str "x" ++ 45 :: 45 :: [CR, LF]))) := by
    decide +kernel
  refine @not_roundTrips .init { HTTPServerRequest.init with
    POST := HTTPServerRequest.init.POST.insert (List.replicate 961 97) (str "\r\nv") } _ _ ?_
    (.inl ⟨List.replicate 961 97, ?_⟩)
  · have hname : List.replicate 961 (97 : UInt8) ≠ [] := by decide
    rw [parseMultipartData_cons (by decide) (by decide), hread]
    exact (multipartLoop_part hpart hname
      (parseMimeData_content .init (str "x") (by decide) (by decide) 45 45 [CR, LF] _ _ _)).trans
      (multipartLoop_end (partHeaders_end {} []) rfl _)
  · decide +kernel

/-- The forms above: dashes at the front of a line, no field name, no file name, an empty content
type, a line break in it, a header line and a boundary that are too long, and a boundary with a
line break. -/
def lostForms : List (Str × FormPart) :=
  [(str "x", ⟨str "f", some (str "a.txt"), none, str "a\r\n--b"⟩),
    (str "x", ⟨[], none, none, str "v"⟩),
    (str "x", ⟨str "f", some [], none, str "v"⟩),
    (str "x", ⟨str "f", some (str "a.txt"), some [], str "v"⟩),
    (str "x", ⟨str "f", some (str "a.txt"), some (str "a\r\nb"), str "v"⟩),
    (str "x", ⟨List.replicate 961 97, none, none, str "v"⟩),
    (List.replicate 998 120, ⟨str "f", none, none, str "v"⟩),
    ([CR, LF], ⟨str "f", none, none, str "v"⟩)]

/-- **Not every form is read back.** -/
theorem lostForms_lost :
    lostForms.Forall fun x => x.2.Sendable x.1 ∧ ¬ RoundTrips .init x.1 [x.2] := by
  refine List.forall_iff_forall_mem.mpr fun x hx => ?_
  simp only [lostForms, List.mem_cons, List.not_mem_nil, or_false] at hx
  rcases hx with rfl | rfl | rfl | rfl | rfl | rfl | rfl | rfl
  · exact ⟨dashedFile_sendable, dashedFile_lost⟩
  · exact ⟨sendable_plain quotable_nil nofun, nameless_lost⟩
  · exact ⟨sendable_plain quotable_field (quotable_some quotable_nil), unnamedFile_lost⟩
  · exact ⟨sendable_plain quotable_field (quotable_some quotable_file), blankType_lost⟩
  · exact ⟨sendable_plain quotable_field (quotable_some quotable_file), brokenType_lost⟩
  · exact ⟨longName_sendable, longName_lost⟩
  · exact ⟨by decide +kernel, longBoundary_lost⟩
  · exact ⟨by decide +kernel, brokenBoundary_lost⟩

end Wsrv.RequestParser
