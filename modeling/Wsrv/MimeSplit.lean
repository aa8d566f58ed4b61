import Wsrv.MailMessage
import Wsrv.Lib.Lines

/-!
# Multipart contents, taken apart

`MimeMultiPart::encode` writes its parts behind each other, each behind a line
with the boundary, and a part may be multipart itself.  A reader cuts the lines
at those that begin with the boundary and ends at the closing one; the line end
in front of such a line belongs to it.  Every part comes back whole, whatever its
content is (`multipart_recovered`), as long as no header line is empty and no
boundary is broken.
-/

namespace Wsrv

/-! ## Trees of parts -/

/-- `MimePart::addHeaderLine`. -/
def MimePart.addHeaderLine (p : MimePart) (line : Str) : MimePart :=
  { p with header := p.header ++ line ++ str "\r\n" }

/-- A part, and the lines that are added to its header. -/
structure HeadedPart where
  start : MimePart
  added : List Str
  fresh : start.header = []

def HeadedPart.part (h : HeadedPart) : MimePart := h.added.foldl MimePart.addHeaderLine h.start

/-- A part with a content, or a multipart one. -/
inductive MimeTree
  | leaf (h : HeadedPart)
  | multi (h : HeadedPart) (parts : List MimeTree)

namespace MimeTree

def head : MimeTree → HeadedPart
  | leaf h => h
  | multi h _ => h

mutual

/-- The virtual `encode()`. -/
def encode : MimeTree → Str
  | leaf h => h.part.content
  | multi h parts => encodeAll h.part.boundary parts

/-- `MimeMultiPart::encode`, from one of the parts on. -/
def encodeAll (boundary : Str) : List MimeTree → Str
  | [] => str "--" ++ boundary ++ str "--\r\n"
  | t :: parts =>
    str "--" ++ boundary ++ str "\r\n" ++ t.head.part.formatAs t.encode ++ encodeAll boundary parts

end

def format (t : MimeTree) : Str := t.head.part.formatAs t.encode

end MimeTree

/-! ## The header lines -/

/-- No line end in it. -/
def OneLine (s : Str) : Prop := CR ∉ s ∧ LF ∉ s

instance (s : Str) : Decidable (OneLine s) := inferInstanceAs (Decidable (_ ∧ _))

theorem OneLine.unbroken {s : Str} (h : OneLine s) : Lines.Unbroken CR LF s :=
  Lines.unbroken_of_not_mem h.2

/-- Nothing in front breaks a text. -/
theorem OneLine.unbroken_append {s : Str} (h : OneLine s) (t : Str) :
    Lines.Unbroken CR LF (s ++ t) ↔ Lines.Unbroken CR LF t :=
  Lines.unbroken_word_append (fun _ hx => ne_of_mem_of_not_mem hx h.1) t

theorem OneLine.append {s t : Str} (hs : OneLine s) (ht : OneLine t) : OneLine (s ++ t) :=
  ⟨fun hm => (List.mem_append.mp hm).elim hs.1 ht.1, fun hm => (List.mem_append.mp hm).elim hs.2 ht.2⟩

theorem OneLine.ite {s : Str} (p : Prop) [Decidable p] (hs : OneLine s) :
    OneLine (if p then s else []) := by
  split
  · exact hs
  · exact ⟨List.not_mem_nil, List.not_mem_nil⟩

namespace HeadedPart

variable (h : HeadedPart)

def encodingName : Encoding → Str
  | .sevenBit => str "7bit"
  | .eightBit => str "8bit"
  | .base64 => str "base64"
  | .quotedPrintable => str "quoted-printable"

def contentTypeLine : Str :=
  str "Content-Type: " ++ h.start.type ++
    (if h.start.name ≠ [] then str "; name=\"" ++ h.start.name ++ str "\"" else []) ++
    (if h.start.charset ≠ [] then str "; charset=" ++ h.start.charset else []) ++
    (if h.start.boundary ≠ [] then str "; boundary=" ++ h.start.boundary else [])

/-- The lines that `format` writes. -/
def headLines : List Str :=
  [h.contentTypeLine, str "Content-Transfer-Encoding: " ++ encodingName h.start.encoding] ++
    (if h.start.id ≠ [] then [str "Content-ID: <" ++ h.start.id ++ str ">"] else []) ++ h.added

/-- The strings of a header have no line end, and no line that is added is empty. -/
structure Clean : Prop where
  type : OneLine h.start.type
  name : OneLine h.start.name
  charset : OneLine h.start.charset
  boundary : Lines.Unbroken CR LF h.start.boundary
  id : OneLine h.start.id
  added : ∀ line ∈ h.added, line ≠ [] ∧ OneLine line

theorem foldl_addHeaderLine (p : MimePart) (lines : List Str) :
    lines.foldl MimePart.addHeaderLine p =
      { p with header := p.header ++ Lines.join CR LF lines } := by
  induction lines generalizing p with
  | nil => simp
  | cons line lines ih =>
    rw [List.foldl_cons, ih]
    simp [MimePart.addHeaderLine, str, CR, LF]

theorem part_eq : h.part = { h.start with header := Lines.join CR LF h.added } := by
  rw [part, foldl_addHeaderLine, h.fresh, List.nil_append]

/-- The header lines, an empty line and the content. -/
theorem formatAs_eq (encoded : Str) : h.part.formatAs encoded =
    Lines.join CR LF h.headLines ++ CR :: LF :: (encoded ++ [CR, LF]) := by
  have hend : str "\r\n" = [CR, LF] := by decide
  have hencoding : MimePart.encodingLine h.start.encoding =
      encodingName h.start.encoding ++ [CR, LF] := by
    cases h.start.encoding <;> rfl
  have hid : (if h.start.id ≠ [] then str "Content-ID: <" ++ h.start.id ++ str ">\r\n" else []) =
      Lines.join CR LF
        (if h.start.id ≠ [] then [str "Content-ID: <" ++ h.start.id ++ str ">"] else []) := by
    have hclose : str ">\r\n" = str ">" ++ [CR, LF] := by decide
    split
    · rw [hclose]
      simp
    · rfl
  rw [part_eq, MimePart.formatAs]
  simp only [hid, hencoding, hend]
  simp [headLines, contentTypeLine, Lines.join]

variable {h}

theorem Clean.headLines (hclean : h.Clean) :
    ∀ line ∈ h.headLines, line ≠ [] ∧ Lines.Unbroken CR LF line := by
  have htype : Lines.Unbroken CR LF h.contentTypeLine := by
    have hfront : OneLine (str "Content-Type: " ++ h.start.type ++
        (if h.start.name ≠ [] then str "; name=\"" ++ h.start.name ++ str "\"" else []) ++
        (if h.start.charset ≠ [] then str "; charset=" ++ h.start.charset else [])) :=
      .append (.append (.append (by decide) hclean.type)
        (.ite _ (.append (.append (by decide) hclean.name) (by decide))))
        (.ite _ (.append (by decide) hclean.charset))
    rw [contentTypeLine, hfront.unbroken_append]
    split
    · rw [OneLine.unbroken_append (by decide)]
      exact hclean.boundary
    · exact Lines.unbroken_nil
  have hencoding : OneLine (str "Content-Transfer-Encoding: " ++ encodingName h.start.encoding) := by
    refine .append (by decide) ?_
    cases h.start.encoding <;> decide
  intro line hline
  simp only [HeadedPart.headLines, List.cons_append, List.nil_append, List.mem_cons, List.mem_append] at hline
  rcases hline with rfl | rfl | hline | hline
  · exact ⟨by simp [contentTypeLine, str], htype⟩
  · exact ⟨by simp [str], hencoding.unbroken⟩
  · split at hline
    · rw [List.mem_singleton.mp hline]
      have hid : OneLine (str "Content-ID: <" ++ h.start.id ++ str ">") :=
        .append (.append (by decide) hclean.id) (by decide)
      exact ⟨by simp [str], hid.unbroken⟩
    · simp at hline
  · exact ⟨(hclean.added line hline).1, (hclean.added line hline).2.unbroken⟩

end HeadedPart

/-! ## Reading -/

/-- What a reader finds: header lines and a content for each part, and what is around them. -/
structure Multipart where
  preamble : Str
  parts : List (List Str × Str)
  epilogue : Str
  deriving DecidableEq

namespace Multipart

/-- The lines in front of the first delimiter and those behind each delimiter, up to the closing
one, and the lines behind it. -/
def sections (boundary : Str) : List Str → Option (List (List Str) × List Str)
  | [] => none
  | line :: lines =>
    if str "--" ++ boundary ++ str "--" <+: line then some ([[]], lines)
    else if str "--" ++ boundary <+: line then
      (sections boundary lines).map fun r => ([] :: r.1, r.2)
    else (sections boundary lines).map fun r => (r.1.modifyHead (line :: ·), r.2)

/-- The header lines go up to the first empty line. -/
def readPart (lines : List Str) : Option (List Str × Str) :=
  match lines.dropWhile (· ≠ []) with
  | [] => none
  | _ :: content => some (lines.takeWhile (· ≠ []), [CR, LF].intercalate content)

/-- A multipart content by the rules for its delimiters. -/
def read (boundary s : Str) : Option Multipart :=
  match sections boundary (Lines.lines CR LF s) with
  | some (preamble :: parts, rest) =>
    (parts.mapM readPart).map fun parts =>
      ⟨[CR, LF].intercalate preamble, parts, [CR, LF].intercalate rest⟩
  | _ => none

/-- Lines that are no delimiters. -/
theorem sections_append {boundary : Str} {lines : List Str}
    (h : ∀ line ∈ lines, ¬ str "--" ++ boundary <+: line) {rest : List Str} {ss : List (List Str)}
    {s : List Str} {behind : List Str} (hrest : sections boundary rest = some (s :: ss, behind)) :
    sections boundary (lines ++ rest) = some ((lines ++ s) :: ss, behind) := by
  induction lines with
  | nil => exact hrest
  | cons line lines ih =>
    obtain ⟨hline, hlines⟩ := List.forall_mem_cons.mp h
    have hclosing : ¬ str "--" ++ boundary ++ str "--" <+: line := fun hc =>
      hline ((List.prefix_append _ _).trans hc)
    rw [List.cons_append, sections, if_neg hclosing, if_neg hline, ih hlines]
    rfl

theorem sections_delimiter (boundary : Str) (lines : List Str) :
    sections boundary ((str "--" ++ boundary) :: lines) =
      (sections boundary lines).map fun r => ([] :: r.1, r.2) := by
  have hclosing : ¬ str "--" ++ boundary ++ str "--" <+: str "--" ++ boundary := fun hc => by
    have := hc.length_le
    simp [str] at this
  rw [sections, if_neg hclosing, if_pos List.prefix_rfl]

/-- The header lines and the content of a part. -/
theorem readPart_lines {h : HeadedPart} (hclean : h.Clean) (content : Str) :
    readPart (Lines.lines CR LF (Lines.join CR LF h.headLines ++ CR :: LF :: content)) =
      some (h.headLines, content) := by
  have hne : ∀ line ∈ h.headLines, decide (line ≠ []) = true := fun line hline => by
    simpa using (hclean.headLines line hline).1
  have hlines : Lines.lines CR LF (Lines.join CR LF h.headLines ++ CR :: LF :: content) =
      h.headLines ++ [] :: Lines.lines CR LF content := by
    rw [Lines.lines_join_append (by decide) fun line hline => (hclean.headLines line hline).2]
    exact congrArg _ (Lines.lines_append (by decide) [] content)
  rw [hlines, readPart, List.dropWhile_append_of_pos hne, List.takeWhile_append_of_pos hne]
  simp [Lines.intercalate_lines]

end Multipart

/-! ## Recovering -/

namespace MimeTree

open Multipart

/-- At every level, what the strings of a header are, and that no boundary stands in a part. -/
inductive Separable : MimeTree → Prop
  | leaf {h : HeadedPart} (hclean : h.Clean) : Separable (.leaf h)
  | multi {h : HeadedPart} {parts : List MimeTree} (hclean : h.Clean)
      (hboundary : ∀ t ∈ parts, ¬ str "--" ++ h.start.boundary <:+: t.format)
      (hparts : ∀ t ∈ parts, Separable t) : Separable (.multi h parts)

/-- The parts, in order, and nothing in front of them or behind the closing delimiter. -/
def Reads (boundary : Str) (parts : List MimeTree) : Prop :=
  read boundary (encodeAll boundary parts) =
    some ⟨[], parts.map fun t => (t.head.headLines, t.encode), []⟩

/-- At every level, the parts are read. -/
inductive Recovered : MimeTree → Prop
  | leaf (h : HeadedPart) : Recovered (.leaf h)
  | multi {h : HeadedPart} {parts : List MimeTree} (hread : Reads h.start.boundary parts)
      (hparts : ∀ t ∈ parts, Recovered t) : Recovered (.multi h parts)

theorem Separable.clean {t : MimeTree} (ht : Separable t) : t.head.Clean := by
  cases ht with
  | leaf hclean => exact hclean
  | multi hclean => exact hclean

/-- The lines of a part. -/
def partLines (t : MimeTree) : List Str :=
  Lines.lines CR LF (Lines.join CR LF t.head.headLines ++ CR :: LF :: t.encode)

theorem partLines_not_delimiter {t : MimeTree} {boundary : Str}
    (h : ¬ str "--" ++ boundary <:+: t.format) :
    ∀ line ∈ t.partLines, ¬ str "--" ++ boundary <+: line := by
  intro line hline hdelimiter
  have hinside := hdelimiter.isInfix.trans (Lines.infix_of_mem_lines hline)
  refine h (hinside.trans ⟨[], [CR, LF], ?_⟩)
  rw [format, HeadedPart.formatAs_eq]
  simp

/-- The sections are the parts. -/
theorem sections_encodeAll {boundary : Str} (hboundary : Lines.Unbroken CR LF boundary) {parts : List MimeTree}
    (h : ∀ t ∈ parts, ¬ str "--" ++ boundary <:+: t.format) :
    sections boundary (Lines.lines CR LF (encodeAll boundary parts)) =
      some ([] :: parts.map partLines, [[]]) := by
  have hend : str "\r\n" = [CR, LF] := by decide
  have hdelimiter : Lines.Unbroken CR LF (str "--" ++ boundary) :=
    (OneLine.unbroken_append (by decide) boundary).mpr hboundary
  induction parts with
  | nil =>
    have htext : encodeAll boundary [] = (str "--" ++ boundary ++ str "--") ++ CR :: LF :: [] := by
      have hclose : str "--\r\n" = str "--" ++ [CR, LF] := by decide
      rw [encodeAll, hclose]
      simp
    have hclosing : Lines.Unbroken CR LF (str "--" ++ boundary ++ str "--") :=
      (Lines.unbroken_append_cons (by decide)).mpr ⟨hdelimiter, by decide⟩
    rw [htext, Lines.lines_append (by decide), Lines.lines_of_unbroken hclosing, List.singleton_append,
      sections, if_pos List.prefix_rfl]
    rfl
  | cons t parts ih =>
    obtain ⟨ht, hparts⟩ := List.forall_mem_cons.mp h
    have htext : encodeAll boundary (t :: parts) = (str "--" ++ boundary) ++ CR :: LF ::
        ((Lines.join CR LF t.head.headLines ++ CR :: LF :: t.encode) ++
          CR :: LF :: encodeAll boundary parts) := by
      rw [encodeAll, HeadedPart.formatAs_eq, hend]
      simp
    have hsections := sections_append (partLines_not_delimiter ht) (ih hparts)
    rw [partLines] at hsections
    rw [htext, Lines.lines_append (by decide), Lines.lines_of_unbroken hdelimiter,
      Lines.lines_append (by decide), List.singleton_append, sections_delimiter, hsections,
      List.append_nil]
    rfl

/-- One level. -/
theorem reads_encodeAll {boundary : Str} (hboundary : Lines.Unbroken CR LF boundary) {parts : List MimeTree}
    (hclean : ∀ t ∈ parts, t.head.Clean) (h : ∀ t ∈ parts, ¬ str "--" ++ boundary <:+: t.format) :
    Reads boundary parts := by
  have hparts : (parts.map partLines).mapM readPart =
      some (parts.map fun t => (t.head.headLines, t.encode)) := by
    induction parts with
    | nil => rfl
    | cons t parts ih =>
      obtain ⟨ht, hrest⟩ := List.forall_mem_cons.mp hclean
      rw [List.map_cons, List.mapM_cons, partLines, readPart_lines ht,
        ih hrest fun t' ht' => h t' (List.mem_cons_of_mem _ ht')]
      rfl
  unfold Reads Multipart.read
  rw [sections_encodeAll hboundary h]
  simp [hparts]

theorem Separable.recovered {t : MimeTree} (ht : Separable t) : Recovered t := by
  induction ht with
  | leaf => exact .leaf _
  | multi hclean hboundary hparts ih =>
    exact .multi (reads_encodeAll hclean.boundary (fun t ht => (hparts t ht).clean) hboundary) ih

/-- The parts of a mail are leaves. -/
theorem encodeAll_leaves (boundary : Str) (parts : List HeadedPart) :
    encodeAll boundary (parts.map leaf) = MimePart.encodeParts boundary (parts.map HeadedPart.part) := by
  induction parts with
  | nil => rfl
  | cons h parts ih =>
    rw [List.map_cons, encodeAll, ih]
    simp [MimePart.encodeParts, MimePart.format, head, encode]

/-- The parts that are written into a mail are read from it. -/
theorem encodeParts_recovered {boundary : Str} (hboundary : Lines.Unbroken CR LF boundary)
    {parts : List HeadedPart} (hclean : ∀ p ∈ parts, p.Clean)
    (h : ∀ p ∈ parts, ¬ str "--" ++ boundary <:+: p.part.format) :
    read boundary (MimePart.encodeParts boundary (parts.map HeadedPart.part)) =
      some ⟨[], parts.map fun p => (p.headLines, p.part.content), []⟩ := by
  have hread : Reads boundary (parts.map leaf) :=
    reads_encodeAll hboundary (List.forall_mem_map.mpr hclean) (List.forall_mem_map.mpr h)
  rw [← encodeAll_leaves, hread, List.map_map]
  rfl

/-- **A multipart content comes apart into its parts**, and so do those of them that are multipart. -/
theorem multipart_recovered {boundary : Str} (hboundary : Lines.Unbroken CR LF boundary) {parts : List MimeTree}
    (hclean : ∀ t ∈ parts, t.head.Clean) (h : ∀ t ∈ parts, ¬ str "--" ++ boundary <:+: t.format) :
    Reads boundary parts ∧ ∀ t ∈ parts, Separable t → Recovered t :=
  ⟨reads_encodeAll hboundary hclean h, fun _ _ ht => ht.recovered⟩

/-- A text, and a multipart with an empty text in it. -/
def plainPart (content : Str) (added : List Str) : HeadedPart :=
  ⟨{ type := str "text/plain", encoding := .eightBit, content := content }, added, rfl⟩

def innerPart : HeadedPart :=
  ⟨{ type := str "multipart/mixed", encoding := .eightBit, boundary := str "in" }, [], rfl⟩

theorem plainPart_clean {content : Str} {added : List Str}
    (h : ∀ line ∈ added, line ≠ [] ∧ OneLine line) : (plainPart content added).Clean :=
  have hnil : OneLine [] := by decide
  ⟨show OneLine (str "text/plain") by decide, hnil, hnil, Lines.unbroken_nil, hnil, h⟩

theorem nested_recovered :
    Reads (str "out") [leaf (plainPart (str "a\r\n") [str "X-A: b"]), multi innerPart [leaf (plainPart [] [])]] ∧
      ∀ t ∈ [leaf (plainPart (str "a\r\n") [str "X-A: b"]), multi innerPart [leaf (plainPart [] [])]],
        Recovered t := by
  have hseparable : ∀ t ∈ [leaf (plainPart (str "a\r\n") [str "X-A: b"]),
      multi innerPart [leaf (plainPart [] [])]], Separable t := by
    rw [List.forall_mem_cons, List.forall_mem_singleton]
    exact ⟨.leaf (plainPart_clean (by decide)),
      .multi ⟨by decide, by decide, by decide, by decide, by decide, by simp [innerPart]⟩
        (List.forall_mem_singleton.mpr (by decide +kernel))
        (List.forall_mem_singleton.mpr (.leaf (plainPart_clean (by simp))))⟩
  have hboundary : ∀ t ∈ [leaf (plainPart (str "a\r\n") [str "X-A: b"]),
      multi innerPart [leaf (plainPart [] [])]], ¬ str "--" ++ str "out" <:+: t.format := by
    rw [List.forall_mem_cons, List.forall_mem_singleton]
    exact ⟨by decide +kernel, by decide +kernel⟩
  obtain ⟨hread, hparts⟩ :=
    multipart_recovered (by decide) (fun t ht => (hseparable t ht).clean) hboundary
  exact ⟨hread, fun t ht => hparts t ht (hseparable t ht)⟩

/-- An empty header line ends the header, and the rest of it is read as content; a boundary with a
line end in it is found nowhere. -/
theorem emptyLine_misread :
    (¬ str "--x" <:+: (leaf (plainPart (str "a") [[]])).format ∧
      ¬ Reads (str "x") [leaf (plainPart (str "a") [[]])]) ∧
    ¬ str "--x\r\ny" <:+: (leaf (plainPart (str "a") [])).format ∧
      ¬ Reads (str "x\r\ny") [leaf (plainPart (str "a") [])] := by
  unfold Reads
  decide +kernel

end MimeTree

end Wsrv
