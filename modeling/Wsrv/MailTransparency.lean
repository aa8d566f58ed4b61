import Wsrv.MailSubmit
import Wsrv.Base64
import Wsrv.Lib.Lines

/-!
# The text of a mail on its way

A server reads what follows `DATA` line by line up to a line that is a single
dot, and takes a dot away from every line that starts with one.  `submit` puts
no dot there.  So the text arrives exactly when no line of it starts with a dot
(`Lines.readBlock_iff`), and the text of a mail has such a line exactly when one
of the strings it is made of brings it (`mail_transparent_iff`).
-/

namespace Wsrv.MailTransparency

open SMTPMailer

def DOT : UInt8 := '.'.toUInt8

/-! ## Walking over the text -/

/-- No line starts with a dot. -/
def Dotless (s : Str) : Prop := (Lines.walk CR LF DOT .start s).isSome

/-- No line but the first starts with a dot. -/
def Undotted (s : Str) : Prop := ¬ [CR, LF, DOT] <:+: s

instance (s : Str) : Decidable (Undotted s) := inferInstanceAs (Decidable (¬ _))

theorem cr_ne_lf : CR ≠ LF := by decide

theorem cr_ne_dot : CR ≠ DOT := by decide

theorem undotted_iff (s : Str) : Undotted s ↔ (Lines.walk CR LF DOT .inside s).isSome :=
  (Lines.walk_isSome_iff cr_ne_lf cr_ne_dot s).1.symm

theorem dotless_iff (s : Str) : Dotless s ↔ ¬ [DOT] <+: s ∧ Undotted s :=
  (Lines.walk_isSome_iff cr_ne_lf cr_ne_dot s).2.2

theorem dotless_nil : Dotless [] := rfl

theorem undotted_nil : Undotted [] := by simp [Undotted]

/-- A fixed text without line ends and dots. -/
structure Label (w : Str) : Prop where
  ne_nil : w ≠ []
  plain : ∀ x ∈ w, x ≠ CR ∧ x ≠ LF ∧ x ≠ DOT

theorem Label.walk {w : Str} (h : Label w) (p : Lines.Place) :
    Lines.walk CR LF DOT p w = some .inside := Lines.walk_word h.ne_nil h.plain p

theorem Label.dotless {w : Str} (h : Label w) (s : Str) : Dotless (w ++ s) ↔ Undotted s := by
  rw [Dotless, Lines.walk_append, h.walk, Option.bind_some, undotted_iff]

theorem Label.undotted {w : Str} (h : Label w) (s : Str) : Undotted (w ++ s) ↔ Undotted s := by
  rw [undotted_iff, Lines.walk_append, h.walk, Option.bind_some, undotted_iff]

theorem Label.between {w : Str} (h : Label w) (l r : Str) :
    Undotted (l ++ w ++ r) ↔ Undotted l ∧ Undotted r := by
  simp only [undotted_iff, List.append_assoc, Lines.walk_append]
  cases Lines.walk CR LF DOT .inside l with
  | none => simp
  | some p => simp [h.walk]

theorem Label.behind {w : Str} (h : Label w) (l : Str) : Undotted (l ++ w) ↔ Undotted l := by
  have hend := h.between l []
  simpa [Undotted] using hend

/-- An attribute that may be missing. -/
theorem Label.attribute {w : Str} (h : Label w) (l v : Str) :
    Undotted (l ++ if v ≠ [] then w ++ v else []) ↔ Undotted l ∧ Undotted v := by
  split
  · rw [← List.append_assoc, h.between]
  · rename_i hv
    rw [not_not.mp hv]
    simp [Undotted]

/-! ## Texts that end a line -/

/-- What is put behind starts a line. -/
def Whole (s : Str) : Prop := ∀ p, Lines.walk CR LF DOT .start s = some p → p = .start

theorem Whole.dotless {a : Str} (h : Whole a) (b : Str) : Dotless (a ++ b) ↔ Dotless a ∧ Dotless b := by
  unfold Dotless
  rw [Lines.walk_append]
  cases ha : Lines.walk CR LF DOT .start a with
  | none => simp
  | some p =>
    obtain rfl := h p ha
    simp

theorem whole_nil : Whole [] := fun _ h => (Option.some.inj h).symm

theorem whole_end (s : Str) : Whole (s ++ str "\r\n") := by
  intro p h
  rw [Lines.walk_append] at h
  obtain ⟨q, -, hq⟩ := Option.bind_eq_some_iff.mp h
  have hend : Lines.walk CR LF DOT q [CR, LF] = some .start :=
    Lines.walk_end cr_ne_lf cr_ne_dot q
  exact Option.some.inj (hq.symm.trans hend)

theorem Whole.append {a b : Str} (ha : Whole a) (hb : Whole b) : Whole (a ++ b) := by
  intro p h
  rw [Lines.walk_append] at h
  obtain ⟨q, hq, hp⟩ := Option.bind_eq_some_iff.mp h
  obtain rfl := ha q hq
  exact hb p hp

theorem Whole.ite {a b : Str} (p : Prop) [Decidable p] (ha : Whole a) (hb : Whole b) :
    Whole (if p then a else b) := by
  split
  · exact ha
  · exact hb

theorem dotless_end (s : Str) : Dotless (s ++ str "\r\n") ↔ Dotless s := by
  unfold Dotless
  rw [Lines.walk_append]
  cases Lines.walk CR LF DOT .start s with
  | none => rfl
  | some p =>
    have hend : Lines.walk CR LF DOT p (str "\r\n") = some .start :=
      Lines.walk_end cr_ne_lf cr_ne_dot p
    rw [Option.bind_some, hend]
    rfl

/-- A line of the header. -/
theorem Label.line {w : Str} (h : Label w) (s : Str) :
    Dotless (w ++ s ++ str "\r\n") ↔ Undotted s := by
  rw [dotless_end, h.dotless]

/-! ## The header -/

/-- Both strings of an address are undotted. -/
def UndottedAddress (a : MailAddress) : Prop := Undotted a.name ∧ Undotted a.address

instance (a : MailAddress) : Decidable (UndottedAddress a) := inferInstanceAs (Decidable (_ ∧ _))

theorem undotted_address (a : MailAddress) : Undotted a.format ↔ UndottedAddress a := by
  have hquote : Label (str "\"") := ⟨by decide, by decide +kernel⟩
  have hopen : Label (str "<") := ⟨by decide, by decide +kernel⟩
  have hspace : Label (str " ") := ⟨by decide, by decide +kernel⟩
  have hclose : Label (str ">") := ⟨by decide, by decide +kernel⟩
  have hname : Undotted (str "\"" ++ a.name ++ str "\"") ↔ Undotted a.name := by
    rw [hquote.behind, hquote.undotted]
  have haddr : Undotted (str "<" ++ a.address ++ str ">") ↔ Undotted a.address := by
    rw [hclose.behind, hopen.undotted]
  have hname_ne : str "\"" ++ a.name ++ str "\"" ≠ [] := by simp [str]
  have haddr_ne : str "<" ++ a.address ++ str ">" ≠ [] := by simp [str]
  unfold MailAddress.format UndottedAddress
  by_cases hn : a.name = [] <;> by_cases ha : a.address = []
  · simp [hn, ha, undotted_nil]
  · simp only [hn, ha, and_false, if_false, ne_eq, not_true_eq_false, not_false_eq_true, if_true,
      haddr, undotted_nil, true_and]
  · simp only [hn, ha, if_false, ne_eq, not_true_eq_false, not_false_eq_true, if_true,
      hname_ne, List.append_nil, hname, undotted_nil, and_true]
  · simp only [hn, ha, false_and, if_false, ne_eq, not_false_eq_true, if_true, hname_ne, haddr_ne]
    rw [← List.append_assoc, hspace.between, hname, haddr]

theorem undotted_addressList (l : List MailAddress) :
    Undotted (SMTPMessage.formatAddressList l) ↔ ∀ a ∈ l, UndottedAddress a := by
  have hspace : Label (str " ") := ⟨by decide, by decide +kernel⟩
  have hfold (l : List MailAddress) (res : Str) :
      Undotted (l.foldl (fun res address =>
          (if res ≠ [] then res ++ str " " else res) ++ address.format) res) ↔
        Undotted res ∧ ∀ a ∈ l, UndottedAddress a := by
    induction l generalizing res with
    | nil => simp
    | cons a l ih =>
      rw [List.foldl_cons, ih, List.forall_mem_cons, ← and_assoc]
      refine and_congr_left fun _ => ?_
      split
      · rw [hspace.between, undotted_address]
      · rename_i hres
        rw [not_not.mp hres, List.nil_append, undotted_address, and_iff_right undotted_nil]
  rw [SMTPMessage.formatAddressList, hfold, and_iff_right undotted_nil]

/-- A line of the header that may be missing. -/
theorem Label.lineIf {w : Str} (h : Label w) (p : Prop) [Decidable p] (s : Str) :
    Dotless (if p then [] else w ++ s ++ str "\r\n") ↔ (¬ p → Undotted s) := by
  split
  · rename_i hp
    simp [dotless_nil, hp]
  · rename_i hp
    rw [h.line, forall_prop_of_true hp]

theorem whole_lineIf (w : Str) (p : Prop) [Decidable p] (s : Str) :
    Whole (if p then [] else w ++ s ++ str "\r\n") := .ite p whole_nil (whole_end _)

theorem whole_header (m : SMTPMessage) : Whole m.formatHeader := whole_end _ |> fun hsubject =>
  ((((((whole_end _).append (whole_lineIf _ _ _)).append (whole_lineIf _ _ _)).append
    (whole_end _)).append (whole_lineIf _ _ _)).append (whole_lineIf _ _ _)).append hsubject

theorem dotless_header (m : SMTPMessage) :
    Dotless m.formatHeader ↔ UndottedAddress m.sentFrom ∧
      (m.sender.address ≠ [] → UndottedAddress m.sender) ∧
      (m.replyTo.address ≠ [] → UndottedAddress m.replyTo) ∧
      (∀ a ∈ m.recipients, UndottedAddress a) ∧ (∀ a ∈ m.ccRecipients, UndottedAddress a) ∧
      Undotted m.subject := by
  have hfrom : Label (str "From:") := ⟨by decide, by decide +kernel⟩
  have hsender : Label (str "Sender:") := ⟨by decide, by decide +kernel⟩
  have hreplyTo : Label (str "Reply-To:") := ⟨by decide, by decide +kernel⟩
  have hto : Label (str "To:") := ⟨by decide, by decide +kernel⟩
  have hcc : Label (str "Cc:") := ⟨by decide, by decide +kernel⟩
  have hbcc : Label (str "Bcc:") := ⟨by decide, by decide +kernel⟩
  have hsubject : Label (str "Subject:") := ⟨by decide, by decide +kernel⟩
  have w1 := whole_end (str "From:" ++ m.sentFrom.format)
  have w2 := w1.append (whole_lineIf (str "Sender:") (m.sender.address = []) m.sender.format)
  have w3 := w2.append (whole_lineIf (str "Reply-To:") (m.replyTo.address = []) m.replyTo.format)
  have w4 := w3.append (whole_end (str "To:" ++ SMTPMessage.formatAddressList m.recipients))
  have w5 := w4.append (whole_lineIf (str "Cc:") (m.ccRecipients = [])
    (SMTPMessage.formatAddressList m.ccRecipients))
  have w6 := w5.append (whole_lineIf (str "Bcc:") (m.bccRecipients = [])
    (SMTPMessage.formatAddressList m.recipients))
  unfold SMTPMessage.formatHeader SMTPMessage.formatSubject
  rw [w6.dotless, w5.dotless, w4.dotless, w3.dotless, w2.dotless, w1.dotless, hfrom.line,
    hsender.lineIf, hreplyTo.lineIf, hto.line, hcc.lineIf, hbcc.lineIf, hsubject.line]
  simp only [undotted_address, undotted_addressList]
  -- the hidden line repeats the recipients, and an empty list has none
  constructor
  · rintro ⟨⟨⟨⟨⟨⟨h1, h2⟩, h3⟩, h4⟩, h5⟩, -⟩, h7⟩
    refine ⟨h1, h2, h3, h4, fun a ha => h5 ?_ a ha, h7⟩
    exact List.ne_nil_of_mem ha
  · rintro ⟨h1, h2, h3, h4, h5, h7⟩
    exact ⟨⟨⟨⟨⟨⟨h1, h2⟩, h3⟩, h4⟩, fun _ => h5⟩, fun _ => h4⟩, h7⟩

/-! ## The content -/

theorem whole_formatAs (p : MimePart) (encoded : Str) : Whole (p.formatAs encoded) := whole_end _

/-- A part without the fields that the mails do not use. -/
theorem dotless_formatAs (p : MimePart) (encoded : Str) (hid : p.id = []) (hheader : p.header = []) :
    Dotless (p.formatAs encoded) ↔ Undotted p.type ∧ Undotted p.name ∧ Undotted p.charset ∧
      Undotted p.boundary ∧ Dotless encoded := by
  have htype : Label (str "Content-Type: ") := ⟨by decide, by decide +kernel⟩
  have hname : Label (str "; name=\"") := ⟨by decide, by decide +kernel⟩
  have hquote : Label (str "\"") := ⟨by decide, by decide +kernel⟩
  have hcharset : Label (str "; charset=") := ⟨by decide, by decide +kernel⟩
  have hboundary : Label (str "; boundary=") := ⟨by decide, by decide +kernel⟩
  have hencoding : Label (str "Content-Transfer-Encoding: ") := ⟨by decide, by decide +kernel⟩
  have hline : Undotted (MimePart.encodingLine p.encoding) := by
    unfold Undotted
    cases p.encoding <;> decide +kernel
  have hquoted (l : Str) : Undotted (l ++ if p.name ≠ [] then str "; name=\"" ++ p.name ++ str "\""
      else []) ↔ Undotted l ∧ Undotted p.name := by
    split
    · rw [← List.append_assoc, ← List.append_assoc, hquote.behind, hname.between]
    · rename_i hn
      simp [not_not.mp hn, undotted_nil]
  unfold MimePart.formatAs
  rw [hid, hheader, dotless_end, (whole_end _).dotless, dotless_end]
  simp only [ne_eq, not_true_eq_false, if_false, List.append_nil]
  rw [List.append_assoc _ (str "Content-Transfer-Encoding: "), (whole_end _).dotless, dotless_end,
    hencoding.dotless, and_iff_left hline, List.append_assoc, List.append_assoc, List.append_assoc,
    htype.dotless, ← List.append_assoc, ← List.append_assoc, hboundary.attribute,
    hcharset.attribute, hquoted]
  simp only [and_assoc]

theorem dotless_format (p : MimePart) (hid : p.id = []) (hheader : p.header = [])
    (hboundary : p.boundary = []) :
    Dotless p.format ↔ Undotted p.type ∧ Undotted p.name ∧ Undotted p.charset ∧
      Dotless p.content := by
  rw [MimePart.format, dotless_formatAs p _ hid hheader, hboundary, and_iff_right undotted_nil]

/-! ## Mails as they are composed -/

structure Attachment where
  data : Str
  fileName : Str
  mime : Str

/-- The arguments of the setters of a message. -/
structure Draft where
  subject : Str := []
  sender : MailAddress := {}
  sentFrom : MailAddress := {}
  replyTo : MailAddress := {}
  recipients : List MailAddress := []
  ccRecipients : List MailAddress := []
  bccRecipients : List MailAddress := []
  /-- The text, and whether it is HTML. -/
  body : Option (Str × Bool) := none
  attachments : List Attachment := []

/-- The message before its attachments. -/
def Draft.start (encodeBase64 : Str → Str) (d : Draft) : SMTPMessage :=
  let m : SMTPMessage :=
    { subject := d.subject, sender := d.sender, sentFrom := d.sentFrom, replyTo := d.replyTo
      recipients := d.recipients, ccRecipients := d.ccRecipients
      bccRecipients := d.bccRecipients }
  match d.body with
  | none => m
  | some (txt, isHtml) => m.setBody encodeBase64 txt isHtml

/-- The message. -/
def Draft.message (encodeBase64 : Str → Str) (d : Draft) : SMTPMessage :=
  d.attachments.foldl (fun m a => m.addAttachment encodeBase64 a.data a.fileName a.mime)
    (d.start encodeBase64)

theorem message_eq (encodeBase64 : Str → Str) (d : Draft) :
    d.message encodeBase64 = { d.start encodeBase64 with
      attachments := d.attachments.map fun a => .file encodeBase64 a.data a.fileName a.mime } := by
  have hfold (l : List Attachment) (m : SMTPMessage) :
      l.foldl (fun m a => m.addAttachment encodeBase64 a.data a.fileName a.mime) m = { m with
        attachments := m.attachments ++
          l.map fun a => .file encodeBase64 a.data a.fileName a.mime } := by
    induction l generalizing m with
    | nil => simp
    | cons a l ih =>
      rw [List.foldl_cons, ih]
      simp [SMTPMessage.addAttachment]
  rw [Draft.message, hfold]
  have hnone : (d.start encodeBase64).attachments = [] := by
    unfold Draft.start
    split <;> rfl
  rw [hnone, List.nil_append]

/-- **No string of a mail brings a line with a dot in front.**  The body has a line of its own, so
it must not start with a dot either. -/
structure Draft.Harmless (d : Draft) : Prop where
  sentFrom : UndottedAddress d.sentFrom
  sender : d.sender.address ≠ [] → UndottedAddress d.sender
  replyTo : d.replyTo.address ≠ [] → UndottedAddress d.replyTo
  recipients : ∀ a ∈ d.recipients, UndottedAddress a
  ccRecipients : ∀ a ∈ d.ccRecipients, UndottedAddress a
  subject : Undotted d.subject
  body : ∀ b ∈ d.body, ¬ [DOT] <+: b.1 ∧ Undotted b.1
  attachments : ∀ a ∈ d.attachments, Undotted a.mime ∧ Undotted a.fileName

/-- The characters of Base64, with the line feeds between its lines. -/
def base64Char (c : UInt8) : Bool :=
  isalnum c || (str "+/=\n").contains c

theorem dotless_of_not_mem {s : Str} (h : DOT ∉ s) : Dotless s := by
  refine (dotless_iff s).mpr ⟨fun hp => h (hp.subset (by simp)), fun hi => h (hi.subset (by simp))⟩

theorem dotless_body (encodeBase64 : Str → Str) (txt : Str) (isHtml : Bool) :
    Dotless (if isHtml then MimePart.html encodeBase64 txt
      else MimePart.plainText encodeBase64 txt).format ↔ ¬ [DOT] <+: txt ∧ Undotted txt := by
  have hcharset : Undotted (str "utf-8") := by unfold Undotted; decide +kernel
  have hplain : Undotted (str "text/plain") := by unfold Undotted; decide +kernel
  have hhtml : Undotted (str "text/html") := by unfold Undotted; decide +kernel
  rw [← dotless_iff]
  cases isHtml
  · rw [dotless_format _ rfl rfl rfl]
    simp [MimePart.plainText, MimePart.encodeRaw, undotted_nil, hcharset, hplain]
  · rw [dotless_format _ rfl rfl rfl]
    simp [MimePart.html, MimePart.plainText, MimePart.encodeRaw, undotted_nil, hcharset, hhtml]

section

variable {encodeBase64 : Str → Str}
  (hbase : ∀ s, ∀ c ∈ encodeBase64 s, base64Char c = true)

include hbase

theorem dotless_base64 (s : Str) : Dotless (encodeBase64 s) :=
  dotless_of_not_mem fun h => absurd (hbase s DOT h) (by decide)

theorem dotless_file (a : Attachment) :
    Dotless (MimePart.file encodeBase64 a.data a.fileName a.mime).format ↔
      Undotted a.mime ∧ Undotted a.fileName := by
  rw [dotless_format _ rfl rfl rfl]
  simp [MimePart.file, MimePart.encodeRaw, undotted_nil, dotless_base64 hbase]

omit hbase in
/-- A multipart content is the boundary and the parts. -/
theorem dotless_multiPart {boundary : Str} (hboundary : Undotted boundary) (parts : List MimePart) :
    Dotless (MimePart.formatMultiPart boundary parts) ↔ ∀ p ∈ parts, Dotless p.format := by
  have hdash : Label (str "--") := ⟨by decide, by decide +kernel⟩
  have htype : Undotted (str "multipart/related") := by unfold Undotted; decide +kernel
  have hlast : Dotless (str "--" ++ boundary ++ str "--\r\n") := by
    rw [show str "--\r\n" = str "--" ++ str "\r\n" from rfl, ← List.append_assoc, dotless_end,
      List.append_assoc, hdash.dotless, hdash.behind]
    exact hboundary
  have hparts : Dotless (MimePart.encodeParts boundary parts) ↔ ∀ p ∈ parts, Dotless p.format := by
    unfold MimePart.encodeParts
    induction parts with
    | nil =>
      rw [List.flatMap_nil, List.nil_append]
      exact iff_of_true hlast (by simp)
    | cons p parts ih =>
      have hopen : Dotless (str "--" ++ boundary ++ str "\r\n") := (hdash.line boundary).mpr hboundary
      have hp : Whole p.format := whole_formatAs p p.content
      rw [List.flatMap_cons, List.append_assoc, List.append_assoc _ p.format,
        (whole_end _).dotless, and_iff_right hopen, hp.dotless, ih, List.forall_mem_cons]
  rw [MimePart.formatMultiPart, dotless_formatAs _ _ rfl rfl, hparts]
  simp [htype, undotted_nil, hboundary]

theorem dotless_content {boundary : Str} (hboundary : Undotted boundary) (d : Draft) :
    Dotless ((d.message encodeBase64).formatContent boundary) ↔
      (∀ b ∈ d.body, ¬ [DOT] <+: b.1 ∧ Undotted b.1) ∧
        ∀ a ∈ d.attachments, Undotted a.mime ∧ Undotted a.fileName := by
  have hbody : (d.start encodeBase64).body = d.body.map fun b =>
      if b.2 then MimePart.html encodeBase64 b.1 else MimePart.plainText encodeBase64 b.1 := by
    unfold Draft.start
    cases d.body <;> rfl
  rw [message_eq, SMTPMessage.formatContent]
  by_cases hnone : d.attachments = []
  · simp only [hnone, List.map_nil, if_true, hbody]
    cases hd : d.body with
    | none => simp [dotless_nil]
    | some b =>
      rw [Option.map_some, dotless_body]
      simp
  · rw [if_neg (by simpa using hnone), dotless_multiPart hboundary, List.forall_mem_append, hbody]
    refine and_congr ?_ ?_
    · cases hd : d.body with
      | none => simp
      | some b => simp [dotless_body]
    · rw [List.forall_mem_map]
      simp only [dotless_file hbase]

/-- **The text of a mail has no line with a dot in front exactly when no string of it brings one.** -/
theorem dotless_message {boundary : Str} (hboundary : Undotted boundary) (d : Draft) :
    Dotless ((d.message encodeBase64).format boundary) ↔ d.Harmless := by
  have hfields : (d.message encodeBase64).sentFrom = d.sentFrom ∧
      (d.message encodeBase64).sender = d.sender ∧ (d.message encodeBase64).replyTo = d.replyTo ∧
      (d.message encodeBase64).recipients = d.recipients ∧
      (d.message encodeBase64).ccRecipients = d.ccRecipients ∧
      (d.message encodeBase64).subject = d.subject := by
    rw [message_eq]
    unfold Draft.start
    cases d.body <;> simp [SMTPMessage.setBody]
  obtain ⟨hfrom, hsender, hreplyTo, hto, hcc, hsubject⟩ := hfields
  rw [SMTPMessage.format, (whole_header _).dotless, dotless_header, dotless_content hbase hboundary,
    hfrom, hsender, hreplyTo, hto, hcc, hsubject]
  constructor
  · rintro ⟨⟨h1, h2, h3, h4, h5, h6⟩, h7, h8⟩
    exact ⟨h1, h2, h3, h4, h5, h6, h7, h8⟩
  · intro h
    exact ⟨⟨h.sentFrom, h.sender, h.replyTo, h.recipients, h.ccRecipients, h.subject⟩, h.body,
      h.attachments⟩

end

/-! ## The server -/

/-- What a server makes of the bytes behind `DATA`: the text up to the line that is a dot, and the
bytes that follow, which it reads as commands. -/
def serverReads (bytes : Str) : Option (Str × Str) := Lines.readBlock CR LF DOT bytes

/-- The bytes sent behind the last `DATA`. -/
def afterData (sent : List Command) : Str :=
  ((sent.reverse.takeWhile (· ≠ .data)).reverse).flatMap Command.bytes

theorem serverReads_iff (text : Str) :
    serverReads (Command.message text).bytes = some (text ++ [CR, LF], []) ↔ Dotless text := by
  rw [Dotless, Lines.walk_lines_iff cr_ne_lf cr_ne_dot, ← Lines.readBlock_iff cr_ne_lf]
  have hbytes : (Command.message text).bytes = text ++ [CR, LF] ++ [DOT] ++ [CR, LF] := by
    simp [Command.bytes, Command.line, str, CR, LF, DOT]
  rw [serverReads, hbytes]

/-- The text is the last thing `submit` sends, directly behind `DATA`. -/
theorem submit_afterData {msg : SMTPMessage} {boundary : Str} {s s' : Socket}
    {r : Except MailStop Unit} (hrun : submit msg boundary s = (r, s'))
    (hsent : .message (msg.format boundary) ∈ (commands s'.log).drop (commands s.log).length) :
    afterData (commands s'.log) = (Command.message (msg.format boundary)).bytes := by
  obtain ⟨done, hstart, hdone⟩ : ∃ done, done <+: submitCommands msg boundary ∧
      commands s'.log = commands s.log ++ done := by
    have htriple := submit_sends msg boundary (commands s.log) s rfl
    cases r with
    | ok u => exact ⟨_, List.prefix_rfl, htriple.1 u s' hrun⟩
    | error e => exact htriple.2 e s' hrun
  rw [hdone, List.drop_left] at hsent
  have hall : submitCommands msg boundary =
      (.mailFrom msg.sender.address :: (rcptCommands msg.recipients ++
        rcptCommands msg.ccRecipients ++ rcptCommands msg.bccRecipients ++ [.data])) ++
        [.message (msg.format boundary)] := by
    simp [submitCommands]
  obtain rfl : done = submitCommands msg boundary := by
    rw [hall] at hstart ⊢
    rcases List.prefix_concat_iff.mp hstart with h | h
    · exact h
    · have hmem := h.subset hsent
      simp [rcptCommands] at hmem
  rw [hdone, hall, afterData]
  simp

/-- **The text of a mail reaches the server whole**, up to the line end behind it, and no byte is
left over, if and only if no string of the mail brings a line with a dot in front. -/
theorem mail_transparent_iff (encodeBase64 : Str → Str)
    (hbase : ∀ s, ∀ c ∈ encodeBase64 s, base64Char c = true) (boundary : Str)
    (hboundary : ∀ c ∈ boundary, (str "0123456789ABCDEF").contains c = true) (d : Draft)
    (s s' : Socket) (r : Except MailStop Unit)
    (hrun : submit (d.message encodeBase64) boundary s = (r, s'))
    (hsent : .message ((d.message encodeBase64).format boundary) ∈
      (commands s'.log).drop (commands s.log).length) :
    serverReads (afterData (commands s'.log)) =
        some ((d.message encodeBase64).format boundary ++ [CR, LF], []) ↔ d.Harmless := by
  have hundotted : Undotted boundary := by
    refine ((dotless_iff boundary).mp (dotless_of_not_mem fun h => ?_)).2
    exact absurd (hboundary DOT h) (by decide)
  rw [submit_afterData hrun hsent, serverReads_iff, dotless_message hbase hundotted]

/-! ## Two mails -/

theorem base64Encode_char (s : Str) : ∀ c ∈ base64Encode s, base64Char c = true := by
  obtain ⟨digits, k, -, hencode, hdigits⟩ := Base64.encode_padded s
  have halphabet : ∀ c ∈ Base64.alphabet, base64Char c = true := by decide +kernel
  intro c hc
  rw [base64Encode_eq, hencode] at hc
  rcases List.mem_append.mp hc with hc | hc
  · exact halphabet c (hdigits c hc)
  · rw [List.eq_of_mem_replicate hc]
    decide

/-- A mail with a text and a file. -/
def noteMail (txt : Str) : Draft where
  subject := str "Note"
  sender := ⟨str "me@x.org", []⟩
  sentFrom := ⟨str "me@x.org", str "Me"⟩
  recipients := [⟨str "you@x.org", []⟩]
  body := some (txt, false)
  attachments := [⟨str "ab", str "ab.txt", str "text/plain"⟩]

/-- A server that takes every command. -/
def willing : Socket :=
  ⟨[], [], [{ code := 250 }, { code := 250 }, { code := 354 }, { code := 250 }]⟩

/-- What the server reads behind `DATA` when it takes the mail. -/
def noteRead (txt : Str) : Option (Str × Str) :=
  serverReads (afterData (commands
    (submit ((noteMail txt).message base64Encode) (str "0F") willing).2.log))

theorem note_arrives :
    noteRead (str "Hi\r\n") =
      some (((noteMail (str "Hi\r\n")).message base64Encode).format (str "0F") ++ [CR, LF], []) :=
  (mail_transparent_iff base64Encode base64Encode_char (str "0F") (by decide +kernel)
    (noteMail (str "Hi\r\n")) willing _ _ rfl (by decide +kernel)).mpr
    { sentFrom := by decide +kernel
      sender := by decide +kernel
      replyTo := by decide +kernel
      recipients := by decide +kernel
      ccRecipients := by decide +kernel
      subject := by decide +kernel
      body := by decide +kernel
      attachments := by decide +kernel }

/-- A dot on a line of its own ends the mail, and the server takes the next line for a command. -/
theorem dotted_note_cut :
    (noteRead (str "Hi\r\n.\r\nRSET")).map Prod.snd ≠ some [] ∧
      noteRead (str "Hi\r\n.\r\nRSET") ≠
        some (((noteMail (str "Hi\r\n.\r\nRSET")).message base64Encode).format (str "0F") ++
          [CR, LF], []) := by
  decide +kernel

end Wsrv.MailTransparency
