import Wsrv.Text

/-!
# Mails

`SMTPMessage::format` writes the header of a mail and its content, a single
`MimePart` or, with attachments, a multipart one.

`encodeBase64` and the random boundary come from a cryptographic library; both
are arguments here.
-/

namespace Wsrv

/-! ## Parts -/

/-- `MimePart::Encoding`. -/
inductive Encoding
  | sevenBit | eightBit | base64 | quotedPrintable
  deriving DecidableEq, Repr

structure MimePart where
  header : Str := []
  name : Str := []
  id : Str := []
  type : Str := []
  charset : Str := []
  boundary : Str := []
  content : Str := []
  encoding : Encoding

namespace MimePart

/-- The line of `Content-Transfer-Encoding`. -/
def encodingLine : Encoding → Str
  | .sevenBit => str "7bit\r\n"
  | .eightBit => str "8bit\r\n"
  | .base64 => str "base64\r\n"
  | .quotedPrintable => str "quoted-printable\r\n"

/-- `MimePart::format`; `encoded` is what the virtual `encode()` gives. -/
def formatAs (p : MimePart) (encoded : Str) : Str :=
  str "Content-Type: " ++ p.type ++
    (if p.name ≠ [] then str "; name=\"" ++ p.name ++ str "\"" else []) ++
    (if p.charset ≠ [] then str "; charset=" ++ p.charset else []) ++
    (if p.boundary ≠ [] then str "; boundary=" ++ p.boundary else []) ++
    str "\r\n" ++
    str "Content-Transfer-Encoding: " ++ encodingLine p.encoding ++
    (if p.id ≠ [] then str "Content-ID: <" ++ p.id ++ str ">\r\n" else []) ++
    p.header ++ str "\r\n" ++
    encoded ++ str "\r\n"

/-- A part that is not multipart encodes to its content. -/
def format (p : MimePart) : Str := p.formatAs p.content

/-- `MimePart::encodeRaw`. -/
def encodeRaw (encodeBase64 : Str → Str) (p : MimePart) (text : Str) : MimePart :=
  match p.encoding with
  | .eightBit => { p with content := text }
  | .base64 => { p with content := encodeBase64 text }
  | _ => p

/-- `MimePlainText`. -/
def plainText (encodeBase64 : Str → Str) (text : Str) : MimePart :=
  encodeRaw encodeBase64
    { type := str "text/plain", charset := str "utf-8", encoding := .eightBit } text

/-- `MimeHtml`. -/
def html (encodeBase64 : Str → Str) (text : Str) : MimePart :=
  { plainText encodeBase64 text with type := str "text/html" }

/-- `MimeFile`; `data` is what the stream gives. -/
def file (encodeBase64 : Str → Str) (data fileName ctype : Str) : MimePart :=
  encodeRaw encodeBase64 { type := ctype, name := fileName, encoding := .base64 } data

/-- `MimeMultiPart::encode`. -/
def encodeParts (boundary : Str) (parts : List MimePart) : Str :=
  (parts.flatMap fun p => str "--" ++ boundary ++ str "\r\n" ++ p.format) ++
    (str "--" ++ boundary ++ str "--\r\n")

/-- `MimeMultiPart` of its default type, formatted. -/
def formatMultiPart (boundary : Str) (parts : List MimePart) : Str :=
  formatAs { type := str "multipart/related", encoding := .eightBit, boundary := boundary }
    (encodeParts boundary parts)

end MimePart

/-! ## Messages -/

structure MailAddress where
  address : Str := []
  name : Str := []
  deriving DecidableEq, Repr

/-- `MailAddress::format`. -/
def MailAddress.format (a : MailAddress) : Str :=
  if a.name = [] ∧ a.address = [] then []
  else
    let nameFormatted := if a.name ≠ [] then str "\"" ++ a.name ++ str "\"" else []
    let addr := if a.address ≠ [] then str "<" ++ a.address ++ str ">" else []
    if nameFormatted = [] then addr
    else nameFormatted ++ (if addr = [] then [] else str " " ++ addr)

structure SMTPMessage where
  subject : Str := []
  sender : MailAddress := {}
  sentFrom : MailAddress := {}
  replyTo : MailAddress := {}
  recipients : List MailAddress := []
  ccRecipients : List MailAddress := []
  bccRecipients : List MailAddress := []
  body : Option MimePart := none
  attachments : List MimePart := []

namespace SMTPMessage

/-- `SMTPMessage::setBody`. -/
def setBody (encodeBase64 : Str → Str) (m : SMTPMessage) (txt : Str) (isHtml : Bool := false) :
    SMTPMessage :=
  { m with
    body := some (if isHtml then .html encodeBase64 txt else .plainText encodeBase64 txt) }

/-- `SMTPMessage::addAttachment`. -/
def addAttachment (encodeBase64 : Str → Str) (m : SMTPMessage) (data fileName : Str)
    (mime : Str := str "application/octet-stream") : SMTPMessage :=
  { m with attachments := m.attachments ++ [.file encodeBase64 data fileName mime] }

/-- `SMTPMessage::format_address_list`. -/
def formatAddressList (a : List MailAddress) : Str :=
  a.foldl (fun res address => (if res ≠ [] then res ++ str " " else res) ++ address.format) []

/-- `SMTPMessage::format_subject`. -/
def formatSubject (m : SMTPMessage) : Str := m.subject

/-- `SMTPMessage::format_header`.  The `Bcc` line lists the recipients. -/
def formatHeader (m : SMTPMessage) : Str :=
  (str "From:" ++ m.sentFrom.format ++ str "\r\n") ++
    (if m.sender.address = [] then [] else str "Sender:" ++ m.sender.format ++ str "\r\n") ++
    (if m.replyTo.address = [] then [] else str "Reply-To:" ++ m.replyTo.format ++ str "\r\n") ++
    (str "To:" ++ formatAddressList m.recipients ++ str "\r\n") ++
    (if m.ccRecipients = [] then []
      else str "Cc:" ++ formatAddressList m.ccRecipients ++ str "\r\n") ++
    (if m.bccRecipients = [] then []
      else str "Bcc:" ++ formatAddressList m.recipients ++ str "\r\n") ++
    (str "Subject:" ++ m.formatSubject ++ str "\r\n")

/-- `SMTPMessage::format_content`. -/
def formatContent (m : SMTPMessage) (boundary : Str) : Str :=
  if m.attachments = [] then
    match m.body with
    | some body => body.format
    | none => []
  else MimePart.formatMultiPart boundary (m.body.toList ++ m.attachments)

/-- **`SMTPMessage::format`**; `boundary` is the random one of a multipart content. -/
def format (m : SMTPMessage) (boundary : Str) : Str := m.formatHeader ++ m.formatContent boundary

end SMTPMessage

end Wsrv
