import Wsrv.Base64
import Wsrv.MailMessage
import Wsrv.Util
import Wsrv.Lib.Effect

/-!
# The SMTP client

`SMTPMailer` sends commands and reads the replies of the server line by line.
The server answers every command with a reply of one or more lines.  A line
that has arrived carries the number of the reply it belongs to, which the
client does not see: the greeting is number 0, and the reply to the k-th
command is number k.

`receive` waits for a line.  When none is to come the client blocks, and when
the connection has ended `Socket::receive` leaves without a value, which is
undefined; both are the stop `noLine`.
-/

namespace Wsrv

/-! ## The server -/

/-- Codes have three digits. -/
instance neZero_codes : NeZero 1000 := ⟨Nat.succ_ne_zero 999⟩

theorem space_ne_hyphen : ' '.toUInt8 ≠ '-'.toUInt8 := by decide

/-- A reply: the texts of its continuation lines, and its last line.  All lines have the same code. -/
structure Reply where
  code : Fin 1000
  continued : List Str := []
  sep : UInt8 := ' '.toUInt8
  text : Str := []
  sep_ne : sep ≠ '-'.toUInt8 := by exact space_ne_hyphen

namespace Reply

/-- The code in three digits. -/
def digits (code : Fin 1000) : Str :=
  [code / 100, code / 10 % 10, code % 10].map fun d : Nat => '0'.toUInt8 + UInt8.ofNat d

/-- The lines of a reply, without their ends. -/
def lines (r : Reply) : List Str :=
  (r.continued.map fun text => digits r.code ++ '-'.toUInt8 :: text) ++
    [digits r.code ++ r.sep :: r.text]

/-- A reply of a single line. -/
def Single (r : Reply) : Prop := r.continued = []

instance (r : Reply) : Decidable r.Single := inferInstanceAs (Decidable (_ = _))

end Reply

/-! ## The connection -/

/-- What `SMTPMailer` sends. -/
inductive Command
  | ehlo (host : Str)
  | helo (host : Str)
  | authLogin
  | username (encoded : Str)
  | password (encoded : Str)
  | startTls
  | mailFrom (address : Str)
  | rcptTo (address : Str)
  | data
  | message (text : Str)
  deriving DecidableEq, Repr

/-- The argument of `Socket::send`. -/
def Command.line : Command → Str
  | ehlo host => str "EHLO " ++ host
  | helo host => str "HELO " ++ host
  | authLogin => str "AUTH LOGIN"
  | username encoded => encoded
  | password encoded => encoded
  | startTls => str "STARTTLS"
  | mailFrom address => str "MAIL FROM: <" ++ address ++ str ">"
  | rcptTo address => str "RCPT TO: <" ++ address ++ str ">"
  | data => str "DATA"
  | message text => text ++ str "\r\n."

/-- The bytes `Socket::send` writes. -/
def Command.bytes (c : Command) : Str := c.line ++ str "\r\n"

inductive Event
  | sent (c : Command)
  /-- A line that `receive` has returned, with the number of its reply. -/
  | got (reply : Nat) (line : Str)
  deriving DecidableEq, Repr

def Event.command? : Event → Option Command
  | sent c => some c
  | got .. => none

/-- The commands among some events. -/
def commands (log : List Event) : List Command := log.filterMap Event.command?

/-- A connection: what has happened on it, the lines that have arrived, and the replies that the
server is going to give. -/
structure Socket where
  log : List Event
  incoming : List (Nat × Str)
  replies : List Reply

/-- The lines of the reply with a number. -/
def Reply.arrive (n : Nat) (r : Reply) : List (Nat × Str) := r.lines.map fun line => (n, line)

/-- A new connection: the first reply is the greeting. -/
def Socket.connected (replies : List Reply) : Socket :=
  ⟨[], replies.head?.toList.flatMap (Reply.arrive 0), replies.tail⟩

/-- Why a call of the mailer does not return. -/
inductive MailStop
  | smtpError (what : Str)
  | noLine
  deriving DecidableEq, Repr

abbrev Dialog := Effect Socket MailStop

/-- `Socket::send`, and the answer of the server. -/
def send (c : Command) : Dialog Unit :=
  modify fun s =>
    { log := s.log ++ [.sent c]
      incoming := s.incoming ++
        s.replies.head?.toList.flatMap (Reply.arrive ((commands s.log).length + 1))
      replies := s.replies.tail }

/-- `Socket::receive`. -/
def receive : Dialog Str := do
  match (← get).incoming with
  | [] => throw .noLine
  | (n, line) :: rest =>
    modify fun s => { s with log := s.log ++ [.got n line], incoming := rest }
    return line

/-! ## The mailer -/

namespace SMTPMailer

open Effect

structure ResponseLine where
  status : Int
  isLast : Bool
  msg : Str
  deriving DecidableEq, Repr

def positiveIntermediate (status : Int) : Bool := status.tdiv 100 == 3

def positiveCompletion (status : Int) : Bool := status.tdiv 100 == 2

def waitForResponse : Dialog ResponseLine := do
  let line ← receive
  throwIf (line.length < 4) (.smtpError (str "Response message too short"))
  match stoi (line.take 3) with
  | .ok status => return ⟨status, line.getD 3 0 != '-'.toUInt8, line.drop 4⟩
  | .error _ => throw (.smtpError (str "Error parsing response message"))

/-- `switch_to_ssl` hands the connection over, with the lines that have arrived. -/
def switchToSsl : Dialog Unit := return

def connect : Dialog Unit := do
  let r ← waitForResponse
  throwIf (r.status ≠ 220) (.smtpError (str "Connection rejection."))

def authLogin (username password : Str) : Dialog Unit := do
  send .authLogin
  let r ← waitForResponse
  throwIf (r.isLast && !positiveIntermediate r.status) (.smtpError (str "Authentication rejection."))
  send (.username (base64Encode username))
  let r ← waitForResponse
  throwIf (r.isLast && !positiveIntermediate r.status) (.smtpError (str "Username rejection."))
  send (.password (base64Encode password))
  let r ← waitForResponse
  throwIf (r.isLast && !positiveCompletion r.status) (.smtpError (str "Password rejection."))

/-- `do r = waitForResponse() while ( !r.isLast() )`, with a bound on the lines. -/
def waitForLast : Nat → Dialog ResponseLine
  | 0 => throw .noLine
  | n + 1 => do
    let r ← waitForResponse
    if r.isLast then return r else waitForLast n

/-- There are no more lines to read than have arrived. -/
def waitForReply : Dialog ResponseLine := do waitForLast (← get).incoming.length

def ehlo (srcHostname : Str) : Dialog Unit := do
  send (.ehlo srcHostname)
  let r ← waitForReply
  if !positiveCompletion r.status then
    send (.helo srcHostname)
    let r ← waitForReply
    throwIf (!positiveCompletion r.status) (.smtpError (str "Initial message rejection."))

def startTls (srcHostname : Str) : Dialog Unit := do
  send .startTls
  let r ← waitForResponse
  throwIf (r.isLast && r.status ≠ 220) (.smtpError (str "Start tls refused by server."))
  switchToSsl
  ehlo srcHostname

/-- `SMTPMailer::auth_method_t`. -/
inductive AuthMethod
  | none | login | startTls
  deriving DecidableEq, Repr

def authenticate (srcHostname username password : Str) : AuthMethod → Dialog Unit
  | .none => do
    switchToSsl
    connect
    ehlo srcHostname
  | .login => do
    switchToSsl
    connect
    ehlo srcHostname
    authLogin username password
  | .startTls => do
    connect
    ehlo srcHostname
    startTls srcHostname
    authLogin username password

/-- One of the three loops over recipients of `submit`. -/
def submitRecipients (rejection : Str) : List MailAddress → Dialog Unit
  | [] => return
  | rcpt :: rest => do
    send (.rcptTo rcpt.address)
    let r ← waitForResponse
    throwIf (!positiveCompletion r.status) (.smtpError rejection)
    submitRecipients rejection rest

def submit (msg : SMTPMessage) (boundary : Str) : Dialog Unit := do
  send (.mailFrom msg.sender.address)
  let r ← waitForResponse
  throwIf (r.isLast && !positiveCompletion r.status) (.smtpError (str "Mail sender rejection."))
  submitRecipients (str "Mail recipient rejection.") msg.recipients
  submitRecipients (str "Mail cc recipient rejection.") msg.ccRecipients
  submitRecipients (str "Mail bcc recipient rejection.") msg.bccRecipients
  send .data
  let r ← waitForResponse
  throwIf (!positiveIntermediate r.status) (.smtpError (str "Mail message rejection."))
  send (.message (msg.format boundary))
  let r ← waitForResponse
  throwIf (!positiveCompletion r.status) (.smtpError (str "Mail message rejection."))

end SMTPMailer

end Wsrv
