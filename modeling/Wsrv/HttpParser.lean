import Wsrv.Text

/-!
# The HTTP parser

`http_parser.c` in strict mode: the automaton that reads a request or a response
byte by byte, and `http_parser_execute`, which runs it over the bytes of one
read and reports what it finds to the callbacks of `http_parser_settings`.

One pass through the `switch` of the source is `switch`.  It answers with a
`Step`: which mark is set, the new parser, the callback to run and how the loop
goes on.  The `goto error` of the source is `Step.error`.  The loop keeps for
every mark the bytes between the mark and the current byte, which is the text
the source hands to a data callback.
-/

namespace Wsrv.Http

/-! ## Methods, flags and errors -/

/-- `enum http_method`. -/
inductive Method
  | DELETE | GET | HEAD | POST | PUT | CONNECT | OPTIONS | TRACE | COPY | LOCK | MKCOL | MOVE
  | PROPFIND | PROPPATCH | SEARCH | UNLOCK | REPORT | MKACTIVITY | CHECKOUT | MERGE | MSEARCH
  | NOTIFY | SUBSCRIBE | UNSUBSCRIBE | PATCH | PURGE
  deriving DecidableEq, Repr

/-- `method_strings`, which is also `http_method_str`. -/
def methodString : Method → Str
  | .DELETE => str "DELETE"
  | .GET => str "GET"
  | .HEAD => str "HEAD"
  | .POST => str "POST"
  | .PUT => str "PUT"
  | .CONNECT => str "CONNECT"
  | .OPTIONS => str "OPTIONS"
  | .TRACE => str "TRACE"
  | .COPY => str "COPY"
  | .LOCK => str "LOCK"
  | .MKCOL => str "MKCOL"
  | .MOVE => str "MOVE"
  | .PROPFIND => str "PROPFIND"
  | .PROPPATCH => str "PROPPATCH"
  | .SEARCH => str "SEARCH"
  | .UNLOCK => str "UNLOCK"
  | .REPORT => str "REPORT"
  | .MKACTIVITY => str "MKACTIVITY"
  | .CHECKOUT => str "CHECKOUT"
  | .MERGE => str "MERGE"
  | .MSEARCH => str "M-SEARCH"
  | .NOTIFY => str "NOTIFY"
  | .SUBSCRIBE => str "SUBSCRIBE"
  | .UNSUBSCRIBE => str "UNSUBSCRIBE"
  | .PATCH => str "PATCH"
  | .PURGE => str "PURGE"

/-- `enum http_parser_type`. -/
inductive ParserType
  | request | response | both
  deriving DecidableEq, Repr

/-- `enum flags`, one field for each bit. -/
structure Flags where
  chunked : Bool := false
  connectionKeepAlive : Bool := false
  connectionClose : Bool := false
  trailing : Bool := false
  upgrade : Bool := false
  skipbody : Bool := false
  deriving DecidableEq, Repr

/-- `enum http_errno`, as far as the parser raises them. -/
inductive Errno
  | ok
  | cbMessageBegin | cbUrl | cbHeaderField | cbHeaderValue | cbHeadersComplete | cbBody
  | cbMessageComplete | cbStatus
  | invalidEofState | headerOverflow | closedConnection | invalidVersion | invalidStatus
  | invalidMethod | invalidUrl | lfExpected | invalidHeaderToken | invalidContentLength
  | invalidChunkSize | invalidConstant | invalidInternalState | strict | paused
  deriving DecidableEq, Repr

/-! ## The parser -/

/-- `enum state`. -/
inductive State
  | dead
  | startReqOrRes | resOrRespH
  | startRes | resH | resHT | resHTT | resHTTP
  | resFirstHttpMajor | resHttpMajor | resFirstHttpMinor | resHttpMinor
  | resFirstStatusCode | resStatusCode | resStatusStart | resStatus | resLineAlmostDone
  | startReq
  | reqMethod | reqSpacesBeforeUrl
  | reqSchema | reqSchemaSlash | reqSchemaSlashSlash
  | reqServerStart | reqServer | reqServerWithAt
  | reqPath | reqQueryStringStart | reqQueryString | reqFragmentStart | reqFragment
  | reqHttpStart | reqHttpH | reqHttpHT | reqHttpHTT | reqHttpHTTP
  | reqFirstHttpMajor | reqHttpMajor | reqFirstHttpMinor | reqHttpMinor | reqLineAlmostDone
  | headerFieldStart | headerField
  | headerValueDiscardWs | headerValueDiscardWsAlmostDone | headerValueDiscardLws
  | headerValueStart | headerValue | headerValueLws
  | headerAlmostDone
  | chunkSizeStart | chunkSize | chunkParameters | chunkSizeAlmostDone
  | headersAlmostDone | headersDone
  | chunkData | chunkDataAlmostDone | chunkDataDone
  | bodyIdentity | bodyIdentityEof
  | messageDone
  deriving DecidableEq, Repr

/-- `enum header_states`. -/
inductive HeaderState
  | general | C | CO | CON
  | matchingConnection | matchingProxyConnection | matchingContentLength
  | matchingTransferEncoding | matchingUpgrade
  | connection | contentLength | transferEncoding | upgrade
  | matchingTransferEncodingChunked | matchingConnectionKeepAlive | matchingConnectionClose
  | transferEncodingChunked | connectionKeepAlive | connectionClose
  deriving DecidableEq, Repr

/-- `struct http_parser`, without the `data` pointer: the object behind it is the state that the
callbacks change.  The bit fields never reach their bounds, because `index` is compared with the
length of a word before it grows on and `nread`, `http_major`, `http_minor`, `status_code` and
`content_length` are compared with their limits. -/
structure HttpParser where
  type : ParserType
  flags : Flags
  state : State
  headerState : HeaderState
  index : Nat
  nread : Nat
  contentLength : Nat
  httpMajor : Nat
  httpMinor : Nat
  statusCode : Nat
  method : Method
  httpErrno : Errno
  upgrade : Bool
  deriving DecidableEq, Repr

/-- `http_parser_init`; the zeroed fields are the first values of their enumerations. -/
def init (t : ParserType) : HttpParser :=
  { type := t
    flags := {}
    state := match t with
      | .request => .startReq
      | .response => .startRes
      | .both => .startReqOrRes
    headerState := .general
    index := 0, nread := 0, contentLength := 0, httpMajor := 0, httpMinor := 0, statusCode := 0
    method := .DELETE
    httpErrno := .ok
    upgrade := false }

def ULLONG_MAX : Nat := 2 ^ 64 - 1

def HTTP_MAX_HEADER_SIZE : Nat := 80 * 1024

/-- `PARSING_HEADER`: the states up to `s_headers_done`. -/
def parsingHeader : State → Bool
  | .chunkData | .chunkDataAlmostDone | .chunkDataDone | .bodyIdentity | .bodyIdentityEof
  | .messageDone => false
  | _ => true

/-- `http_message_needs_eof`. -/
def messageNeedsEof (p : HttpParser) : Bool :=
  if p.type = .request then false
  else if p.statusCode / 100 = 1 ∨ p.statusCode = 204 ∨ p.statusCode = 304 ∨ p.flags.skipbody then
    false
  else if p.flags.chunked ∨ p.contentLength ≠ ULLONG_MAX then false
  else true

/-- `http_should_keep_alive`. -/
def shouldKeepAlive (p : HttpParser) : Bool :=
  if 0 < p.httpMajor ∧ 0 < p.httpMinor then
    if p.flags.connectionClose then false else !messageNeedsEof p
  else
    if !p.flags.connectionKeepAlive then false else !messageNeedsEof p

def startState (p : HttpParser) : State := if p.type = .request then .startReq else .startRes

/-- `NEW_MESSAGE()`. -/
def newMessage (p : HttpParser) : State := if shouldKeepAlive p then startState p else .dead

/-- `http_parser_pause`; the release build ignores it in an error state. -/
def parserPause (p : HttpParser) (paused : Bool) : HttpParser :=
  if p.httpErrno = .ok ∨ p.httpErrno = .paused then
    { p with httpErrno := if paused then .paused else .ok }
  else p

/-! ## Character classes -/

/-- `LOWER`. -/
def lower (c : UInt8) : UInt8 := c ||| 0x20

def isAlpha (c : UInt8) : Bool := 'a'.toUInt8 ≤ lower c && lower c ≤ 'z'.toUInt8

def isNum (c : UInt8) : Bool := '0'.toUInt8 ≤ c && c ≤ '9'.toUInt8

def isAlphanum (c : UInt8) : Bool := isAlpha c || isNum c

def isHex (c : UInt8) : Bool := isNum c || ('a'.toUInt8 ≤ lower c && lower c ≤ 'f'.toUInt8)

def isMark (c : UInt8) : Bool := (str "-_.!~*'()").contains c

def isUserinfoChar (c : UInt8) : Bool := isAlphanum c || isMark c || (str "%;:&=+$,").contains c

def isHostChar (c : UInt8) : Bool := isAlphanum c || c == '.'.toUInt8 || c == '-'.toUInt8

/-- `tokens`: letters are lowered, digits and the other characters of a token stand for
themselves, everything else is 0. -/
def token (c : UInt8) : UInt8 :=
  if isAlpha c then lower c
  else if isNum c || (str "!#$%&'*+-.^_`|~").contains c then c
  else 0

/-- `normal_url_char`: the printing characters without `#` and `?`. -/
def isUrlChar (c : UInt8) : Bool :=
  33 ≤ c && c ≤ 126 && c != '#'.toUInt8 && c != '?'.toUInt8

/-- `unhex`, where `none` is -1.  The table has 128 entries for an array of 256, so that the upper
half is zero and not -1. -/
def unhex (c : UInt8) : Option Nat :=
  if isNum c then some (c - '0'.toUInt8).toNat
  else if 128 ≤ c then some 0
  else if 'a'.toUInt8 ≤ lower c && lower c ≤ 'f'.toUInt8 then some ((lower c - 'a'.toUInt8).toNat + 10)
  else none

def digit (c : UInt8) : Nat := (c - '0'.toUInt8).toNat

/-- `parse_url_char`. -/
def parseUrlChar (s : State) (ch : UInt8) : State :=
  if ch = ' '.toUInt8 ∨ ch = CR ∨ ch = LF then .dead
  else if ch = 9 ∨ ch = 12 then .dead
  else match s with
  | .reqSpacesBeforeUrl =>
    if ch = '/'.toUInt8 ∨ ch = '*'.toUInt8 then .reqPath
    else if isAlpha ch then .reqSchema
    else .dead
  | .reqSchema =>
    if isAlpha ch then .reqSchema
    else if ch = ':'.toUInt8 then .reqSchemaSlash
    else .dead
  | .reqSchemaSlash => if ch = '/'.toUInt8 then .reqSchemaSlashSlash else .dead
  | .reqSchemaSlashSlash => if ch = '/'.toUInt8 then .reqServerStart else .dead
  | .reqServerWithAt | .reqServerStart | .reqServer =>
    if s = .reqServerWithAt ∧ ch = '@'.toUInt8 then .dead
    else if ch = '/'.toUInt8 then .reqPath
    else if ch = '?'.toUInt8 then .reqQueryStringStart
    else if ch = '@'.toUInt8 then .reqServerWithAt
    else if isUserinfoChar ch || ch == '['.toUInt8 || ch == ']'.toUInt8 then .reqServer
    else .dead
  | .reqPath =>
    if isUrlChar ch then .reqPath
    else if ch = '?'.toUInt8 then .reqQueryStringStart
    else if ch = '#'.toUInt8 then .reqFragmentStart
    else .dead
  | .reqQueryStringStart | .reqQueryString =>
    if isUrlChar ch then .reqQueryString
    else if ch = '?'.toUInt8 then .reqQueryString
    else if ch = '#'.toUInt8 then .reqFragmentStart
    else .dead
  | .reqFragmentStart =>
    if isUrlChar ch then .reqFragment
    else if ch = '?'.toUInt8 then .reqFragment
    else if ch = '#'.toUInt8 then .reqFragmentStart
    else .dead
  | .reqFragment =>
    if isUrlChar ch then .reqFragment
    else if ch = '?'.toUInt8 ∨ ch = '#'.toUInt8 then .reqFragment
    else .dead
  | _ => .dead

/-! ## One pass through the switch -/

/-- The elements a data callback reports. -/
inductive Elem
  | url | status | headerField | headerValue | body
  deriving DecidableEq, Repr

inductive Notify
  | messageBegin | messageComplete
  deriving DecidableEq, Repr

/-- The callback at the end of a pass. -/
inductive Call
  | none
  /-- `CALLBACK_DATA` when it consumes the byte, else `CALLBACK_DATA_NOADVANCE`.  The text ends
  before the current byte, or with it for the last byte of a body. -/
  | data (e : Elem) (withByte consume : Bool)
  | notify (n : Notify)
  | headersComplete
  deriving DecidableEq, Repr

/-- `break`, `goto reexecute_byte` or `return (p - data) + 1`. -/
inductive After
  | next | again | ret
  deriving DecidableEq, Repr

inductive Step
  | error (p : HttpParser) (e : Errno)
  | go (mark : Option Elem) (p : HttpParser) (call : Call) (after : After)
  deriving DecidableEq, Repr

namespace Step

/-- Nothing but a new parser, and the next byte. -/
def next (p : HttpParser) : Step := .go .none p .none .next

/-- `goto reexecute_byte`. -/
def again (p : HttpParser) : Step := .go .none p .none .again

/-- `STRICT_CHECK` and the new state of a byte that must be `want`. -/
def expect (p : HttpParser) (ch want : UInt8) (s : State) (e : Errno := .strict) : Step :=
  if ch ≠ want then .error p e else .next { p with state := s }

end Step

/-- The first digit of a version number, from `lo` to 9. -/
def firstMajor (p : HttpParser) (ch : UInt8) (lo : UInt8) (s : State) : Step :=
  if ch < lo ∨ '9'.toUInt8 < ch then .error p .invalidVersion
  else .next { p with httpMajor := digit ch, state := s }

def moreMajor (p : HttpParser) (ch : UInt8) (s : State) : Step :=
  if ch = '.'.toUInt8 then .next { p with state := s }
  else if !isNum ch then .error p .invalidVersion
  else
    let p := { p with httpMajor := p.httpMajor * 10 + digit ch }
    if 999 < p.httpMajor then .error p .invalidVersion else .next p

def firstMinor (p : HttpParser) (ch : UInt8) (s : State) : Step :=
  if !isNum ch then .error p .invalidVersion
  else .next { p with httpMinor := digit ch, state := s }

/-- One more digit of the minor version. -/
def moreMinor (p : HttpParser) (ch : UInt8) : Step :=
  if !isNum ch then .error p .invalidVersion
  else
    let p := { p with httpMinor := p.httpMinor * 10 + digit ch }
    if 999 < p.httpMinor then .error p .invalidVersion else .next p

/-- The states of a response line. -/
def switchResponseLine (p : HttpParser) (ch : UInt8) : Step :=
  match p.state with
  | .startRes =>
    let p := { p with flags := {}, contentLength := ULLONG_MAX }
    if ch = 'H'.toUInt8 then .go none { p with state := .resH } (.notify .messageBegin) .next
    else if ch = CR ∨ ch = LF then .go none p (.notify .messageBegin) .next
    else .error p .invalidConstant
  | .resH => .expect p ch 'T'.toUInt8 .resHT
  | .resHT => .expect p ch 'T'.toUInt8 .resHTT
  | .resHTT => .expect p ch 'P'.toUInt8 .resHTTP
  | .resHTTP => .expect p ch '/'.toUInt8 .resFirstHttpMajor
  | .resFirstHttpMajor => firstMajor p ch '0'.toUInt8 .resHttpMajor
  | .resHttpMajor => moreMajor p ch .resFirstHttpMinor
  | .resFirstHttpMinor => firstMinor p ch .resHttpMinor
  | .resHttpMinor =>
    if ch = ' '.toUInt8 then .next { p with state := .resFirstStatusCode } else moreMinor p ch
  | .resFirstStatusCode =>
    if !isNum ch then
      if ch = ' '.toUInt8 then .next p else .error p .invalidStatus
    else .next { p with statusCode := digit ch, state := .resStatusCode }
  | .resStatusCode =>
    if !isNum ch then
      if ch = ' '.toUInt8 then .next { p with state := .resStatusStart }
      else if ch = CR then .next { p with state := .resLineAlmostDone }
      else if ch = LF then .next { p with state := .headerFieldStart }
      else .error p .invalidStatus
    else
      let p := { p with statusCode := p.statusCode * 10 + digit ch }
      if 999 < p.statusCode then .error p .invalidStatus else .next p
  | .resStatusStart =>
    if ch = CR then .next { p with state := .resLineAlmostDone }
    else if ch = LF then .next { p with state := .headerFieldStart }
    else .go (some .status) { p with state := .resStatus, index := 0 } .none .next
  | .resStatus =>
    if ch = CR then
      .go none { p with state := .resLineAlmostDone } (.data .status false true) .next
    else if ch = LF then
      .go none { p with state := .headerFieldStart } (.data .status false true) .next
    else .next p
  | .resLineAlmostDone => .expect p ch LF .headerFieldStart
  | _ => .error p .invalidInternalState

/-- The method a request may have after its first letter. -/
def firstMethod (ch : UInt8) : Option Method :=
  if ch = 'C'.toUInt8 then some .CONNECT
  else if ch = 'D'.toUInt8 then some .DELETE
  else if ch = 'G'.toUInt8 then some .GET
  else if ch = 'H'.toUInt8 then some .HEAD
  else if ch = 'L'.toUInt8 then some .LOCK
  else if ch = 'M'.toUInt8 then some .MKCOL
  else if ch = 'N'.toUInt8 then some .NOTIFY
  else if ch = 'O'.toUInt8 then some .OPTIONS
  else if ch = 'P'.toUInt8 then some .POST
  else if ch = 'R'.toUInt8 then some .REPORT
  else if ch = 'S'.toUInt8 then some .SUBSCRIBE
  else if ch = 'T'.toUInt8 then some .TRACE
  else if ch = 'U'.toUInt8 then some .UNLOCK
  else none

/-- The method another letter turns the method into, where the letter does not continue it. -/
def otherMethod (m : Method) (index : Nat) (ch : UInt8) : Option Method :=
  if m = .CONNECT then
    if index = 1 ∧ ch = 'H'.toUInt8 then some .CHECKOUT
    else if index = 2 ∧ ch = 'P'.toUInt8 then some .COPY
    else none
  else if m = .MKCOL then
    if index = 1 ∧ ch = 'O'.toUInt8 then some .MOVE
    else if index = 1 ∧ ch = 'E'.toUInt8 then some .MERGE
    else if index = 1 ∧ ch = '-'.toUInt8 then some .MSEARCH
    else if index = 2 ∧ ch = 'A'.toUInt8 then some .MKACTIVITY
    else none
  else if m = .SUBSCRIBE then
    if index = 1 ∧ ch = 'E'.toUInt8 then some .SEARCH else none
  else if index = 1 ∧ m = .POST then
    if ch = 'R'.toUInt8 then some .PROPFIND
    else if ch = 'U'.toUInt8 then some .PUT
    else if ch = 'A'.toUInt8 then some .PATCH
    else none
  else if index = 2 then
    if m = .PUT then
      if ch = 'R'.toUInt8 then some .PURGE else none
    else if m = .UNLOCK then
      if ch = 'S'.toUInt8 then some .UNSUBSCRIBE else none
    else none
  else if index = 4 ∧ m = .PROPFIND ∧ ch = 'P'.toUInt8 then some .PROPPATCH
  else none

/-- `s_req_method`. -/
def switchMethod (p : HttpParser) (ch : UInt8) : Step :=
  let expected := (methodString p.method).getD p.index 0
  if ch = 0 then .error p .invalidMethod
  else if ch = ' '.toUInt8 ∧ expected = 0 then
    .next { p with state := .reqSpacesBeforeUrl, index := p.index + 1 }
  else if ch = expected then .next { p with index := p.index + 1 }
  else match otherMethod p.method p.index ch with
    | some m => .next { p with method := m, index := p.index + 1 }
    | none => .error p .invalidMethod

/-- The new state of a character of the URL. -/
def urlChar (mark : Option Elem) (p : HttpParser) (ch : UInt8) : Step :=
  let p := { p with state := parseUrlChar p.state ch }
  if p.state = .dead then .error p .invalidUrl else .go mark p .none .next

/-- The states of a request line before the method, in it and in the URL. -/
def switchRequestTarget (p : HttpParser) (ch : UInt8) : Step :=
  match p.state with
  | .startReq =>
    if ch = CR ∨ ch = LF then .next p
    else
      let p := { p with flags := {}, contentLength := ULLONG_MAX }
      if !isAlpha ch then .error p .invalidMethod
      else
        let p := { p with method := .DELETE, index := 1 }
        match firstMethod ch with
        | some m =>
          .go none { p with method := m, state := .reqMethod } (.notify .messageBegin) .next
        | none => .error p .invalidMethod
  | .reqMethod => switchMethod p ch
  | .reqSpacesBeforeUrl =>
    if ch = ' '.toUInt8 then .next p
    else if p.method = .CONNECT then urlChar (some .url) { p with state := .reqServerStart } ch
    else urlChar (some .url) p ch
  | .reqSchema | .reqSchemaSlash | .reqSchemaSlashSlash | .reqServerStart =>
    if ch = ' '.toUInt8 ∨ ch = CR ∨ ch = LF then .error p .invalidUrl else urlChar none p ch
  | .reqServer | .reqServerWithAt | .reqPath | .reqQueryStringStart | .reqQueryString
  | .reqFragmentStart | .reqFragment =>
    if ch = ' '.toUInt8 then
      .go none { p with state := .reqHttpStart } (.data .url false true) .next
    else if ch = CR ∨ ch = LF then
      .go none
        { p with
          httpMajor := 0, httpMinor := 9
          state := if ch = CR then .reqLineAlmostDone else .headerFieldStart }
        (.data .url false true) .next
    else urlChar none p ch
  | _ => .error p .invalidInternalState

/-- The states of a request line after the URL. -/
def switchRequestVersion (p : HttpParser) (ch : UInt8) : Step :=
  match p.state with
  | .reqHttpStart =>
    if ch = 'H'.toUInt8 then .next { p with state := .reqHttpH }
    else if ch = ' '.toUInt8 then .next p
    else .error p .invalidConstant
  | .reqHttpH => .expect p ch 'T'.toUInt8 .reqHttpHT
  | .reqHttpHT => .expect p ch 'T'.toUInt8 .reqHttpHTT
  | .reqHttpHTT => .expect p ch 'P'.toUInt8 .reqHttpHTTP
  | .reqHttpHTTP => .expect p ch '/'.toUInt8 .reqFirstHttpMajor
  | .reqFirstHttpMajor => firstMajor p ch '1'.toUInt8 .reqHttpMajor
  | .reqHttpMajor => moreMajor p ch .reqFirstHttpMinor
  | .reqFirstHttpMinor => firstMinor p ch .reqHttpMinor
  | .reqHttpMinor =>
    if ch = CR then .next { p with state := .reqLineAlmostDone }
    else if ch = LF then .next { p with state := .headerFieldStart }
    else moreMinor p ch
  | .reqLineAlmostDone => .expect p ch LF .headerFieldStart .lfExpected
  | _ => .error p .invalidInternalState

/-- The header state one more character `c` of a word leads to. -/
def matchWord (p : HttpParser) (c : UInt8) (word : Str) (matched : HeaderState) : HttpParser :=
  let p := { p with index := p.index + 1 }
  if word.length < p.index ∨ c ≠ word.getD p.index 0 then { p with headerState := .general }
  else if p.index = word.length - 1 then { p with headerState := matched }
  else p

/-- The header state after a character of a header field name. -/
def headerFieldChar (p : HttpParser) (ch c : UInt8) : HttpParser :=
  match p.headerState with
  | .C =>
    { p with index := p.index + 1, headerState := if c = 'o'.toUInt8 then .CO else .general }
  | .CO =>
    { p with index := p.index + 1, headerState := if c = 'n'.toUInt8 then .CON else .general }
  | .CON =>
    { p with
      index := p.index + 1
      headerState :=
        if c = 'n'.toUInt8 then .matchingConnection
        else if c = 't'.toUInt8 then .matchingContentLength
        else .general }
  | .matchingConnection => matchWord p c (str "connection") .connection
  | .matchingProxyConnection => matchWord p c (str "proxy-connection") .connection
  | .matchingContentLength => matchWord p c (str "content-length") .contentLength
  | .matchingTransferEncoding => matchWord p c (str "transfer-encoding") .transferEncoding
  | .matchingUpgrade => matchWord p c (str "upgrade") .upgrade
  | .connection | .contentLength | .transferEncoding | .upgrade =>
    if ch ≠ ' '.toUInt8 then { p with headerState := .general } else p
  | _ => p

/-- The header state after the first character of a header field name. -/
def headerFieldFirst (c : UInt8) : HeaderState :=
  if c = 'c'.toUInt8 then .C
  else if c = 'p'.toUInt8 then .matchingProxyConnection
  else if c = 't'.toUInt8 then .matchingTransferEncoding
  else if c = 'u'.toUInt8 then .matchingUpgrade
  else .general

/-- The states of a header field name. -/
def switchHeaderField (p : HttpParser) (ch : UInt8) : Step :=
  match p.state with
  | .headerFieldStart =>
    if ch = CR then .next { p with state := .headersAlmostDone }
    else if ch = LF then .again { p with state := .headersAlmostDone }
    else
      let c := token ch
      if c = 0 then .error p .invalidHeaderToken
      else
        .go (some .headerField)
          { p with index := 0, state := .headerField, headerState := headerFieldFirst c } .none .next
  | .headerField =>
    let c := token ch
    if c ≠ 0 then .next (headerFieldChar p ch c)
    else if ch = ':'.toUInt8 then
      .go none { p with state := .headerValueDiscardWs } (.data .headerField false true) .next
    else if ch = CR then
      .go none { p with state := .headerAlmostDone } (.data .headerField false true) .next
    else if ch = LF then
      .go none { p with state := .headerFieldStart } (.data .headerField false true) .next
    else .error p .invalidHeaderToken
  | _ => .error p .invalidInternalState

/-- `s_header_value_start`, where `s_header_value_discard_ws` falls through to. -/
def headerValueStart (p : HttpParser) (ch : UInt8) : Step :=
  let p := { p with state := .headerValue, index := 0 }
  let c := lower ch
  match p.headerState with
  | .upgrade =>
    .go (some .headerValue)
      { p with flags := { p.flags with upgrade := true }, headerState := .general } .none .next
  | .transferEncoding =>
    .go (some .headerValue)
      { p with
        headerState :=
          if c = 'c'.toUInt8 then .matchingTransferEncodingChunked else .general } .none .next
  | .contentLength =>
    if !isNum ch then .error p .invalidContentLength
    else .go (some .headerValue) { p with contentLength := digit ch } .none .next
  | .connection =>
    .go (some .headerValue)
      { p with
        headerState :=
          if c = 'k'.toUInt8 then .matchingConnectionKeepAlive
          else if c = 'c'.toUInt8 then .matchingConnectionClose
          else .general } .none .next
  | _ => .go (some .headerValue) { p with headerState := .general } .none .next

/-- The states before a header value. -/
def switchHeaderValueStart (p : HttpParser) (ch : UInt8) : Step :=
  match p.state with
  | .headerValueDiscardWs =>
    if ch = ' '.toUInt8 ∨ ch = 9 then .next p
    else if ch = CR then .next { p with state := .headerValueDiscardWsAlmostDone }
    else if ch = LF then .next { p with state := .headerValueDiscardLws }
    else headerValueStart p ch
  | .headerValueStart => headerValueStart p ch
  | .headerValueDiscardWsAlmostDone => .expect p ch LF .headerValueDiscardLws
  | .headerValueDiscardLws =>
    if ch = ' '.toUInt8 ∨ ch = 9 then .next { p with state := .headerValueDiscardWs }
    else
      .go (some .headerValue) { p with state := .headerFieldStart }
        (.data .headerValue false false) .again
  | _ => .error p .invalidInternalState

/-- One more digit of a length in base `base`, or nothing on an overflow. -/
def accumulate (base len d : Nat) : Option Nat :=
  if (ULLONG_MAX - base) / base < len then none else some (len * base + d)

/-- The character of a header value that is not its end. -/
def headerValueChar (p : HttpParser) (ch : UInt8) : Step :=
  let c := lower ch
  match p.headerState with
  | .general | .connection | .transferEncoding => .next p
  | .contentLength =>
    if ch = ' '.toUInt8 then .next p
    else if !isNum ch then .error p .invalidContentLength
    else match accumulate 10 p.contentLength (digit ch) with
      | none => .error p .invalidContentLength
      | some t => .next { p with contentLength := t }
  | .matchingTransferEncodingChunked =>
    .next (matchWord p c (str "chunked") .transferEncodingChunked)
  | .matchingConnectionKeepAlive => .next (matchWord p c (str "keep-alive") .connectionKeepAlive)
  | .matchingConnectionClose => .next (matchWord p c (str "close") .connectionClose)
  | .transferEncodingChunked | .connectionKeepAlive | .connectionClose =>
    .next (if ch ≠ ' '.toUInt8 then { p with headerState := .general } else p)
  | _ => .next { p with headerState := .general }

/-- The flags a finished header sets. -/
def headerFlags (p : HttpParser) : Flags :=
  match p.headerState with
  | .connectionKeepAlive => { p.flags with connectionKeepAlive := true }
  | .connectionClose => { p.flags with connectionClose := true }
  | .transferEncodingChunked => { p.flags with chunked := true }
  | _ => p.flags

/-- The states of a header value and of the end of a header. -/
def switchHeaderValue (p : HttpParser) (ch : UInt8) : Step :=
  match p.state with
  | .headerValue =>
    if ch = CR then
      .go none { p with state := .headerAlmostDone } (.data .headerValue false true) .next
    else if ch = LF then
      .go none { p with state := .headerAlmostDone } (.data .headerValue false false) .again
    else headerValueChar p ch
  | .headerAlmostDone => .expect p ch LF .headerValueLws
  | .headerValueLws =>
    if ch = ' '.toUInt8 ∨ ch = 9 then .again { p with state := .headerValueStart }
    else .again { p with flags := headerFlags p, state := .headerFieldStart }
  | _ => .error p .invalidInternalState

/-- The message ends with this byte: `NEW_MESSAGE()` and `on_message_complete`. -/
def finish (p : HttpParser) (after : After := .next) : Step :=
  .go none { p with state := newMessage p } (.notify .messageComplete) after

/-- The states of the end of the headers. -/
def switchHeadersEnd (p : HttpParser) (ch : UInt8) : Step :=
  match p.state with
  | .headersAlmostDone =>
    if ch ≠ LF then .error p .strict
    else if p.flags.trailing then finish p
    else
      .go none
        { p with
          state := .headersDone
          upgrade := p.flags.upgrade || p.method == .CONNECT } .headersComplete .again
  | .headersDone =>
    if ch ≠ LF then .error p .strict
    else
      let p := { p with nread := 0 }
      if p.upgrade then finish p .ret
      else if p.flags.skipbody then finish p
      else if p.flags.chunked then .next { p with state := .chunkSizeStart }
      else if p.contentLength = 0 then finish p
      else if p.contentLength ≠ ULLONG_MAX then .next { p with state := .bodyIdentity }
      else if p.type = .request ∨ !messageNeedsEof p then finish p
      else .next { p with state := .bodyIdentityEof }
  | _ => .error p .invalidInternalState

/-- The states of a chunked body between the data of two chunks. -/
def switchChunk (p : HttpParser) (ch : UInt8) : Step :=
  match p.state with
  | .chunkSizeStart =>
    match unhex ch with
    | none => .error p .invalidChunkSize
    | some v => .next { p with contentLength := v, state := .chunkSize }
  | .chunkSize =>
    if ch = CR then .next { p with state := .chunkSizeAlmostDone }
    else match unhex ch with
      | none =>
        if ch = ';'.toUInt8 ∨ ch = ' '.toUInt8 then .next { p with state := .chunkParameters }
        else .error p .invalidChunkSize
      | some v =>
        match accumulate 16 p.contentLength v with
        | none => .error p .invalidContentLength
        | some t => .next { p with contentLength := t }
  | .chunkParameters =>
    if ch = CR then .next { p with state := .chunkSizeAlmostDone } else .next p
  | .chunkSizeAlmostDone =>
    if ch ≠ LF then .error p .strict
    else
      let p := { p with nread := 0 }
      if p.contentLength = 0 then
        .next { p with flags := { p.flags with trailing := true }, state := .headerFieldStart }
      else .next { p with state := .chunkData }
  | .chunkDataAlmostDone =>
    if ch ≠ CR then .error p .strict
    else .go none { p with state := .chunkDataDone } (.data .body false true) .next
  | .chunkDataDone =>
    if ch ≠ LF then .error p .strict
    else .next { p with nread := 0, state := .chunkSizeStart }
  | _ => .error p .invalidInternalState

/-- The states of the data of a body.  The source steps over the part of the block that has
arrived at once; one byte at a time comes to the same, because no callback runs before its
last byte (`loop_block`). -/
def switchBody (p : HttpParser) : Step :=
  match p.state with
  | .bodyIdentity =>
    let p := { p with contentLength := p.contentLength - 1 }
    if p.contentLength = 0 then
      .go (some .body) { p with state := .messageDone } (.data .body true false) .again
    else .go (some .body) p .none .next
  | .bodyIdentityEof => .go (some .body) p .none .next
  | .chunkData =>
    let p := { p with contentLength := p.contentLength - 1 }
    if p.contentLength = 0 then
      .go (some .body) { p with state := .chunkDataAlmostDone } .none .next
    else .go (some .body) p .none .next
  | .messageDone => finish p
  | _ => .error p .invalidInternalState

/-- The states before it is known whether a request or a response comes, and the end of a
connection that is not kept. -/
def switchStart (p : HttpParser) (ch : UInt8) : Step :=
  match p.state with
  | .dead => if ch = CR ∨ ch = LF then .next p else .error p .closedConnection
  | .startReqOrRes =>
    if ch = CR ∨ ch = LF then .next p
    else
      let p := { p with flags := {}, contentLength := ULLONG_MAX }
      if ch = 'H'.toUInt8 then
        .go none { p with state := .resOrRespH } (.notify .messageBegin) .next
      else .again { p with type := .request, state := .startReq }
  | .resOrRespH =>
    if ch = 'T'.toUInt8 then .next { p with type := .response, state := .resHT }
    else if ch ≠ 'E'.toUInt8 then .error p .invalidConstant
    else .next { p with type := .request, method := .HEAD, index := 2, state := .reqMethod }
  | _ => .error p .invalidInternalState

/-- **The `switch` of `http_parser_execute`.** -/
def switch (p : HttpParser) (ch : UInt8) : Step :=
  match p.state with
  | .dead | .startReqOrRes | .resOrRespH => switchStart p ch
  | .startRes | .resH | .resHT | .resHTT | .resHTTP | .resFirstHttpMajor | .resHttpMajor
  | .resFirstHttpMinor | .resHttpMinor | .resFirstStatusCode | .resStatusCode | .resStatusStart
  | .resStatus | .resLineAlmostDone => switchResponseLine p ch
  | .startReq | .reqMethod | .reqSpacesBeforeUrl | .reqSchema | .reqSchemaSlash
  | .reqSchemaSlashSlash | .reqServerStart | .reqServer | .reqServerWithAt | .reqPath
  | .reqQueryStringStart | .reqQueryString | .reqFragmentStart | .reqFragment =>
    switchRequestTarget p ch
  | .reqHttpStart | .reqHttpH | .reqHttpHT | .reqHttpHTT | .reqHttpHTTP | .reqFirstHttpMajor
  | .reqHttpMajor | .reqFirstHttpMinor | .reqHttpMinor | .reqLineAlmostDone =>
    switchRequestVersion p ch
  | .headerFieldStart | .headerField => switchHeaderField p ch
  | .headerValueDiscardWs | .headerValueDiscardWsAlmostDone | .headerValueDiscardLws
  | .headerValueStart => switchHeaderValueStart p ch
  | .headerValue | .headerAlmostDone | .headerValueLws => switchHeaderValue p ch
  | .headersAlmostDone | .headersDone => switchHeadersEnd p ch
  | .chunkSizeStart | .chunkSize | .chunkParameters | .chunkSizeAlmostDone
  | .chunkDataAlmostDone | .chunkDataDone => switchChunk p ch
  | .bodyIdentity | .bodyIdentityEof | .chunkData | .messageDone => switchBody p

/-! ## The loop over the bytes of one read -/

/-- What a callback does: its return value, whether it called `http_parser_pause(parser, 1)`, and
the new state of the object behind `parser->data`. -/
structure Reply (σ : Type) where
  code : Int
  pause : Bool
  user : σ

/-- `http_parser_settings`; a callback that is not set is `none`. -/
structure Settings (σ : Type) where
  onMessageBegin : Option (HttpParser → σ → Reply σ)
  onUrl : Option (HttpParser → Str → σ → Reply σ)
  onStatus : Option (HttpParser → Str → σ → Reply σ)
  onHeaderField : Option (HttpParser → Str → σ → Reply σ)
  onHeaderValue : Option (HttpParser → Str → σ → Reply σ)
  onHeadersComplete : Option (HttpParser → σ → Reply σ)
  onBody : Option (HttpParser → Str → σ → Reply σ)
  onMessageComplete : Option (HttpParser → σ → Reply σ)

variable {σ : Type}

/-- The reply where a callback is not set. -/
def Reply.skip (u : σ) : Reply σ := ⟨0, false, u⟩

namespace Settings

/-- `settings->on_##FOR(parser, FOR##_mark, LEN)`, if it is set. -/
def data (cfg : Settings σ) (e : Elem) (p : HttpParser) (text : Str) (u : σ) : Reply σ :=
  let cb := match e with
    | .url => cfg.onUrl
    | .status => cfg.onStatus
    | .headerField => cfg.onHeaderField
    | .headerValue => cfg.onHeaderValue
    | .body => cfg.onBody
  match cb with
  | none => .skip u
  | some cb => cb p text u

/-- `settings->on_##FOR(parser)`, if it is set. -/
def notify (cfg : Settings σ) (n : Notify) (p : HttpParser) (u : σ) : Reply σ :=
  let cb := match n with
    | .messageBegin => cfg.onMessageBegin
    | .messageComplete => cfg.onMessageComplete
  match cb with
  | none => .skip u
  | some cb => cb p u

def headersComplete (cfg : Settings σ) (p : HttpParser) (u : σ) : Reply σ :=
  match cfg.onHeadersComplete with
  | none => .skip u
  | some cb => cb p u

end Settings

/-- `HPE_CB_##FOR` of a data callback. -/
def Elem.errno : Elem → Errno
  | .url => .cbUrl
  | .status => .cbStatus
  | .headerField => .cbHeaderField
  | .headerValue => .cbHeaderValue
  | .body => .cbBody

def Notify.errno : Notify → Errno
  | .messageBegin => .cbMessageBegin
  | .messageComplete => .cbMessageComplete

/-- The error number after a callback: its failure hides a pause. -/
def Reply.settle (r : Reply σ) (failed : Errno) (p : HttpParser) : HttpParser :=
  if r.code ≠ 0 then { p with httpErrno := failed }
  else if r.pause then parserPause p true
  else p

/-- `switch (settings->on_headers_complete(parser))`: 1 says that the message has no body. -/
def Reply.settleHeaders (r : Reply σ) (p : HttpParser) : HttpParser :=
  if r.code = 0 then (if r.pause then parserPause p true else p)
  else
    let p := if r.pause then parserPause p true else p
    if r.code = 1 then { p with flags := { p.flags with skipbody := true } }
    else { p with httpErrno := .cbHeadersComplete }

/-- The local variables of `http_parser_execute`: a mark that is set comes with the bytes from it
to the current byte. -/
structure Locals (σ : Type) where
  parser : HttpParser
  user : σ
  marks : Elem → Option Str

namespace Locals

/-- `MARK(e)`: a mark that is set already stays. -/
def mark (f : Locals σ) : Option Elem → Locals σ
  | none => f
  | some e => { f with marks := Function.update f.marks e (some ((f.marks e).getD [])) }

/-- The current byte is behind every mark. -/
def advance (f : Locals σ) (ch : UInt8) : Locals σ :=
  { f with marks := fun e => (f.marks e).map (· ++ [ch]) }

/-- `CALLBACK_DATA_(e, LEN, ER)` without the return. -/
def callData (cfg : Settings σ) (e : Elem) (last : Str) (f : Locals σ) : Locals σ :=
  match f.marks e with
  | none => f
  | some text =>
    let r := cfg.data e f.parser (text ++ last) f.user
    { parser := r.settle e.errno f.parser
      user := r.user
      marks := Function.update f.marks e none }

/-- `CALLBACK_NOTIFY_(n, ER)` without the return. -/
def callNotify (cfg : Settings σ) (n : Notify) (f : Locals σ) : Locals σ :=
  let r := cfg.notify n f.parser f.user
  { f with parser := r.settle n.errno f.parser, user := r.user }

def callHeadersComplete (cfg : Settings σ) (f : Locals σ) : Locals σ :=
  let r := cfg.headersComplete f.parser f.user
  { f with parser := r.settleHeaders f.parser, user := r.user }

end Locals

/-- What becomes of a byte: the loop goes on behind it, or `http_parser_execute` returns, with the
byte among the used ones or not. -/
inductive Outcome (σ : Type)
  | next (f : Locals σ)
  | stop (used : Nat) (f : Locals σ)

/-- After a callback: it failed or paused the parser, and `http_parser_execute` returns with
`used` of the byte. -/
def checkErrno (used : Nat) (p : HttpParser) : Option Nat :=
  if p.httpErrno ≠ .ok then some used else none

/-- The callback of a step. -/
def runCall (cfg : Settings σ) (ch : UInt8) (f : Locals σ) : Call → Locals σ × Option Nat
  | .none => (f, none)
  | .data e withByte consume =>
    let f := f.callData cfg e (if withByte then [ch] else [])
    (f, checkErrno (if consume then 1 else 0) f.parser)
  | .notify n =>
    let f := f.callNotify cfg n
    (f, checkErrno 1 f.parser)
  | .headersComplete =>
    let f := f.callHeadersComplete cfg
    (f, checkErrno 0 f.parser)

/-- One byte, with `fuel` passes through the switch; `reexecute_byte` never needs more than four
(`byte_passes`). -/
def byte (cfg : Settings σ) : Nat → UInt8 → Locals σ → Outcome σ
  | 0, _, f => .stop 0 { f with parser := { f.parser with httpErrno := .invalidInternalState } }
  | fuel + 1, ch, f =>
    match switch f.parser ch with
    | .error p e => .stop 0 { f with parser := { p with httpErrno := e } }
    | .go m p call after =>
      match runCall cfg ch (({ f with parser := p } : Locals σ).mark m) call with
      | (f, some used) => .stop used f
      | (f, none) => match after with
        | .next => .next (f.advance ch)
        | .again => byte cfg fuel ch f
        | .ret => .stop 1 f

/-- `++parser->nread` in the states of a header. -/
def countByte (p : HttpParser) : HttpParser :=
  if parsingHeader p.state then { p with nread := p.nread + 1 } else p

/-- The passes a byte takes at most. -/
def passes : Nat := 4

/-- The body of the `for` loop. -/
def stepByte (cfg : Settings σ) (ch : UInt8) (f : Locals σ) : Outcome σ :=
  let p := countByte f.parser
  if parsingHeader f.parser.state ∧ HTTP_MAX_HEADER_SIZE < p.nread then
    .stop 0 { f with parser := { p with httpErrno := .headerOverflow } }
  else byte cfg passes ch { f with parser := p }

/-- The `for` loop: `none` when it ran out of bytes, else how many it used. -/
def loop (cfg : Settings σ) : Str → Locals σ → Option Nat × Locals σ
  | [], f => (none, f)
  | ch :: rest, f =>
    match stepByte cfg ch f with
    | .next f' =>
      let r := loop cfg rest f'
      (r.1.map (· + 1), r.2)
    | .stop used f' => (some used, f')

/-- The states that are inside the URL of a request. -/
def State.inUrl : State → Bool
  | .reqPath | .reqSchema | .reqSchemaSlash | .reqSchemaSlashSlash | .reqServerStart | .reqServer
  | .reqServerWithAt | .reqQueryStringStart | .reqQueryString | .reqFragmentStart
  | .reqFragment => true
  | _ => false

/-- The marks at the start of a read: an element that was cut goes on with its first byte.
The body mark is set by the body states. -/
def initialMarks (s : State) (e : Elem) : Option Str :=
  match e with
  | .headerField => if s = .headerField then some [] else none
  | .headerValue => if s = .headerValue then some [] else none
  | .url => if s.inUrl then some [] else none
  | .status => if s = .resStatus then some [] else none
  | .body => none

/-- The callbacks for the marks left over at the end of the bytes; the first that fails or pauses
ends them. -/
def flushMarks (cfg : Settings σ) : List Elem → Locals σ → Locals σ
  | [], f => f
  | e :: es, f =>
    match f.marks e with
    | none => flushMarks cfg es f
    | some _ =>
      let f := f.callData cfg e []
      if f.parser.httpErrno ≠ .ok then f else flushMarks cfg es f

/-- The order of the left-over marks. -/
def flushOrder : List Elem := [.headerField, .headerValue, .url, .body, .status]

/-- `http_parser_execute` on no bytes, which says that the connection ended. -/
def executeEof (cfg : Settings σ) (p : HttpParser) (u : σ) : Nat × HttpParser × σ :=
  match p.state with
  | .bodyIdentityEof =>
    let f := (⟨p, u, fun _ => none⟩ : Locals σ).callNotify cfg .messageComplete
    (0, f.parser, f.user)
  | .dead | .startReqOrRes | .startRes | .startReq => (0, p, u)
  | _ => (1, { p with httpErrno := .invalidEofState }, u)

/-- **`http_parser_execute`**: the number of bytes used, the parser and the object behind it. -/
def execute (cfg : Settings σ) (p : HttpParser) (u : σ) (bytes : Str) : Nat × HttpParser × σ :=
  if p.httpErrno ≠ .ok then (0, p, u)
  else if bytes = [] then executeEof cfg p u
  else
    match loop cfg bytes ⟨p, u, initialMarks p.state⟩ with
    | (some used, f) => (used, f.parser, f.user)
    | (none, f) =>
      let f := flushMarks cfg flushOrder f
      (bytes.length, f.parser, f.user)

end Wsrv.Http
