import Wsrv.Util
import Wsrv.XmlCursor

/-!
# The XML pull parser

`nextToken` reads one token: it tries the parsers for what may follow a `<` one
after the other, and `parseCharacters` where there is none.  When none of them
succeeds the token stays the one of the call before.  `next` goes on to the next
token that is an event.

`event_` has no value before the first event.
-/

namespace Wsrv

open Effect ReadAheadStreamAdapter

/-! ## State -/

/-- `XmlPullParser::TokenType`. -/
inductive TokenType
  | CDSECT | COMMENT | DOCDECL | IGNORABLE_WHITESPACE | PROCESSING_INSTRUCTION
  | START_DOCUMENT | END_DOCUMENT | START_TAG | END_TAG | TEXT
  deriving DecidableEq, Repr

/-- `XmlPullParser::Element`. -/
structure Element where
  name : Str
  pfx : Str
  ns : Str

/-- The members of `XmlPullParser`; the stacks have their tops first. -/
structure XmlPullParser where
  cursor : ReadAheadStreamAdapter
  token : TokenType := .START_DOCUMENT
  event : Option TokenType := none
  attributes : Dictionary := ∅
  name : Str := []
  pfx : Str := []
  localName : Str := []
  text : Str := []
  ns : Str := []
  isEmptyElementTag : Bool := false
  isWhitespace : Bool := true
  depth : Int := 0
  nsStack : List Dictionary := []
  elementStack : List Element := []
  processNs : Bool := false

abbrev Parser := Effect XmlPullParser XmlStop

namespace XmlPullParser

/-- A parser of a document. -/
def ofStream (doc : Str) (ns : Bool := false) : XmlPullParser :=
  { cursor := { input := doc }, processNs := ns }

/-- An operation of `cursor_`. -/
def onCursor {α : Type} (x : Cursor α) : Parser α := fun s =>
  ((x s.cursor).1, { s with cursor := (x s.cursor).2 })

def fatal {α : Type} (msg : String) : Parser α := do
  let s ← get
  throw (.fatal (str msg) s.cursor.line s.cursor.column)

def parseAttributesError : String := "Error parsing attribute list"

/-! ## Names and references -/

def isValidNameChar (c : UInt8) (idx : Nat) : Bool :=
  if idx = 0 then isalpha c || c == '_'.toUInt8 || c == ':'.toUInt8
  else isalnum c || c == '-'.toUInt8 || c == '_'.toUInt8 || c == '.'.toUInt8 || c == ':'.toUInt8

/-- `parseName`: the name, which is empty when it fails. -/
def parseName : Cursor Str :=
  sized fun n => whileNext (fun c name =>
    if isValidNameChar c name.length then return (true, name ++ [c])
    else do
      putback c
      return (false, name)) n []

def utf8Encode (utf : Nat) : Option Str :=
  let continuation (shift : Nat) : UInt8 := UInt8.ofNat ((utf >>> shift) % 64 + 0x80)
  if utf ≤ 0x7f then some [UInt8.ofNat utf]
  else if utf ≤ 0x7ff then some [UInt8.ofNat ((utf >>> 6) % 32 + 0xc0), continuation 0]
  else if utf ≤ 0xffff then
    some [UInt8.ofNat ((utf >>> 12) % 16 + 0xe0), continuation 6, continuation 0]
  else if utf ≤ 0x10ffff then
    some [UInt8.ofNat ((utf >>> 18) % 8 + 0xf0), continuation 12, continuation 6, continuation 0]
  else none

def isDigitOf (base : Nat) (c : UInt8) : Bool :=
  isdigit c || (base == 16 && decide ('a'.toUInt8 ≤ tolower c) && decide (tolower c ≤ 'f'.toUInt8))

/-- `std::stoul` on a few characters; `none` is `invalid_argument`. -/
def stoul (base : Nat) (s : Str) : Option Nat :=
  let (minus, digits) := splitSign (s.dropWhile isspace)
  let marked := base = 16 ∧ digits.head? = some '0'.toUInt8 ∧
    (digits.getD 1 0 = 'x'.toUInt8 ∨ digits.getD 1 0 = 'X'.toUInt8) ∧
    isDigitOf 16 (digits.getD 2 0) = true
  let digits := (if marked then digits.drop 2 else digits).takeWhile (isDigitOf base)
  let value := digits.foldl (fun n c => n * base + (hexDecode c).toNat) 0
  if digits = [] then none
  else some (if minus then (2 ^ 64 - value) % 2 ^ 64 else value)

/-- The loop of `escapeString`, which takes at most five characters and one more. -/
def escapeLoop : Nat → Str → Cursor Str
  | 0, quot => do
    let _ ← next
    return quot
  | n + 1, quot => do
    match ← next with
    | none => return quot
    | some c => if c = ';'.toUInt8 then return quot else escapeLoop n (quot ++ [c])

/-- What a reference stands for. -/
def reference (quot : Str) : Option Str :=
  if quot = str "amp" then some (str "&")
  else if quot = str "quot" then some (str "\"")
  else if quot = str "lt" then some (str "<")
  else if quot = str "gt" then some (str ">")
  else if quot = str "apos" then some (str "'")
  else if quot.length > 2 ∧ quot.head? = some '#'.toUInt8 then
    let number := if quot.getD 1 0 = 'x'.toUInt8 then stoul 16 (quot.drop 2)
      else stoul 10 (quot.drop 1)
    number.bind fun c => utf8Encode (c % 2 ^ 32)
  else none

/-- `escapeString`: what is appended to the value. -/
def escapeString : Cursor (Option Str) := do return reference (← escapeLoop 5 [])

/-! ## Attributes -/

/-- The variables of `parseAttributeValue`. -/
structure ValueScan where
  last : UInt8
  failed : Bool := false
  val : Str := []

def valueStep (oc c : UInt8) (v : ValueScan) : Cursor (Bool × ValueScan) := do
  if c = '&'.toUInt8 then
    match ← escapeString with
    | some t => return (true, { v with last := c, val := v.val ++ t })
    | none => return (false, { v with last := c, failed := true })
  else if c = '<'.toUInt8 then return (false, { v with last := c, failed := true })
  else if c = oc then return (false, { v with last := c })
  else return (true, { v with last := c, val := v.val ++ [c] })

/-- `parseAttributeValue`: whether it succeeds, and the value. -/
def parseAttributeValue : Cursor (Bool × Str) := do
  match ← next with
  | none => return (false, [])
  | some oc =>
    if oc ≠ '"'.toUInt8 ∧ oc ≠ '\''.toUInt8 then return (false, [])
    else
      let v ← sized fun n => whileNext (valueStep oc) n { last := oc }
      return (!v.failed && v.last == oc, v.val)

/-- The loop of `parseAttributeList`: what it returns, where `none` is a call of `fatal`. -/
def attributeLoop : Nat → Dictionary → Cursor (Option Bool × Dictionary)
  | 0, _ => throw .undefined
  | n + 1, attrs => do
    let attrName ← parseName
    if attrName = [] then return (some false, attrs)
    else
      skipWhite
      if !(← expect (str "=")) then return (none, attrs)
      else
        skipWhite
        let (ok, attrValue) ← parseAttributeValue
        if !ok then return (none, attrs)
        else
          let attrs := attrs.insertIfNew attrName attrValue
          skipWhite
          let c ← peek
          if c = '/'.toNat ∨ c = '>'.toNat ∨ c = '?'.toNat then return (some true, attrs)
          else if (← get).fail then return (some true, attrs)
          else attributeLoop n attrs

def parseAttributeList : Parser (Option Bool × Dictionary) := do
  modify fun s => { s with attributes := ∅ }
  onCursor (sized fun n => attributeLoop n ∅)

/-! ## Namespaces -/

/-- The local name, and the part before the first colon when there is one. -/
def breakDownName (name : Str) : Option Str × Str :=
  match find name ':'.toUInt8 with
  | none => (none, name)
  | some idx => (some (name.take idx), name.drop (idx + 1))

/-- The namespaces among some attributes. -/
def nsAttributes (attrs : List (Str × Str)) : Dictionary :=
  attrs.foldl (fun d kv =>
    let (pfx, localName) := breakDownName kv.1
    let nsPrefix :=
      if pfx = some (str "xmlns") then localName
      else if localName = str "xmlns" then str "default"
      else []
    if pfx.getD [] = [] ∨ nsPrefix = [] then d else d.insertIfNew nsPrefix kv.2) ∅

def parseNameSpaceAttributes : Parser Unit :=
  modify fun s => { s with nsStack := nsAttributes s.attributes.toList :: s.nsStack }

/-- `resolveUri`, on the stack. -/
def resolveUri : List Dictionary → Str → Str
  | [], _ => []
  | ns :: nsStack, nsPrefix =>
    let uri := ns[nsPrefix]?.getD []
    if uri ≠ [] then uri else resolveUri nsStack nsPrefix

def getNamespace (s : XmlPullParser) (pfx : Str) : Str :=
  if pfx = [] then resolveUri s.nsStack (str "xmlns") else resolveUri s.nsStack pfx

/-- `breakDownName(name_, prefix_, local_name_)`. -/
def setNames (s : XmlPullParser) : XmlPullParser :=
  { s with pfx := (breakDownName s.name).1.getD s.pfx, localName := (breakDownName s.name).2 }

/-! ## What may begin a token -/

/-- The three bytes are negative as characters, so that the first one that is read ends the call. -/
def parseBOM : Parser Bool := onCursor (expect [0xef, 0xbb, 0xbf])

def parseXmlDecl : Parser Bool := do
  if ← onCursor (expect (str "<?xml")) then
    onCursor skipWhite
    let (ok, _) ← parseAttributeList
    if ok ≠ some true then fatal parseAttributesError
    else
      onCursor skipWhite
      if !(← onCursor (expect (str "?>"))) then fatal parseAttributesError
      else return true
  else return false

def parseStartElement : Parser Bool := do
  let c ← onCursor peek
  if c < 0 ∨ c = '/'.toNat then return false
  else
    onCursor skipWhite
    let name ← onCursor parseName
    modify fun s => { s with name := name }
    if name = [] then fatal "Error parsing start element name"
    else
      onCursor skipWhite
      let (ok, attrs) ← parseAttributeList
      modify fun s => { s with attributes := attrs }
      if ok = none then fatal parseAttributesError
      else
        onCursor skipWhite
        if (← get).processNs then
          parseNameSpaceAttributes
          modify setNames
          modify fun s => { s with ns := getNamespace s s.pfx }
        else modify fun s => { s with localName := s.name }
        modify fun s => { s with elementStack := ⟨s.localName, s.pfx, s.ns⟩ :: s.elementStack }
        if ← onCursor (expect (str "/>")) then
          modify fun s => { s with isEmptyElementTag := true }
          return true
        else if ← onCursor (expect (str ">")) then
          modify fun s => { s with isEmptyElementTag := false }
          return true
        else return false

def parseEndElement : Parser Bool := do
  let c ← onCursor peek
  if c < 0 then return false
  else if c = '/'.toNat then
    let _ ← onCursor read
    onCursor skipWhite
    let name ← onCursor parseName
    modify fun s => { s with name := name }
    if name = [] then fatal "Error parsing end element name"
    else
      onCursor skipWhite
      if ← onCursor (expect (str ">")) then return true
      else fatal "Invalid end element tag"
  else return false

/-- The variables of `parseCharacters`. -/
structure TextScan where
  text : Str := []
  isWhitespace : Bool := true
  failed : Bool := false

def textStep (c : UInt8) (t : TextScan) : Cursor (Bool × TextScan) := do
  if c = CR then return (true, t)
  else if c = '<'.toUInt8 then
    putback c
    return (false, t)
  else if c = '&'.toUInt8 then
    match ← escapeString with
    | some r => return (true, { t with isWhitespace := false, text := t.text ++ r })
    | none => return (false, { t with isWhitespace := false, failed := true })
  else
    let white := c = ' '.toUInt8 ∨ c = LF
    return (true, { t with isWhitespace := t.isWhitespace && white, text := t.text ++ [c] })

def parseCharacters : Parser Bool := do
  let t ← onCursor (sized fun n => whileNext textStep n {})
  modify fun s => { s with text := t.text, isWhitespace := t.isWhitespace }
  if t.failed then fatal "Escape string parsing error"
  else return t.text ≠ []

/-- Up to the bracket that closes the subset of a document type. -/
def subsetStep (c : UInt8) (depth : Nat) : Cursor (Bool × Nat) :=
  let depth := if c = '['.toUInt8 then depth + 1 else if c = ']'.toUInt8 then depth - 1 else depth
  return (depth ≠ 0, depth)

def docTypeStep (c : UInt8) (_ : Unit) : Cursor (Bool × Unit) := do
  if c = '>'.toUInt8 then return (false, ())
  else if c = '['.toUInt8 then
    let _ ← sized fun n => whileNext subsetStep n 1
    return (true, ())
  else return (true, ())

def parseDocType : Parser Bool := do
  if ← onCursor (expect (str "!DOCTYPE")) then
    onCursor (sized fun n => whileNext docTypeStep n ())
    return true
  else return false

/-- The text, and whether the section is closed. -/
def cdataStep (c : UInt8) (t : Str × Bool) : Cursor (Bool × Str × Bool) := do
  if c ≠ ']'.toUInt8 then return (true, t.1 ++ [c], false)
  else if ← expect (str "]>") then return (false, t.1, true)
  else return (true, t.1, false)

def parseCData : Parser Bool := do
  if ← onCursor (expect (str "![CDATA[")) then
    let t ← onCursor (sized fun n => whileNext cdataStep n ([], false))
    modify fun s => { s with text := t.1 }
    return t.2
  else return false

/-- `while ( cursor_.next(c) && !cursor_.expect(end) ) text_ += c`. -/
def untilStep (ending : Str) (c : UInt8) (t : Str) : Cursor (Bool × Str) := do
  if ← expect ending then return (false, t) else return (true, t ++ [c])

def parseComment : Parser Bool := do
  if ← onCursor (expect (str "!--")) then
    let t ← onCursor (sized fun n => whileNext (untilStep (str "-->")) n [])
    modify fun s => { s with text := t }
    if (← get).cursor.fail then fatal "End of input reached while parsing comment"
    else return true
  else return false

def parsePI : Parser Bool := do
  if ← onCursor (expect (str "?")) then
    let t ← onCursor (sized fun n => whileNext (untilStep (str "?>")) n [])
    modify fun s => { s with text := t }
    return true
  else return false

/-! ## Tokens and events -/

/-- `ns_stack_.pop_back()`, `element_stack_.pop_back()` and what goes with them. -/
def closeElement (s : XmlPullParser) : XmlPullParser :=
  { s with
    token := .END_TAG
    depth := s.depth - 1
    nsStack := if s.processNs then s.nsStack.tail else s.nsStack
    elementStack := s.elementStack.tail }

/-- The first call of `nextToken` begins so. -/
def parseProlog : Parser Unit := do
  if (← get).token = .START_DOCUMENT then
    let _ ← parseBOM
    onCursor skipWhite
    let _ ← parseXmlDecl
    onCursor skipWhite

def setToken (token : TokenType) : Parser TokenType := do
  modify fun s => { s with token := token }
  return token

/-- An end tag that has been read closes the element on the top. -/
def matchEndTag : Parser TokenType := do
  modify fun s => if s.processNs then setNames s else { s with localName := s.name }
  let s ← get
  match s.elementStack with
  | e :: _ =>
    if s.localName = e.name then
      modify fun s => closeElement { s with ns := e.ns, pfx := e.pfx }
      return .END_TAG
    else throw (.fatal (str "Unmatched end tag '" ++ s.localName ++ str "'") s.cursor.line s.cursor.column)
  | [] =>
    throw (.fatal (str "Unmatched end tag '" ++ s.localName ++ str "'") s.cursor.line s.cursor.column)

/-- What follows a `<`. -/
def parseMarkup : Parser TokenType := do
  if ← parseStartElement then
    modify fun s => { s with depth := s.depth + 1 }
    setToken .START_TAG
  else if ← parseEndElement then matchEndTag
  else if ← parseDocType then setToken .DOCDECL
  else if ← parseCData then setToken .CDSECT
  else if ← parseComment then setToken .COMMENT
  else if ← parsePI then setToken .PROCESSING_INSTRUCTION
  else return (← get).token

/-- `nextToken` behind the prolog. -/
def readToken : Parser TokenType := do
  let s ← get
  if s.token = .START_TAG ∧ s.isEmptyElementTag = true then
    modify fun s => closeElement { s with isEmptyElementTag := false }
    return .END_TAG
  else
    match ← onCursor next with
    | none => setToken .END_DOCUMENT
    | some c =>
      if c = '<'.toUInt8 then parseMarkup
      else
        onCursor (putback c)
        if ← parseCharacters then setToken .TEXT else return (← get).token

def nextToken : Parser TokenType := do
  parseProlog
  readToken

/-- The tokens that are no events. -/
def TokenType.skipped (t : TokenType) : Bool :=
  t == .COMMENT || t == .DOCDECL || t == .PROCESSING_INSTRUCTION

/-- The event of a token, when it has one. -/
def TokenType.event? : TokenType → Option TokenType
  | .START_TAG => some .START_TAG
  | .END_TAG => some .END_TAG
  | .CDSECT => some .TEXT
  | .TEXT => some .TEXT
  | .END_DOCUMENT => some .END_DOCUMENT
  | _ => none

/-- The loop of `next`, with a bound on the tokens. -/
def nextLoop : Nat → Parser TokenType
  | 0 => throw .undefined
  | n + 1 => do
    let token ← nextToken
    if TokenType.skipped token then nextLoop n else return token

/-- `next`; every token that is skipped has taken a character. -/
def next : Parser (Option TokenType) := do
  let token ← nextLoop (← get).cursor.size
  modify fun s => { s with event := (TokenType.event? token).or s.event }
  return (← get).event

end XmlPullParser

end Wsrv
