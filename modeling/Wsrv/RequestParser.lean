import Wsrv.HttpParser
import Wsrv.Message

/-!
# The request parser

`RequestParser` collects what the HTTP parser reports: the callbacks append the
text of a header or of the body to what they have, and pause the parser at the
end of the headers and at the end of the message.  `parse` takes the bytes of
one read and says whether the message is complete.
-/

namespace Wsrv

/-- The members the callbacks write. -/
structure RequestFields where
  currentHeaderField : Str
  currentHeaderValue : Str
  url : Str
  body : Str
  protocol : Str
  headers : Dictionary
  isComplete : Bool

namespace RequestFields

/-- `headers_[current_header_field_] = current_header_value_`, once the value is known. -/
def flushHeader (rp : RequestFields) : RequestFields :=
  if rp.currentHeaderValue = [] then rp
  else
    { rp with
      headers := rp.headers.insert rp.currentHeaderField rp.currentHeaderValue
      currentHeaderField := []
      currentHeaderValue := [] }

def onMessageBegin (rp : RequestFields) : RequestFields := { rp with isComplete := false }

def onMessageComplete (rp : RequestFields) : RequestFields := { rp with isComplete := true }

def onHeaderField (data : Str) (rp : RequestFields) : RequestFields :=
  let rp := rp.flushHeader
  { rp with currentHeaderField := rp.currentHeaderField ++ data }

def onHeaderValue (data : Str) (rp : RequestFields) : RequestFields :=
  { rp with currentHeaderValue := rp.currentHeaderValue ++ data }

def onHeadersComplete (parser : Http.HttpParser) (rp : RequestFields) : RequestFields :=
  { rp.flushHeader with
    protocol := str "HTTP/" ++ toString parser.httpMajor ++ str "." ++ toString parser.httpMinor }

/-- `url_.assign(data, size)`. -/
def onUrl (data : Str) (rp : RequestFields) : RequestFields := { rp with url := data }

def onBody (data : Str) (rp : RequestFields) : RequestFields := { rp with body := rp.body ++ data }

end RequestFields

namespace RequestParser

open Http in
/-- `settings_`: two callbacks pause the parser, and `on_status` is not set. -/
def settings : Settings RequestFields where
  onMessageBegin := some fun _ rp => ⟨0, false, rp.onMessageBegin⟩
  onUrl := some fun _ data rp => ⟨0, false, rp.onUrl data⟩
  onStatus := none
  onHeaderField := some fun _ data rp => ⟨0, false, rp.onHeaderField data⟩
  onHeaderValue := some fun _ data rp => ⟨0, false, rp.onHeaderValue data⟩
  onHeadersComplete := some fun parser rp => ⟨0, true, rp.onHeadersComplete parser⟩
  onBody := some fun _ data rp => ⟨0, false, rp.onBody data⟩
  onMessageComplete := some fun _ rp => ⟨0, true, rp.onMessageComplete⟩

/-- The result codes of `parse`. -/
inductive Result
  | ok | error | indeterminate
  deriving DecidableEq, Repr

end RequestParser

structure RequestParser where
  parser : Http.HttpParser
  fields : RequestFields

namespace RequestParser

/-- The constructor.  It leaves `is_complete_` uninitialised, `junk` is what happens to be
there. -/
def new (junk : Bool) : RequestParser where
  parser := Http.init .request
  fields :=
    { currentHeaderField := [], currentHeaderValue := [], url := [], body := [], protocol := []
      headers := ∅, isComplete := junk }

/-- `is_complete_ ? HTTP_PARSER_OK : HTTP_PARSER_INDETERMINATE`. -/
def resultOf (rp : RequestFields) : Result :=
  if rp.isComplete then .ok else .indeterminate

/-- **`RequestParser::parse`.**  The second run of the parser, on the byte that ends the headers
and the rest of the read, is not checked for an error. -/
def parse (rp : RequestParser) (data : Str) : Result × RequestParser :=
  let (used, parser, fields) := Http.execute settings rp.parser rp.fields data
  let error := parser.httpErrno
  let parser := if error = .paused then Http.parserPause parser false else parser
  if used < data.length then
    if error = .paused then
      if fields.isComplete then (resultOf fields, ⟨parser, fields⟩)
      else
        let (_, parser, fields) := Http.execute settings parser fields (data.drop used)
        (resultOf fields, ⟨parser, fields⟩)
    else (.error, ⟨parser, fields⟩)
  else (resultOf fields, ⟨parser, fields⟩)

/-- The reads of a connection up to the first that completes the message or fails. -/
def feed (rp : RequestParser) : List Str → Result × RequestParser
  | [] => (.indeterminate, rp)
  | data :: rest =>
    match rp.parse data with
    | (.indeterminate, rp) => feed rp rest
    | done => done

end RequestParser

end Wsrv
