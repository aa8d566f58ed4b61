import Wsrv.RequestParser

/-!
# The response parser

`ResponseParser` is the parser of the HTTP client.  Its callbacks are those of
`RequestParser` but for two: it keeps the status line's reason, and it does not
pause the parser at the end of the headers.
-/

namespace Wsrv

/-- The members the callbacks write. -/
structure ResponseFields where
  currentHeaderField : Str
  currentHeaderValue : Str
  url : Str
  body : Str
  statusMessage : Str
  headers : Dictionary
  isComplete : Bool

namespace ResponseFields

/-- `headers_[current_header_field_] = current_header_value_`, once the value is known. -/
def flushHeader (rp : ResponseFields) : ResponseFields :=
  if rp.currentHeaderValue = [] then rp
  else
    { rp with
      headers := rp.headers.insert rp.currentHeaderField rp.currentHeaderValue
      currentHeaderField := []
      currentHeaderValue := [] }

def onMessageBegin (rp : ResponseFields) : ResponseFields := { rp with isComplete := false }

def onMessageComplete (rp : ResponseFields) : ResponseFields := { rp with isComplete := true }

def onHeaderField (data : Str) (rp : ResponseFields) : ResponseFields :=
  let rp := rp.flushHeader
  { rp with currentHeaderField := rp.currentHeaderField ++ data }

def onStatus (data : Str) (rp : ResponseFields) : ResponseFields :=
  { rp with statusMessage := data }

def onHeaderValue (data : Str) (rp : ResponseFields) : ResponseFields :=
  { rp with currentHeaderValue := rp.currentHeaderValue ++ data }

def onHeadersComplete (rp : ResponseFields) : ResponseFields := rp.flushHeader

def onUrl (data : Str) (rp : ResponseFields) : ResponseFields := { rp with url := data }

def onBody (data : Str) (rp : ResponseFields) : ResponseFields :=
  { rp with body := rp.body ++ data }

end ResponseFields

structure ResponseParser where
  parser : Http.HttpParser
  fields : ResponseFields

namespace ResponseParser

open Http in
/-- `settings_`: one callback pauses the parser. -/
def settings : Settings ResponseFields where
  onMessageBegin := some fun _ rp => ⟨0, false, rp.onMessageBegin⟩
  onUrl := some fun _ data rp => ⟨0, false, rp.onUrl data⟩
  onStatus := some fun _ data rp => ⟨0, false, rp.onStatus data⟩
  onHeaderField := some fun _ data rp => ⟨0, false, rp.onHeaderField data⟩
  onHeaderValue := some fun _ data rp => ⟨0, false, rp.onHeaderValue data⟩
  onHeadersComplete := some fun _ rp => ⟨0, false, rp.onHeadersComplete⟩
  onBody := some fun _ data rp => ⟨0, false, rp.onBody data⟩
  onMessageComplete := some fun _ rp => ⟨0, true, rp.onMessageComplete⟩

open RequestParser (Result)

/-- The constructor.  It leaves `is_complete_` uninitialised, `junk` is what happens to be
there. -/
def new (junk : Bool) : ResponseParser where
  parser := Http.init .response
  fields :=
    { currentHeaderField := [], currentHeaderValue := [], url := [], body := []
      statusMessage := [], headers := ∅, isComplete := junk }

/-- `is_complete_ ? HTTP_PARSER_OK : HTTP_PARSER_INDETERMINATE`. -/
def resultOf (rp : ResponseFields) : Result := if rp.isComplete then .ok else .indeterminate

/-- **`ResponseParser::parse`**, line by line that of `RequestParser`. -/
def parse (rp : ResponseParser) (data : Str) : Result × ResponseParser :=
  let (used, parser, fields) := Http.execute settings rp.parser rp.fields data
  let error := parser.httpErrno
  let parser := if error = .paused then Http.parserPause parser false else parser
  if used < data.length then
    if error = .paused then
      if fields.isComplete then (resultOf fields, ⟨parser, fields⟩)
      else
        let (_, parser, fields) := Http.execute settings parser fields (data.drop used)
        (resultOf fields, ⟨parser, fields⟩)
    else (.error, ⟨parser, fields⟩)
  else (resultOf fields, ⟨parser, fields⟩)

/-- `ResponseParser::decode_message`, which always returns true. -/
def decodeMessage (rp : ResponseParser) (resp : HTTPServerResponse) : HTTPServerResponse :=
  { resp with
    headers := rp.fields.headers.toList.foldl (fun h hdr => h.insertIfNew hdr.1 hdr.2) resp.headers
    content := rp.fields.body
    status := rp.parser.statusCode }

end ResponseParser

end Wsrv
