import Wsrv.Numeral
import Wsrv.XmlPullParser

/-!
# Tracks

`GPXParser::parse` reads a GPX document with the pull parser.  It begins with
the event of a reader that has read nothing, which has no value yet, and goes on
until `END_DOCUMENT`.  The type `double`, the value of a numeral and the calendar
functions of the C library are parameters.
-/

namespace Wsrv

/-- What `parse` uses of the standard library. -/
structure GpxLibrary where
  Double : Type
  zero : Double
  /-- The number of a numeral; `none` where it is out of range. -/
  value : Str → Option Double
  Tm : Type
  /-- `ss >> std::get_time(&tm, "%Y-%m-%dT%H:%M:%S")`; `none` when the text does not begin with
  such a date. -/
  getTime : Str → Option Tm
  /-- The local time of a `std::tm` in seconds. -/
  mktime : Tm → Int
  gmtime : Int → Option Tm

/-- `std::stod`; `none` where it throws. -/
def GpxLibrary.stod (L : GpxLibrary) (s : Str) : Option L.Double := Wsrv.stod L.value s

variable (L : GpxLibrary)

structure TrackPoint where
  lat : L.Double := L.zero
  lon : L.Double := L.zero
  time : Option Int := none
  ele : Option L.Double := none

structure WayPoint where
  lat : L.Double := L.zero
  lon : L.Double := L.zero
  time : Option Int := none
  ele : Option L.Double := none
  name : Str := []
  desc : Str := []

structure TrackSegment where
  points : List (TrackPoint L) := []

structure Track where
  name : Str := []
  segments : List (TrackSegment L) := []

structure GPX where
  creator : Str := []
  waypoints : List (WayPoint L) := []
  tracks : List (Track L) := []

namespace GPXParser

/-- The local variables of `parse`, and the document that is filled. -/
structure Scan where
  gpx : GPX L := {}
  currentTrack : Track L := {}
  currentPt : TrackPoint L := {}
  currentWpt : WayPoint L := {}
  currentSeg : TrackSegment L := {}
  currentElement : Str := []
  inTrack : Bool := false
  inWaypoint : Bool := false
  inTrkpoint : Bool := false
  inTrkseg : Bool := false

variable {L}

/-- `parse_date_time`; the fraction of the second is read and not used. -/
def parseDateTime (src : Str) : Int :=
  match L.getTime src with
  | none => 0
  | some tm =>
    let localTime := L.mktime tm
    if localTime = -1 then 0
    else
      match L.gmtime localTime with
      | none => 0
      | some gmTm => localTime + (localTime - L.mktime gmTm)

/-- What the C library promises of its calendar: a `std::tm` stands for a second of the universal
time, which `gmtime` takes apart, and `mktime` subtracts what local time is ahead of it. -/
structure Calendar (L : GpxLibrary) (utc : L.Tm → Int) (ahead : Int → Int) : Prop where
  gmtime_utc : ∀ {t tm}, L.gmtime t = some tm → utc tm = t
  mktime_utc : ∀ {tm}, L.mktime tm ≠ -1 → L.mktime tm + ahead (L.mktime tm) = utc tm

/-- **The date is read as universal time**, where both local times that are compared are ahead of
it by the same. -/
theorem parseDateTime_utc {utc : L.Tm → Int} {ahead : Int → Int} (h : Calendar L utc ahead)
    {src : Str} {tm gmTm : L.Tm} (htm : L.getTime src = some tm) (hlocal : L.mktime tm ≠ -1)
    (hgm : L.gmtime (L.mktime tm) = some gmTm) (hgmLocal : L.mktime gmTm ≠ -1)
    (hsame : ahead (L.mktime gmTm) = ahead (L.mktime tm)) : parseDateTime (L := L) src = utc tm := by
  have hfirst := h.mktime_utc hlocal
  have hsecond := h.mktime_utc hgmLocal
  rw [h.gmtime_utc hgm, hsame] at hsecond
  simp only [parseDateTime, htm, if_neg hlocal, hgm]
  omega

def getAttribute (reader : XmlPullParser) (key : Str) : Str := reader.attributes[key]?.getD []

/-- `case XmlPullParser::START_TAG`; `none` where `std::stod` throws. -/
def startTag (reader : XmlPullParser) (st : Scan L) : Option (Scan L) :=
  let st := { st with currentElement := reader.localName }
  if st.currentElement = str "gpx" then
    some { st with gpx := { st.gpx with creator := getAttribute reader (str "creator") } }
  else if st.currentElement = str "trk" then some { st with inTrack := true, currentTrack := {} }
  else if st.currentElement = str "trkseg" then
    some { st with inTrkseg := true, currentSeg := {} }
  else if st.currentElement = str "wpt" then do
    let lat ← L.stod (getAttribute reader (str "lat"))
    let lon ← L.stod (getAttribute reader (str "lon"))
    return { st with inWaypoint := true, currentWpt := { lat := lat, lon := lon } }
  else if st.currentElement = str "trkpt" then do
    let lat ← L.stod (getAttribute reader (str "lat"))
    let lon ← L.stod (getAttribute reader (str "lon"))
    return { st with inTrkpoint := true, currentPt := { lat := lat, lon := lon } }
  else some st

/-- `case XmlPullParser::TEXT`. -/
def text (reader : XmlPullParser) (st : Scan L) : Option (Scan L) :=
  let text := reader.text
  if st.currentElement = str "ele" then
    if st.inWaypoint then
      (L.stod text).map fun ele => { st with currentWpt := { st.currentWpt with ele := some ele } }
    else if st.inTrkpoint then
      (L.stod text).map fun ele => { st with currentPt := { st.currentPt with ele := some ele } }
    else some st
  else if st.currentElement = str "time" then
    if st.inWaypoint then
      some { st with currentWpt := { st.currentWpt with time := some (parseDateTime (L := L) text) } }
    else if st.inTrkpoint then
      some { st with currentPt := { st.currentPt with time := some (parseDateTime (L := L) text) } }
    else some st
  else if st.currentElement = str "name" then
    if st.inWaypoint then some { st with currentWpt := { st.currentWpt with name := text } }
    else if st.inTrack then some { st with currentTrack := { st.currentTrack with name := text } }
    else some st
  else some st

/-- `case XmlPullParser::END_TAG`; the end of a segment ends the track too. -/
def endTag (reader : XmlPullParser) (st : Scan L) : Scan L :=
  let endTag := reader.localName
  let st :=
    if endTag = str "trkpt" then
      { st with
        currentSeg := { points := st.currentSeg.points ++ [st.currentPt] }, inTrkpoint := false }
    else if endTag = str "wpt" then
      { st with
        gpx := { st.gpx with waypoints := st.gpx.waypoints ++ [st.currentWpt] }, inWaypoint := false }
    else if endTag = str "trkseg" then
      { st with
        currentTrack :=
          { st.currentTrack with segments := st.currentTrack.segments ++ [st.currentSeg] }
        inTrack := false }
    else if endTag = str "trk" then
      { st with
        gpx := { st.gpx with tracks := st.gpx.tracks ++ [st.currentTrack] }, inTrack := false }
    else st
  { st with currentElement := [] }

/-- One turn of the loop, up to the call of `next`. -/
def handle (eventType : Option TokenType) (reader : XmlPullParser) (st : Scan L) :
    Option (Scan L) :=
  match eventType with
  | some .START_TAG => startTag reader st
  | some .TEXT => text reader st
  | some .END_TAG => some (endTag reader st)
  | _ => some st

/-- How `parse` ends; the document is filled as far as it was read. -/
inductive Outcome (L : GpxLibrary)
  | returned (result : Bool) (gpx : GPX L)
  /-- An exception of `std::stod`, which is not caught. -/
  | conversionError
  /-- The parser leaves an array. -/
  | undefined

/-- The loop of `parse`, with a bound on the events. -/
def parseLoop : Nat → Option TokenType → XmlPullParser → Scan L → Option (Outcome L)
  | 0, _, _, _ => none
  | n + 1, eventType, reader, st =>
    if eventType = some .END_DOCUMENT then some (.returned true st.gpx)
    else
      match handle eventType reader st with
      | none => some .conversionError
      | some st =>
        match reader.next with
        | (.ok eventType, reader) => parseLoop n eventType reader st
        | (.error (.fatal _ _ _), _) => some (.returned false st.gpx)
        | (.error .undefined, _) => some .undefined

/-- `parse`; every event but the last takes a character or closes an empty element.  `event` is
what `event_` happens to hold. -/
def parse (event : Option TokenType) (doc : Str) (gpx : GPX L) : Option (Outcome L) :=
  parseLoop (2 * doc.length + 4) event { XmlPullParser.ofStream doc with event := event }
    { gpx := gpx }

end GPXParser

end Wsrv
