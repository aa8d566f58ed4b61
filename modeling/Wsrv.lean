import Wsrv.Text
import Wsrv.Message
import Wsrv.Lib.CallTrace
import Wsrv.Middleware
import Wsrv.Lib.SepJoin
import Wsrv.Application
import Wsrv.Route
import Wsrv.Lib.Codec
import Wsrv.Session
import Wsrv.SessionData
import Wsrv.SQLite3Session
import Wsrv.Lib.Refinement
import Wsrv.SessionStore
import Wsrv.SessionOverlap
import Wsrv.SessionFault
import Wsrv.Auth
import Wsrv.SessionLogout
import Wsrv.Csrf
import Wsrv.HttpParser
import Wsrv.HttpElements
import Wsrv.Util
import Wsrv.HttpUrl
import Wsrv.Lib.Regex
import Wsrv.RequestParser
import Wsrv.RequestDecode
import Wsrv.DecodeSafety
import Wsrv.BodyFraming
import Wsrv.Connection
import Wsrv.PercentCodec
import Wsrv.RequestPath
import Wsrv.ClientRequest
import Wsrv.FormRoundTrip
import Wsrv.QueryRoundTrip
import Wsrv.ResponseParser
import Wsrv.HeaderCollection
import Wsrv.RequestReading
import Wsrv.RequestTarget
import Wsrv.ChunkInvariance
import Wsrv.HeaderRecasing
import Wsrv.HeaderCase
import Wsrv.MultipartRoundTrip
import Wsrv.Cookies
import Wsrv.Lib.SortContract
import Wsrv.Locale
import Wsrv.LocaleMatch
import Wsrv.PasswordHash
import Wsrv.SQLite3Statement
import Wsrv.NamedRoutes
import Wsrv.CallbackRules
import Wsrv.PrematureCompletion
import Wsrv.LateErrors
import Wsrv.TargetFields
import Wsrv.Lib.EcmaRegex
import Wsrv.Lib.EcmaSyntax
import Wsrv.RouteMatch
import Wsrv.RouteSegments
import Wsrv.RouteUrl
import Wsrv.Lib.Lines
import Wsrv.ResponseHead
import Wsrv.Lib.Effect
import Wsrv.MailMessage
import Wsrv.Mailer
import Wsrv.MailSubmit
import Wsrv.MailTransparency
import Wsrv.MailHeader
import Wsrv.MailDialogue
import Wsrv.ClientUrl
import Wsrv.ClientTarget
import Wsrv.UrlRoundTrip
import Wsrv.XmlCursor
import Wsrv.XmlPullParser
import Wsrv.XmlRecognition
import Wsrv.XmlTags
import Wsrv.XmlEvents
import Wsrv.UrlCursor
import Wsrv.FormFields
import Wsrv.CookieHeader
import Wsrv.ResponseBody
import Wsrv.StaticFiles
import Wsrv.LiteralRoutes
import Wsrv.Lib.EcmaContext
import Wsrv.RouteCaptures
import Wsrv.MultipartSound
import Wsrv.Lib.Brackets
import Wsrv.XmlSafety
import Wsrv.Gpx
import Wsrv.XmlBalance
import Wsrv.Onion
import Wsrv.Dispatch
import Wsrv.CompressMiddleware
import Wsrv.ClientResponse
import Wsrv.ResponseFraming
import Wsrv.UrlSafety
import Wsrv.XmlStream
import Wsrv.XmlSections
import Wsrv.XmlReferences
import Wsrv.XmlElement
import Wsrv.XmlNamespaces
import Wsrv.MimeSplit
import Wsrv.Lib.Base64
import Wsrv.Base64
import Wsrv.Lib.Custody
import Wsrv.ConnectionPool
import Wsrv.Lib.Wkt
import Wsrv.Routes
import Wsrv.Lib.Database
import Wsrv.RouteStore
import Wsrv.LogRotation
import Wsrv.XmlLookAhead
import Wsrv.XmlStacks
import Wsrv.GpxNumbers
import Wsrv.GpxStructure
import Wsrv.HeadLines
import Wsrv.StartLines
import Wsrv.RequestDelivery
import Wsrv.ResponseReading
import Wsrv.ResponseDelivery
import Wsrv.Exchange
import Wsrv.Lib.EventLoop
import Wsrv.ServerImpl
import Wsrv.ServerRuns
import Wsrv.ServerSafety
import Wsrv.AuthRuns
import Wsrv.HeadSize
