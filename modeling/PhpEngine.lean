import PhpEngine.ArrayCopy
import PhpEngine.ArrayIdentity
import PhpEngine.AssignRewriting
import PhpEngine.Base64Pipeline
import PhpEngine.Base64Text
import PhpEngine.BaseConversion
import PhpEngine.CSlashes
import PhpEngine.CacheSlots
import PhpEngine.CollectedConstants
import PhpEngine.CsvRoundTrip
import PhpEngine.DechunkRun
import PhpEngine.FcgiSegments
import PhpEngine.FcgiStreams
import PhpEngine.GcRun
import PhpEngine.HashBoundRun
import PhpEngine.JmpSources
import PhpEngine.JsonLanguage
import PhpEngine.MysqlWire
import PhpEngine.NextChar
import PhpEngine.NopRelocation
import PhpEngine.OutputRuns
import PhpEngine.PackPositions
import PhpEngine.QprintDecoding
import PhpEngine.QprintEncodeRun
import PhpEngine.QueryRoundTrip
import PhpEngine.SessionRoundTrip
import PhpEngine.SmartStrcmp
import PhpEngine.SplModes
import PhpEngine.SplPtrHeap
import PhpEngine.StaticBreaks
import PhpEngine.StreamDetect
import PhpEngine.StreamFilter
import PhpEngine.StreamTransparent
import PhpEngine.StrtrReads
import PhpEngine.TUsage
import PhpEngine.UnserializeCursor
import PhpEngine.UrlInPlace
import PhpEngine.UrlParse
import PhpEngine.Uuencode
import PhpEngine.VersionCompare
import PhpEngine.ZendMmReached
