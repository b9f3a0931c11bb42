import Rite.ToMathlib.BitString
import Rite.ToMathlib.PrefixCode
import Rite.ToMathlib.Inevitable
import Rite.ToMathlib.PosixPath
import Rite.Hpack.Integer
import Rite.Hpack.Huffman
import Rite.Hpack.HuffmanBits
import Rite.Hpack.HuffmanCorrect
import Rite.Hpack.StaticTable
import Rite.H2.Frame
import Rite.Hpack.Parser
import Rite.Hpack.Field
import Rite.Hpack.AddressSpace
import Rite.Hpack.Block
import Rite.Hpack.HuffmanStrings
import Rite.Hpack.RoundTrip
import Rite.Hpack.Rfc7541
import Rite.Hpack.Refinement
import Rite.Hpack.Conformance
import Rite.Hpack.LetterCase
import Rite.Hpack.Sharing
import Rite.Hpack.TableSize
import Rite.Http.Overrun
import Rite.H2.Connection
import Rite.H2.Step
import Rite.H2.Server
import Rite.H2.Reassembly
import Rite.H2.Progress
import Rite.H2.Codec
import Rite.H2.Isolation
import Rite.H2.Survival
import Rite.H2.Termination
import Rite.H2.Replies
import Rite.H2.LifeCycle
import Rite.H2.DataGuard
import Rite.H2.Exchange
import Rite.H2.Fragmentation
import Rite.H2.Segmentation
import Rite.Server.References
import Rite.Server.Response
import Rite.Server.ResponseHeaders
import Rite.Server.Workers
import Rite.Http.Istream
import Rite.Http.Parser
import Rite.Http.UriDecode
import Rite.Http.Layer
import Rite.Http.Pipeline
import Rite.Http.Target
import Rite.Http.Cookies
import Rite.Session.Handle
import Rite.Session.Persistence
import Rite.Session.Directory
import Rite.H2.HeadersLayout
import Rite.Hpack.Cursor
import Rite.Hpack.IntegerRange
import Rite.Hpack.LoopBounds
import Rite.Hpack.OutOfBounds
import Rite.Hpack.BlockSize
import Rite.ToMathlib.Regex
import Rite.ToMathlib.RegexPattern
import Rite.Http.Path
import Rite.Http.PathParameters
import Rite.Http.PercentCoding
import Rite.Http.QueryRoundTrip
import Rite.Http.TargetDecoding
import Rite.Http.MessageBody
import Rite.Http.Token
import Rite.ToMathlib.InsertMany
import Rite.Http.HeaderFields
import Rite.ToMathlib.Decimal
import Rite.Session.Conversions
import Rite.Session.Reads
import Rite.Http.CookieForms
import Rite.ToMathlib.SplitPair
import Rite.Server.ResponseHead
import Rite.ToMathlib.BoundedWindow
import Rite.Odin.RequestLog
import Rite.ToMathlib.OrderStatistic
import Rite.Odin.Percentiles
import Rite.ToMathlib.Template
import Rite.Odin.Render
import Rite.ToMathlib.LengthPrefix
import Rite.Http.UriEncoding
import Rite.Server.Alpn
import Rite.Hpack.Expansion
import Rite.ToMathlib.CriticalSection
import Rite.Server.Multiplexing
import Rite.Server.Delivery
import Rite.H2.Specification
import Rite.H2.Conservation
import Rite.Server.Conversation
import Rite.Server.EventLoop
import Rite.Session.Store
import Rite.Server.Streaming
import Rite.Server.FileServer
import Rite.Http.Rfc7230
import Rite.Server.ReadBack
import Rite.Server.KeepAlive
