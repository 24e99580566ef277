import Beast.Websocket.ExclusionRuns
import Beast.Websocket.Utf8CheckerLaws
import Beast.Websocket.AcceptLaws
import Beast.Websocket.MaskLaws
import Beast.Websocket.ReadFrameLaws
import Beast.Websocket.Reading
import Beast.Websocket.Executor
import Beast.Http.Delivery
import Beast.Http.BufferSequence
import Beast.Http.ProtocolLaws
import Beast.Http.AsyncReadLaws
import Beast.Http.Conservation
import Beast.Http.SelfDelimiting
import Beast.Lib.Twin
import Beast.Websocket.OperationTwins
import Beast.Websocket.Session
import Beast.Http.Bounds
import Beast.Http.ChunkSize
import Beast.Http.ContentLength
import Beast.Http.HeaderParser
import Beast.Http.HeaderParserLaws
import Beast.Http.TransferCoding
import Beast.Core.MultiBuffer
import Beast.Core.MultiBufferLaws
import Beast.Core.MultiBufferPool
import Beast.Core.MultiBufferRefines
import Beast.Websocket.MaskExact
import Beast.Websocket.FrameCodec
import Beast.Websocket.WindowBits
import Beast.Http.TokenLists
import Beast.Http.ExtLists
import Beast.Http.KeepAlive
import Beast.Http.FieldValues
import Beast.Http.BodyReports
import Beast.Http.ChunkReports
import Beast.Http.LengthLeft
import Beast.Core.Base64
import Beast.Core.BasicFlatBufferRuns
import Beast.Http.PrepareFailure
import Beast.Core.Sha1Laws
import Beast.Http.BasicFieldsLaws
import Beast.Core.BuffersAdapter
import Beast.Core.BuffersAdapterLaws
import Beast.Core.BuffersAdapterRuns
import Beast.Core.BufferViewsLaws
import Beast.Zlib.FastPath
import Beast.Zlib.TableResults
import Beast.Zlib.BlockResults
import Beast.Core.ToStaticString
import Beast.Core.BufferedReadStreamLaws
import Beast.Zlib.WindowLaws
import Beast.Zlib.TreeRuns
import Beast.Zlib.BlockData
import Beast.Zlib.BlockTrip
import Beast.Zlib.InflateWrite
import Beast.Zlib.InflateWriteLaws
