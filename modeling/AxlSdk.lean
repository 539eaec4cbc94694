import AxlSdk.Data.RbTree.Balance
import AxlSdk.Data.PieceTree.SavePoint
import AxlSdk.Json.Chunking
import AxlSdk.Json.Rfc8259
import AxlSdk.Data.PageCache
import AxlSdk.Data.Interchange
import AxlSdk.Data.AvlTree
import AxlSdk.Data.RadixTree.Compressed
import AxlSdk.Data.RadixTree.Atomic
import AxlSdk.Loop.Sources
import AxlSdk.Net.Http.Outq
import AxlSdk.Net.WebSocket
import AxlSdk.Util.Tar
import AxlSdk.Gfx.Compositor.Present
import AxlSdk.Format.Float
import AxlSdk.Fs.Move
import AxlSdk.Fs.ProviderRead
import AxlSdk.Data.Fnmatch
import AxlSdk.Data.StrNumber
import AxlSdk.Util.DriverDeps
import AxlSdk.Util.Nvstore
import AxlSdk.Util.VtEnc
import AxlSdk.Util.ConsoleEmit
import AxlSdk.Util.VtBuf
import AxlSdk.NineP.DirWindow
import AxlSdk.NineP.ClientWalk
import AxlSdk.Json.Duplicates
import AxlSdk.Data.PieceTree.Batch
import AxlSdk.Data.PieceTree.Lines
import AxlSdk.Data.PieceTree.Eol
import AxlSdk.Stream.ShortWrites
import AxlSdk.Stream.Transcoding
import AxlSdk.Stream.LineReader
import AxlSdk.Data.RingBuf.Elements
import AxlSdk.Data.RingBuf.Messages
import AxlSdk.Data.Cache
import AxlSdk.Data.Base64
import AxlSdk.Net.Http.Response
import AxlSdk.Net.Http.ServeFs
import AxlSdk.Net.Http.Routes
import AxlSdk.Net.Url
import AxlSdk.Net.TcpSend
import AxlSdk.Data.NTree.Traverse
import AxlSdk.Util.Sort
import AxlSdk.Data.Unicode
import AxlSdk.Util.ConsoleInput
import AxlSdk.Mem.Allocator
import AxlSdk.Fs.RamDisk
import AxlSdk.Gfx.Blur
