import Statico.Mcp.Dispatch
import Statico.Lib.Json.Grammar
import Statico.Mcp.Cut
import Statico.Mcp.JsonText
import Statico.Mcp.Members
import Statico.Mcp.Response
import Statico.Mcp.Reference
import Statico.Mcp.Slices
import Statico.Lib.EventStream
import Statico.Mcp.Sse
import Statico.Mcp.Nesting
import Statico.Mcp.Underflow
import Statico.Mcp.Lenient
import Statico.Lib.Json.Names
import Statico.Mcp.Spelling
import Statico.Mcp.WellFormed
import Statico.Conn.RecvBuf
import Statico.Lib.Decoder
import Statico.Conn.Loop
import Statico.Conn.Pipeline
import Statico.Conn.Response
import Statico.Conn.Limits
import Statico.Lib.Chunked
import Statico.Http.Metering
import Statico.Http.Service
import Statico.Mcp.SseMeter
import Statico.Mcp.SseBody
import Statico.Startup.Ports
import Statico.Startup.Counters
import Statico.Startup.Alpn
import Statico.Mcp.Positions
import Statico.Mcp.Lookup
import Statico.Lib.Hex
import Statico.Pretty.Hexdump
import Statico.Conn.Work
import Statico.Http.Session
import Statico.Server.Services
import Statico.Mcp.Log
import Statico.Http.Delayed
import Statico.Startup.Config
