import Toke.Codegen.Hoist
import Toke.Codegen.Locals
import Toke.Codegen.Mangle
import Toke.Codegen.StrLit
import Toke.Compress.JsonRows
import Toke.Compress.Length
import Toke.Compress.StreamChunks
import Toke.Format.ExprRoundTrip
import Toke.Http2.FlowControl
import Toke.Http2.Huffman
import Toke.Interface.RoundTrip
import Toke.Lexer.Capacity
import Toke.Migrate.Edits
import Toke.Migrate.StepsBounds
import Toke.Runtime.Collections
import Toke.Runtime.MapRefines
import Toke.Stdlib.BaseCodes
import Toke.Stdlib.CacheIsolation
import Toke.Stdlib.CsvRoundTrip
import Toke.Stdlib.HttpFraming
import Toke.Stdlib.HttpSplits
import Toke.Stdlib.JsonAgree
import Toke.Stdlib.JsonObjects
import Toke.Stdlib.JwtRoundTrip
import Toke.Stdlib.Pairs
import Toke.Stdlib.Routes
import Toke.Stdlib.StaticFiles
import Toke.Stdlib.Time
import Toke.Stdlib.Utf8
import Toke.Stdlib.Zip
import Toke.Tkir.CodeSlices
import Toke.Tkir.Expressions
import Toke.Tkir.FailedDecode
import Toke.Tkir.Isolation
import Toke.Tkir.RoundTrip
import Toke.Types.ResolveType
