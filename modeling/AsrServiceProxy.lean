import AsrServiceProxy.Lib.Transition
import AsrServiceProxy.App.Writefunc.Theorems
import AsrServiceProxy.App.AsrProxyImpl.Theorems
import AsrServiceProxy.App.Token.Theorems
import AsrServiceProxy.Utils.Http.Theorems
import AsrServiceProxy.Utils.ThreadPool.Theorems
import AsrServiceProxy.Log.LogThread
import AsrServiceProxy.Log.LogThread.Conservation
import AsrServiceProxy.Log.LogThread.Shutdown
import AsrServiceProxy.Log.LogImpl
import AsrServiceProxy.Log.LogThread.Holders
import AsrServiceProxy.Log.LogImpl.Theorems
import AsrServiceProxy.Utils.Ipc
import AsrServiceProxy.Utils.Ipc.Correspondence
import AsrServiceProxy.Utils.Ipc.Framing
import AsrServiceProxy.Utils.Ipc.Attach
import AsrServiceProxy.Log.Receivers
import AsrServiceProxy.Log.Receivers.Theorems
import AsrServiceProxy.Log.LogThread.Delivery
import AsrServiceProxy.Log.LogImpl.Filtering
import AsrServiceProxy.Utils.Http.Headers
import AsrServiceProxy.App.CurlBalance
import AsrServiceProxy.Config.Render
import AsrServiceProxy.Config.Merge
import AsrServiceProxy.Config.Tokenizer
import AsrServiceProxy.Config.Parser
import AsrServiceProxy.Config.Data
import AsrServiceProxy.Config.RoundTrip.Text
import AsrServiceProxy.Config.RoundTrip.Numbers
import AsrServiceProxy.Config.RoundTrip.Lexing
import AsrServiceProxy.Config.RoundTrip.Tokens
import AsrServiceProxy.Lib.Runs
import AsrServiceProxy.Config.RoundTrip.Parsing
import AsrServiceProxy.Config.RoundTrip.Objects
import AsrServiceProxy.Config.RoundTrip.Theorems
import AsrServiceProxy.Config.Resolve
import AsrServiceProxy.Config.Resolve.Weight
import AsrServiceProxy.Lib.Fuel
import AsrServiceProxy.Lib.Json
import AsrServiceProxy.Lib.Json.Theorems
import AsrServiceProxy.Config.Resolve.Invariant
import AsrServiceProxy.Config.Resolve.Theorems
import AsrServiceProxy.Config.Contents
import AsrServiceProxy.Config.Fallback
import AsrServiceProxy.Config.Fallback.Theorems
import AsrServiceProxy.Config.Resolve.Bookkeeping
import AsrServiceProxy.Config.Resolve.Completeness
import AsrServiceProxy.Config.WellMade
import AsrServiceProxy.Config.Operations
import AsrServiceProxy.Config.Operations.Theorems
import AsrServiceProxy.Config.Tokenizer.Scanning
import AsrServiceProxy.Config.Tokenizer.Progress
import AsrServiceProxy.Config.Parser.Reading
import AsrServiceProxy.Config.Parser.Theorems
import AsrServiceProxy.Config.Parser.Progress
import AsrServiceProxy.Config.Built
import AsrServiceProxy.Config.Tokenizer.Delivery
import AsrServiceProxy.Config.PathText
import AsrServiceProxy.Config.PathText.Reading
import AsrServiceProxy.Config.PathText.Theorems
import AsrServiceProxy.Config.Json.Tokens
import AsrServiceProxy.Config.Json.Lexing
import AsrServiceProxy.Config.Json.Theorems
import AsrServiceProxy.Lib.IndexLoop
import AsrServiceProxy.Utils.Uri
import AsrServiceProxy.Utils.Uri.Theorems
import AsrServiceProxy.Config.PathText.FastPath
import AsrServiceProxy.Config.Peek
import AsrServiceProxy.Config.Lookup
import AsrServiceProxy.Config.Lookup.Theorems
import AsrServiceProxy.Config.Operations.Lens
import AsrServiceProxy.Config.FromMap
import AsrServiceProxy.Config.FromMap.Theorems
import AsrServiceProxy.Config.Loading
import AsrServiceProxy.Config.Loading.Theorems
import AsrServiceProxy.Lib.Follows
import AsrServiceProxy.Config.Parser.Separators
import AsrServiceProxy.Config.Parser.Separators.Theorems
import AsrServiceProxy.Config.Including
import AsrServiceProxy.Config.Including.Theorems
import AsrServiceProxy.Lib.BitString
import AsrServiceProxy.Utils.Base64
import AsrServiceProxy.Utils.Base64.Theorems
import AsrServiceProxy.Utils.Http.Query
import AsrServiceProxy.App.Config
import AsrServiceProxy.App.Config.Theorems
import AsrServiceProxy.App.Writefunc.Cuts
import AsrServiceProxy.Lib.FileTree
import AsrServiceProxy.Utils.UrlParser
import AsrServiceProxy.Utils.UrlParser.Theorems
import AsrServiceProxy.Utils.UrlParser.Explicit
import AsrServiceProxy.Utils.UrlParser.Omitted
import AsrServiceProxy.Utils.FileUtil
import AsrServiceProxy.Utils.FileUtil.Paths
import AsrServiceProxy.Utils.FileUtil.Spelled
import AsrServiceProxy.Utils.FileUtil.Directories
import AsrServiceProxy.Utils.FileUtil.Creates
import AsrServiceProxy.Utils.Http.StatusLine
import AsrServiceProxy.Lib.CondVar
import AsrServiceProxy.Utils.Semaphore
import AsrServiceProxy.Utils.Event
import AsrServiceProxy.Utils.Waits
import AsrServiceProxy.Utils.Deadline
import AsrServiceProxy.Utils.Ipc.Bounds
import AsrServiceProxy.Log.LogThread.Start
import AsrServiceProxy.Lib.CTime
import AsrServiceProxy.Lib.CTime.Format
import AsrServiceProxy.Utils.TimeUtil
import AsrServiceProxy.Config.Units
import AsrServiceProxy.Config.Units.Theorems
import AsrServiceProxy.Config.Validity
import AsrServiceProxy.Config.Validity.Theorems
import AsrServiceProxy.Config.DottedKeys
import AsrServiceProxy.Config.DottedKeys.Literals
import AsrServiceProxy.Config.DottedKeys.Theorems
import AsrServiceProxy.Config.Concatenation
import AsrServiceProxy.Config.ListGetters
import AsrServiceProxy.Utils.StringUtil.Splitting
import AsrServiceProxy.Config.Unwrapped
import AsrServiceProxy.Config.Environment
import AsrServiceProxy.Config.Equality
import AsrServiceProxy.Config.Equality.Theorems
import AsrServiceProxy.Config.Equality.Rewrapped
import AsrServiceProxy.Config.Tokenizer.Unicode
import AsrServiceProxy.Config.Readers
import AsrServiceProxy.Config.UnquotedText
import AsrServiceProxy.Config.Tokenizer.Lines.Theorems
import AsrServiceProxy.Lib.Strip
import AsrServiceProxy.Utils.StringUtil.Trimming
import AsrServiceProxy.App.Config.CleanOpt
import AsrServiceProxy.Config.Parser.Comments
import AsrServiceProxy.Config.Parser.Comments.Theorems
import AsrServiceProxy.Config.PathBuilder
import AsrServiceProxy.Config.PathBuilder.Theorems
import AsrServiceProxy.Config.Readers.Alike
import AsrServiceProxy.Lib.Bracketing
import AsrServiceProxy.Config.Origin
import AsrServiceProxy.Config.Origin.Theorems
import AsrServiceProxy.Config.Fallback.Layers
import AsrServiceProxy.Lib.PrefixCode
import AsrServiceProxy.Config.PathText.Distinct
import AsrServiceProxy.Config.EntrySet
import AsrServiceProxy.Config.EntrySet.Rebuilt
import AsrServiceProxy.Lib.Json.Strings
import AsrServiceProxy.Config.Json.Writing
import AsrServiceProxy.Lib.Entries.Matching
import AsrServiceProxy.Config.Concatenation.Contents
import AsrServiceProxy.Config.Resolve.Meaning
import AsrServiceProxy.Config.Resolve.Tables
import AsrServiceProxy.Config.Resolve.Reduction
import AsrServiceProxy.Config.Resolve.Solution
import AsrServiceProxy.Config.Resolve.Order
import AsrServiceProxy.Config.Tokenizer.Flavors
import AsrServiceProxy.Config.Json.Superset
import AsrServiceProxy.Lib.Transition.Rest
import AsrServiceProxy.Utils.ThreadPool.Liveness
import AsrServiceProxy.Lib.Outcome
import AsrServiceProxy.Config.TypedGetters
import AsrServiceProxy.Config.TypedGetters.AsStrings
import AsrServiceProxy.Lib.CondVar.Tokens
import AsrServiceProxy.Utils.Waits.Tokens
import AsrServiceProxy.Config.Layering
import AsrServiceProxy.Config.Layering.Theorems
