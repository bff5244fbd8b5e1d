import Llmbridge.Edits
import Llmbridge.Gateway.Splice
import Llmbridge.Gateway.SpliceRanges
import Llmbridge.Gateway.SpliceCorrect
import Llmbridge.Provider.MemberEdits
import Llmbridge.Provider.Overrides
import Llmbridge.Provider.OverridesHeld
import Llmbridge.Provider.JsonReaders
import Llmbridge.Provider.BodyScanCorrect
import Llmbridge.Provider.BodyScanHold
import Llmbridge.Provider.Admission
import Llmbridge.Provider.TranslateBody
import Llmbridge.Provider.JsonScanTree
import Llmbridge.Provider.BodyScanMembers
import Llmbridge.Provider.BodyScanSyntax
import Llmbridge.Provider.BodyScanRun
import Llmbridge.Provider.BodyScan
import Llmbridge.Rfc8259.Automaton
import Llmbridge.Rfc8259.Phases
import Llmbridge.Provider.JsonScalars
import Llmbridge.Provider.JsonSkip
import Llmbridge.Provider.JsonParse
import Llmbridge.EventStream.Lines
import Llmbridge.EventStream.Events
import Llmbridge.Provider.OpenAi
import Llmbridge.Provider.SseFrameReader
import Llmbridge.Provider.SseFrameReaderCorrect
import Llmbridge.Provider.Sse
import Llmbridge.Provider.SseCorrect
import Llmbridge.Http1.Lines
import Llmbridge.Http1.Chunked
import Llmbridge.Net.Http
import Llmbridge.Net.ResponseBody
import Llmbridge.Net.HeaderWalk
import Llmbridge.Net.ParseRequest
import Llmbridge.Net.ParseResponse
import Llmbridge.Net.ChunkSteps
import Llmbridge.Net.ChunkDecoderCorrect
import Llmbridge.Net.ResponseFramerCorrect
import Llmbridge.Scanning.Leftmost
import Llmbridge.Provider.KeyScan
import Llmbridge.Provider.JsonScanParts
import Llmbridge.Provider.KeyMatches
import Llmbridge.Provider.KeyTree
import Llmbridge.Provider.ScanUsage
import Llmbridge.Provider.StreamUsage
import Llmbridge.Provider.JsonCount
import Llmbridge.Provider.ReadUsage
import Llmbridge.Transition.Runs
import Llmbridge.Gateway.Resolve
import Llmbridge.Gateway.ResolveCorrect
import Llmbridge.Provider.Venues
import Llmbridge.Gateway.Forward
import Llmbridge.Gateway.ForwardFacts
import Llmbridge.Gateway.ForwardCopy
import Llmbridge.Net.HeaderLists
import Llmbridge.Gateway.Configuration
import Llmbridge.Gateway.ForwardCorrect
import Llmbridge.Gateway.Policy
import Llmbridge.Gateway.Request
import Llmbridge.Gateway.Rebuild
import Llmbridge.Gateway.Connections
import Llmbridge.Gateway.Attempt
import Llmbridge.Gateway.AttemptCorrect
import Llmbridge.Rfc8259.Build
import Llmbridge.Rfc8259.Decimal
import Llmbridge.Rfc8259.Strings
import Llmbridge.Rfc8259.NumberValue
import Llmbridge.Provider.Content
import Llmbridge.Provider.TranslateRequest
import Llmbridge.Provider.JsonSpans
import Llmbridge.Provider.JsonWriter
import Llmbridge.Provider.ContentCorrect
import Llmbridge.Provider.AnthropicWalk
import Llmbridge.Provider.RequestMembers
import Llmbridge.Provider.TranslateRequestCorrect
import Llmbridge.Provider.ContentRefused
import Llmbridge.Provider.TranslateResponse
import Llmbridge.Provider.JsonUnescape
import Llmbridge.Provider.TranslateResponseCorrect
import Llmbridge.Provider.ResponseCounts
import Llmbridge.Provider.ToolArguments
import Llmbridge.Provider.AnthropicFaithful
import Llmbridge.Provider.UsageParts
import Llmbridge.Provider.SearchCalls
import Llmbridge.Provider.StreamUsageCorrect
import Llmbridge.Provider.OverridesCorrect
import Llmbridge.Provider.SingleEdits
import Llmbridge.Provider.StringEscapes
import Llmbridge.Provider.UnitInterval
import Llmbridge.Provider.Picodollars
import Llmbridge.EventStream.Newlines
import Llmbridge.Provider.GeminiFacts
import Llmbridge.Gateway.GeminiEvents
import Llmbridge.Provider.GeminiTarget
import Llmbridge.Rfc3986.Paths
import Llmbridge.Provider.ModelTargets
import Llmbridge.Gateway.ForwardPath
import Llmbridge.Gateway.ForwardHop
import Llmbridge.Gateway.OutBufCorrect
import Llmbridge.Intrusive.DoublyLinked
import Llmbridge.Gateway.Pool
import Llmbridge.Gateway.PoolCorrect
import Llmbridge.Words.Lanes
import Llmbridge.Provider.StringStop
import Llmbridge.Fips180.Sha256
import Llmbridge.Net.Sha256
import Llmbridge.Net.Sha256Correct
import Llmbridge.Net.ContentCoding
import Llmbridge.Gateway.TryFrame
import Llmbridge.Gateway.Record
import Llmbridge.Provider.SseOutput
import Llmbridge.Provider.SseWritten
import Llmbridge.Provider.SseWellFormed
import Llmbridge.Provider.SseTerminal
import Llmbridge.Provider.TriggerScan
import Llmbridge.Provider.TriggersNoted
import Llmbridge.Provider.DeclinedAttempts
import Llmbridge.Http1.Rendering
import Llmbridge.Gateway.StreamStep
import Llmbridge.Gateway.StreamFraming
import Llmbridge.Gateway.StreamRelayed
import Llmbridge.Gateway.StreamTranslated
import Llmbridge.Gateway.Replies
import Llmbridge.Gateway.RepliesParse
import Llmbridge.Gateway.Hedge
import Llmbridge.Gateway.HedgeRuns
import Llmbridge.Net.SigV4
import Llmbridge.Net.SigV4Correct
