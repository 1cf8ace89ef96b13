import LogOrigin.Text.Blank
import LogOrigin.Text.CharClass
import LogOrigin.Text.Lowercase
import LogOrigin.Number.Shortest
import LogOrigin.Json.Reader
import LogOrigin.Json.Writer
import LogOrigin.Text.Escape
import LogOrigin.Log.Timestamp
import LogOrigin.Files.Basic
import LogOrigin.Log.Level
import LogOrigin.Log.Chain
import LogOrigin.Log.Header
import LogOrigin.Log.Target
import LogOrigin.Oracle.Analysis
import LogOrigin.Callers.Node
import LogOrigin.Log.Parser
import LogOrigin.Source.Comment
import LogOrigin.Source.Declaration
import LogOrigin.Source.Statement
import LogOrigin.Search.Cleaning
import LogOrigin.Search.Hint
import LogOrigin.Search.Score
import LogOrigin.Log.Context
import LogOrigin.Oracle.Lexical
import LogOrigin.Toml.Reader
import LogOrigin.Settings
import LogOrigin.Source.Symbol
import LogOrigin.Source.Usage
import LogOrigin.Source.Excerpt
import LogOrigin.Search.Discovery
import LogOrigin.Search.Resolver
import LogOrigin.Callers.Hydration
import LogOrigin.Callers.Expansion
import LogOrigin.Log.Store
import LogOrigin.Session
import LogOrigin.Command.Run
import LogOrigin.Main
import LogOrigin.Proofs.Cache.Clients
import LogOrigin.Proofs.Cache.SingleFlight
import LogOrigin.Proofs.Cache.Reads
import LogOrigin.Proofs.Callers.Hydration
import LogOrigin.Proofs.Callers.Expansion
import LogOrigin.Proofs.Callers.Finishing
import LogOrigin.Proofs.Callers.Convergence
import LogOrigin.Proofs.Callers.Sites
import LogOrigin.Proofs.Callers.Naming
import LogOrigin.Proofs.Callers.Confidence
import LogOrigin.Proofs.Callers.Clients
import LogOrigin.Proofs.Callers.Sharing
import LogOrigin.Proofs.Session.Handles
import LogOrigin.Proofs.Session.Tracking
import LogOrigin.Proofs.Session.Staleness
import LogOrigin.Proofs.Session.SingleFlight
import LogOrigin.Proofs.Log.SpanLines
import LogOrigin.Proofs.Log.SimpleLines
import LogOrigin.Proofs.Log.JsonLines
import LogOrigin.Proofs.Session.Renewal
import LogOrigin.Proofs.Session.Retention
import LogOrigin.Proofs.Session.Inline
import LogOrigin.Proofs.Session.FailedLoad
import LogOrigin.Proofs.Session.Logging
import LogOrigin.Proofs.Log.Batch
import LogOrigin.Proofs.Log.Store
import LogOrigin.Proofs.Log.Chronology
import LogOrigin.Proofs.Log.Context
import LogOrigin.Proofs.Search.Repository
import LogOrigin.Proofs.Search.Scan
import LogOrigin.Proofs.Search.Mentions
import LogOrigin.Proofs.Search.Ranking
import LogOrigin.Proofs.Search.Scoring
import LogOrigin.Proofs.Search.Relocation
import LogOrigin.Proofs.Search.Stages
import LogOrigin.Proofs.Search.Existence
import LogOrigin.Proofs.Search.Translation
import LogOrigin.Proofs.Source.Header
import LogOrigin.Proofs.Source.Usage
import LogOrigin.Proofs.Oracle.Reply
import LogOrigin.Proofs.Oracle.Dissection
import LogOrigin.Proofs.Oracle.Vocabulary
import LogOrigin.Proofs.Oracle.Analysis
import LogOrigin.Proofs.Callers.Replacement
import LogOrigin.Proofs.Callers.Listing
import LogOrigin.Proofs.Session.Calm
import LogOrigin.Proofs.Session.Frame
import LogOrigin.Proofs.Session.Growth
import LogOrigin.Proofs.Session.Depth
import LogOrigin.Proofs.Session.Placement
import LogOrigin.Proofs.Search.Truncation
import LogOrigin.Proofs.Search.Glob
import LogOrigin.Proofs.Search.Stems
import LogOrigin.Proofs.Search.FileName
import LogOrigin.Proofs.Session.Analyses
import LogOrigin.Proofs.Source.Identifier
import LogOrigin.Proofs.Source.Comment
import LogOrigin.Proofs.Search.Cleaning
