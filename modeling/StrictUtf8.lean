import StrictUtf8.CrossCheck
import StrictUtf8.Feed.Basic
import StrictUtf8.Feed.Check
import StrictUtf8.Feed.Session
import StrictUtf8.Json.Number
import StrictUtf8.Json.Skip
import StrictUtf8.Json.Text
import StrictUtf8.Json.Token
import StrictUtf8.Length
import StrictUtf8.Reader.Basic
import StrictUtf8.Reader.Block
import StrictUtf8.Reader.Cursor
import StrictUtf8.Reader.InMemory
import StrictUtf8.Reader.Recorded
import StrictUtf8.Reader.Script
import StrictUtf8.Scalar.Basic
import StrictUtf8.Scalar.Decode
import StrictUtf8.Sequence.Basic
import StrictUtf8.Sequence.Grammar
import StrictUtf8.Settings.Json
import StrictUtf8.Text
import StrictUtf8.Trace
import StrictUtf8.Proofs.Stream
import StrictUtf8.Proofs.Readers
import StrictUtf8.Proofs.Feeds
import StrictUtf8.Proofs.Check
import StrictUtf8.Proofs.Sequences
import StrictUtf8.Proofs.Prefixes
import StrictUtf8.Proofs.Encodings
import StrictUtf8.Proofs.Verdicts
import StrictUtf8.Proofs.Texts
import StrictUtf8.Proofs.Scripts
import StrictUtf8.Proofs.Units
import StrictUtf8.Proofs.Lengths
import StrictUtf8.Proofs.Sessions
import StrictUtf8.Proofs.Decoders
import StrictUtf8.Proofs.Unpaired
import StrictUtf8.Proofs.Windows
import StrictUtf8.Proofs.Agreement
import StrictUtf8.Proofs.Conservation
import StrictUtf8.Proofs.ReadAhead
import StrictUtf8.Proofs.Boundaries
import StrictUtf8.Proofs.Reports
import StrictUtf8.Proofs.Indexing
import StrictUtf8.Proofs.Isolation
import StrictUtf8.Proofs.Seams
import StrictUtf8.Proofs.Bounds
import StrictUtf8.Proofs.Stages
import StrictUtf8.Proofs.Calls
import StrictUtf8.Proofs.Gathering
import StrictUtf8.Proofs.Requests
import StrictUtf8.Proofs.Literals
import StrictUtf8.Proofs.Values
import StrictUtf8.Proofs.Objects
