import Linearizability.Main
import Linearizability.Recorder
import Linearizability.Register
import Linearizability.Proofs.Search.Forgetful
import Linearizability.Proofs.Run
import Linearizability.Proofs.Search.Kept
import Linearizability.Proofs.PartialLinearization
import Linearizability.Proofs.Search.Partials
import Linearizability.Proofs.Findings
import Linearizability.Proofs.Store.Findings
import Linearizability.Proofs.Report
import Linearizability.Proofs.Store.Relaxed
import Linearizability.Proofs.Search.Similar
import Linearizability.Proofs.Store.Renaming
import Linearizability.Proofs.Search.Led
import Linearizability.Proofs.Workers.Basic
import Linearizability.Proofs.Workers.Invariant
import Linearizability.Proofs.Workers.Termination
import Linearizability.Proofs.Workers.Agreement
import Linearizability.Proofs.Json.Reading
import Linearizability.Proofs.Json.Text
import Linearizability.Proofs.Json.Number
import Linearizability.Proofs.Json.Printing
import Linearizability.Proofs.Json.Decoder
import Linearizability.Proofs.Trace.Format
import Linearizability.Proofs.Files.Tree
import Linearizability.Proofs.Trace.RoundTrip
import Linearizability.Proofs.Json.Cut
import Linearizability.Proofs.Json.Truncation
import Linearizability.Proofs.Trace.Truncation
import Linearizability.Proofs.Artifacts
import Linearizability.Proofs.Files.Path
import Linearizability.Proofs.Files.Repeat
import Linearizability.Proofs.Files.WorkingDirectory
import Linearizability.Proofs.Rerun
import Linearizability.Proofs.Recorder
import Linearizability.Proofs.Store.LastWrite
import Linearizability.Proofs.Search.Sequential
import Linearizability.Proofs.Search.Straight
import Linearizability.Proofs.Search.Held
import Linearizability.Proofs.Search.Lifting
import Linearizability.Proofs.Search.Told
import Linearizability.Proofs.Search.Plain
import Linearizability.Proofs.Search.Lockstep
import Linearizability.Proofs.Store.Partition
import Linearizability.Proofs.Merge
import Linearizability.Proofs.Recorder.Accounts
import Linearizability.Proofs.Trace.Integer
import Linearizability.Proofs.Html
import Linearizability.Proofs.Page.Markup
import Linearizability.Proofs.Page.Rows
import Linearizability.Proofs.Page.Findings
import Linearizability.Proofs.Json.Spelling
import Linearizability.Proofs.Json.Local
import Linearizability.Proofs.Json.Skip
import Linearizability.Proofs.Json.Follows
import Linearizability.Proofs.Json.Members
import Linearizability.Proofs.Trace.Members
import Linearizability.Proofs.Trace.Repeats
