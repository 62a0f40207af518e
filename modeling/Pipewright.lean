import Pipewright.Command.Invocation
import Pipewright.Command.Run
import Pipewright.Decimal
import Pipewright.Digest.Sha256
import Pipewright.Digraph.Basic
import Pipewright.Digraph.Reader
import Pipewright.Digraph.Token
import Pipewright.Engine
import Pipewright.Error
import Pipewright.Hook.Rack
import Pipewright.Identity.Registry
import Pipewright.Json.Document
import Pipewright.Json.Record
import Pipewright.Keyed
import Pipewright.Lifecycle.Transition
import Pipewright.Main
import Pipewright.Merge.Queue
import Pipewright.Pipeline.Basic
import Pipewright.Pipeline.Lift
import Pipewright.Pipeline.Lint
import Pipewright.Proofs.Decimal.Rereading
import Pipewright.Proofs.Decimal.Rounding
import Pipewright.Proofs.Digraph.BareWords
import Pipewright.Proofs.Digraph.Breaking
import Pipewright.Proofs.Digraph.Fidelity
import Pipewright.Proofs.Digraph.Grammar
import Pipewright.Proofs.Digraph.Lines
import Pipewright.Proofs.Digraph.Parallel
import Pipewright.Proofs.Digraph.Places
import Pipewright.Proofs.Digraph.Progress
import Pipewright.Proofs.Digraph.Reals
import Pipewright.Proofs.Digraph.RoundTrip
import Pipewright.Proofs.Digraph.Scoping
import Pipewright.Proofs.Digraph.Separation
import Pipewright.Proofs.Digraph.Settings
import Pipewright.Proofs.Digraph.Soundness
import Pipewright.Proofs.Digraph.Spacing
import Pipewright.Proofs.Digraph.Statements
import Pipewright.Proofs.Digraph.Values
import Pipewright.Proofs.Engine.Actions
import Pipewright.Proofs.Engine.Backoff
import Pipewright.Proofs.Engine.RecordFiles
import Pipewright.Proofs.Hook.Lineage
import Pipewright.Proofs.Hook.Turns
import Pipewright.Proofs.Identity.Calls
import Pipewright.Proofs.Identity.Conduct
import Pipewright.Proofs.Identity.Keys
import Pipewright.Proofs.Identity.Lineage
import Pipewright.Proofs.Identity.Staleness
import Pipewright.Proofs.Json.Free
import Pipewright.Proofs.Json.Layout
import Pipewright.Proofs.Json.Nesting
import Pipewright.Proofs.Json.Numerals
import Pipewright.Proofs.Json.Reals
import Pipewright.Proofs.Json.Rereading
import Pipewright.Proofs.Lifecycle.CheckpointRuns
import Pipewright.Proofs.Lifecycle.Checkpoints
import Pipewright.Proofs.Lifecycle.Clearance
import Pipewright.Proofs.Lifecycle.Commuting
import Pipewright.Proofs.Lifecycle.Completion
import Pipewright.Proofs.Lifecycle.Conduct
import Pipewright.Proofs.Lifecycle.Dispatch
import Pipewright.Proofs.Lifecycle.Effect
import Pipewright.Proofs.Lifecycle.Mergeable
import Pipewright.Proofs.Lifecycle.Prospects
import Pipewright.Proofs.Lifecycle.Retries
import Pipewright.Proofs.Lifecycle.Rulings
import Pipewright.Proofs.Lifecycle.Runs
import Pipewright.Proofs.Lifecycle.Saving
import Pipewright.Proofs.Lifecycle.Sessions
import Pipewright.Proofs.Lifecycle.Soundness
import Pipewright.Proofs.Lifecycle.Verdicts
import Pipewright.Proofs.Lifecycle.Vouching
import Pipewright.Proofs.Merge.Crowd
import Pipewright.Proofs.Merge.Enqueueing
import Pipewright.Proofs.Merge.Evidence
import Pipewright.Proofs.Merge.Moves
import Pipewright.Proofs.Merge.Order
import Pipewright.Proofs.Merge.Pairs
import Pipewright.Proofs.Merge.Progress
import Pipewright.Proofs.Merge.QueueFile
import Pipewright.Proofs.Merge.Recording
import Pipewright.Proofs.Merge.Stages
import Pipewright.Proofs.Merge.Steps
import Pipewright.Proofs.Merge.Turns
import Pipewright.Proofs.Pipeline.Lifting
import Pipewright.Proofs.Pipeline.Reach
import Pipewright.Proofs.Pipeline.Readiness
import Pipewright.Proofs.Pipeline.Validity
import Pipewright.Proofs.Pipeline.WellFormed
import Pipewright.Proofs.Restart
import Pipewright.Proofs.Signal.Archive
import Pipewright.Proofs.Signal.Arrival
import Pipewright.Proofs.Signal.Calls
import Pipewright.Proofs.Signal.Delivery
import Pipewright.Proofs.Signal.Reception
import Pipewright.Proofs.Signal.Shelves
import Pipewright.Proofs.Signal.Turns
import Pipewright.Proofs.Store.Files
import Pipewright.Proofs.Store.Growth
import Pipewright.Proofs.Store.Making
import Pipewright.Proofs.Store.Moves
import Pipewright.Proofs.Store.Paths
import Pipewright.Proofs.Store.Places
import Pipewright.Proofs.Store.Siblings
import Pipewright.Proofs.Text
import Pipewright.Signal.Mailbox
import Pipewright.Store.Basic
import Pipewright.Text
import Pipewright.Time
