import Workers.Module.Search
import Workers.Script.Form
import Workers.Script.Run
import Workers.System
import Workers.Wire.Forms
import Workers.Proofs.Call.Refinement
import Workers.Proofs.Capture.Sharing
import Workers.Proofs.Control.Finality
import Workers.Proofs.Ledger.Reachability
import Workers.Proofs.Control.Points
import Workers.Proofs.Control.Wakeup
import Workers.Proofs.Control.Replies
import Workers.Proofs.Pool.Within
import Workers.Proofs.Pool.Life
import Workers.Proofs.Pool.Spawning
import Workers.Proofs.Pool.Neighbours
import Workers.Proofs.Pool.State
import Workers.Proofs.Pool.Invariant
import Workers.Proofs.Pool.Counting
import Workers.Proofs.Pool.Shutdown
import Workers.Proofs.Control.Execution
import Workers.Proofs.Control.Pause
import Workers.Proofs.Control.Stop
import Workers.Proofs.Call.Sleep
import Workers.Proofs.Call.Effects
import Workers.Proofs.Ledger.Dropped
import Workers.Proofs.Control.PlainSteps
import Workers.Proofs.Control.Cancel
import Workers.Proofs.Registry.Names
import Workers.Proofs.Pool.Stranded
import Workers.Proofs.Pool.Starts
import Workers.Proofs.Pool.Readied
import Workers.Proofs.Pool.Woken
import Workers.Proofs.Handover.Uninterrupted
import Workers.Proofs.Control.Latency
import Workers.Proofs.Hooks.Passing
import Workers.Proofs.Handover.Published
import Workers.Proofs.Roundtrip.Faithful
import Workers.Proofs.Call.Unheeded
import Workers.Proofs.Call.Protected
import Workers.Proofs.Registry.Relieved
import Workers.Proofs.Registry.Confluence
import Workers.Proofs.Registry.Drained
import Workers.Proofs.Capture.Extends
import Workers.Proofs.Capture.Refusals
import Workers.Proofs.Capture.Verdicts
import Workers.Proofs.Capture.Leftovers
import Workers.Proofs.Capture.Pass
import Workers.Proofs.Capture.Undone
import Workers.Proofs.Keys.Quantity
import Workers.Proofs.Tables.Lookup
import Workers.Proofs.Tables.Access
import Workers.Proofs.Tables.Corresponding
import Workers.Proofs.Keys.Exact
import Workers.Proofs.Capture.Released
import Workers.Proofs.Tables.Assignment
import Workers.Proofs.Registry.Lent
import Workers.Proofs.Pool.Adoption
import Workers.Proofs.Pool.Traceless
import Workers.Proofs.Pool.Attempt
import Workers.Proofs.Pool.Refused
import Workers.Proofs.Keys.Lossless
import Workers.Proofs.Control.Descriptions
import Workers.Proofs.Control.Controllers
import Workers.Proofs.Keys.Integral
import Workers.Proofs.Tables.Interchange
import Workers.Proofs.Notifier.Sleepers
import Workers.Proofs.Control.Unblocked
import Workers.Proofs.Hooks.Visits
import Workers.Proofs.Call.Ready
