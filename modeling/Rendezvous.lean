import Rendezvous.Json.Printer
import Rendezvous.Main
import Rendezvous.Proofs.Commit
import Rendezvous.Proofs.Moves
import Rendezvous.Proofs.Reading
import Rendezvous.Proofs.Checked
import Rendezvous.Proofs.Net
import Rendezvous.Proofs.Effect
import Rendezvous.Proofs.Turns
import Rendezvous.Proofs.Steps
import Rendezvous.Proofs.Creations
import Rendezvous.Proofs.Typed
import Rendezvous.Proofs.Linear
import Rendezvous.Proofs.Calls
import Rendezvous.Proofs.Runs
import Rendezvous.Proofs.ClientEnds
import Rendezvous.Proofs.Forest
import Rendezvous.Proofs.Offspring
import Rendezvous.Proofs.Progress
import Rendezvous.Proofs.Copies
import Rendezvous.Proofs.Topology
import Rendezvous.Proofs.WellUsed
import Rendezvous.Proofs.Line
import Rendezvous.Proofs.Accepted
import Rendezvous.Proofs.Stations
import Rendezvous.Proofs.Orders
import Rendezvous.Proofs.Agreement
import Rendezvous.Proofs.Built
import Rendezvous.Proofs.Revisions
import Rendezvous.Proofs.Rules
import Rendezvous.Proofs.Replay
import Rendezvous.Proofs.Equality
import Rendezvous.Proofs.Bisimilarity
import Rendezvous.Proofs.Loaded
import Rendezvous.Proofs.Simulation
import Rendezvous.Proofs.Delivery
import Rendezvous.Proofs.Preservation
import Rendezvous.Proofs.Suspension
import Rendezvous.Proofs.Lowering
import Rendezvous.Proofs.Chronicle
import Rendezvous.Proofs.History
import Rendezvous.Proofs.Paths
import Rendezvous.Proofs.Causes
import Rendezvous.Proofs.Chains
import Rendezvous.Proofs.Sizes
import Rendezvous.Proofs.Atomicity
import Rendezvous.Proofs.Complete
import Rendezvous.Proofs.Whole
import Rendezvous.Proofs.Sufficient
import Rendezvous.Proofs.RoundTrip
import Rendezvous.Proofs.Liability
import Rendezvous.Proofs.Stamps
import Rendezvous.Proofs.Aliases
import Rendezvous.Proofs.Landings
import Rendezvous.Proofs.Reordering
import Rendezvous.Proofs.Rows
import Rendezvous.Proofs.Codecs
import Rendezvous.Proofs.Debts
import Rendezvous.Proofs.Solvency
import Rendezvous.Proofs.Ways
import Rendezvous.Proofs.Kept
import Rendezvous.Proofs.Shortcuts
import Rendezvous.Proofs.Late
