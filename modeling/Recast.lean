import Recast.Main
import Recast.Files.Store
import Recast.Proofs.Declared
import Recast.Proofs.Pieces
import Recast.Proofs.Chained
import Recast.Proofs.Losses
import Recast.Proofs.Acceptance
import Recast.Proofs.Regrouping
import Recast.Proofs.Orders
import Recast.Proofs.Reports
import Recast.Proofs.RoundTrip
import Recast.Proofs.Copied
import Recast.Proofs.Resolved
import Recast.Proofs.Surroundings
import Recast.Proofs.Places
import Recast.Proofs.Headers
import Recast.Proofs.Effects
import Recast.Proofs.Uncommented
import Recast.Proofs.Refusals
import Recast.Proofs.Bindings
import Recast.Proofs.Additions
import Recast.Proofs.Repeats
import Recast.Proofs.Signature
import Recast.Proofs.Names
import Recast.Proofs.Inferred
import Recast.Proofs.Arguments
import Recast.Proofs.CommandReports
import Recast.Proofs.LoopHeaders
import Recast.Proofs.Histories
import Recast.Proofs.Deliveries
import Recast.Proofs.Definitions
