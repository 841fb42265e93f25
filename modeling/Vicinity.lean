import Vicinity.Group.Script
import Vicinity.Search.Pairing
import Vicinity.Search.Session
import Vicinity.Proofs.Hierarchy.Prefix
import Vicinity.Proofs.Hierarchy.Range
import Vicinity.Proofs.Hierarchy.Shape
import Vicinity.Proofs.Hierarchy.Build
import Vicinity.Proofs.Group.Confluence
import Vicinity.Proofs.Group.Orderly
import Vicinity.Proofs.Group.Program
import Vicinity.Proofs.Group.Collective
import Vicinity.Proofs.Group.Delivery
import Vicinity.Proofs.Coord.Cover
import Vicinity.Proofs.Hierarchy.Overlap
import Vicinity.Proofs.Group.Routing
import Vicinity.Proofs.Coord.Float
import Vicinity.Proofs.Search.Matches
import Vicinity.Proofs.Search.BruteForce
import Vicinity.Proofs.Group.Departure
import Vicinity.Proofs.Search.Relation
import Vicinity.Proofs.Group.Candidates
import Vicinity.Proofs.Group.Sequence
import Vicinity.Proofs.Coord.Exact
import Vicinity.Proofs.Hierarchy.Distance
import Vicinity.Proofs.Search.Gathering
import Vicinity.Proofs.Search.RadiusPairing
import Vicinity.Proofs.Group.Barrier
import Vicinity.Proofs.Group.Return
import Vicinity.Proofs.Search.Refusal
import Vicinity.Proofs.Coord.Division
import Vicinity.Proofs.Search.Slack
import Vicinity.Proofs.Coord.Monotone
import Vicinity.Proofs.Coord.Machine
import Vicinity.Proofs.Hierarchy.Nearest
import Vicinity.Proofs.Hierarchy.Walks
import Vicinity.Proofs.Hierarchy.Refit
import Vicinity.Proofs.Search.Conclusion
import Vicinity.Proofs.Search.NearestPairing
import Vicinity.Proofs.Group.Outcome
import Vicinity.Proofs.Search.Failure
import Vicinity.Proofs.Search.Missed
import Vicinity.Proofs.Morton.Interleave
import Vicinity.Proofs.Morton.Cells
import Vicinity.Proofs.Search.MalformedTargets
import Vicinity.Proofs.Wire.Truncation
import Vicinity.Proofs.Hierarchy.Split
import Vicinity.Proofs.Hierarchy.Laminar
import Vicinity.Proofs.Group.GlobalBox
import Vicinity.Proofs.Search.Frame
