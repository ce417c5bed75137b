import Lineage.Admin.Run
import Lineage.Machine.Call
import Lineage.Main
import Lineage.Program.Listing
import Lineage.Proofs.Dict
import Lineage.Proofs.Machine.CallStack
import Lineage.Proofs.Machine.Reachable
import Lineage.Proofs.Machine.Safety
import Lineage.Proofs.Machine.Shapes
import Lineage.Proofs.Program.Exactness
import Lineage.Proofs.Program.ExprChecks
import Lineage.Proofs.Program.ExprShapes
import Lineage.Proofs.Program.Safety
import Lineage.Proofs.Program.Spans
import Lineage.Proofs.Program.StmtChecks
import Lineage.Proofs.Program.WellFormed
import Lineage.Proofs.Script.Correctness
import Lineage.Proofs.Script.CountedLoops
import Lineage.Proofs.Script.PrintedScripts
import Lineage.Proofs.Script.Returning
import Lineage.Proofs.Script.Scattering
import Lineage.Proofs.Script.Strings
import Lineage.Proofs.Script.Termination
import Lineage.Proofs.Script.Updating
import Lineage.Proofs.Store.Commands
import Lineage.Proofs.Store.Faithful
import Lineage.Proofs.Store.Frame
import Lineage.Proofs.Store.Legibility
import Lineage.Proofs.Store.Methods
import Lineage.Proofs.Store.Places
import Lineage.Proofs.Value.Order
import Lineage.Proofs.Value.Sequences
import Lineage.Proofs.World.Alike
import Lineage.Proofs.World.Ancestry
import Lineage.Proofs.World.Bootstrapping
import Lineage.Proofs.World.CachedTests
import Lineage.Proofs.World.Coherence
import Lineage.Proofs.World.Dispatch
import Lineage.Proofs.World.Failures
import Lineage.Proofs.World.Halting
import Lineage.Proofs.World.Invocations
import Lineage.Proofs.World.Legibility
import Lineage.Proofs.World.Logic
import Lineage.Proofs.World.Moves
import Lineage.Proofs.World.Reachable
import Lineage.Proofs.World.Reparenting
import Lineage.Proofs.World.Scans
import Lineage.Proofs.World.Scripts
import Lineage.Proofs.World.Sessions
import Lineage.Proofs.World.Shadowing
import Lineage.Proofs.World.Stock
import Lineage.Proofs.World.Tracebacks
import Lineage.Proofs.World.Tracking
import Lineage.Proofs.World.Transparency
import Lineage.Proofs.World.WriteOrder
import Lineage.Store.Any
import Lineage.Store.Durable
