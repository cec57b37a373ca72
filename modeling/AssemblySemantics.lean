import AssemblySemantics.Workspace
import AssemblySemantics.Proofs.Contribution.Image
import AssemblySemantics.Proofs.Machine.History
import AssemblySemantics.Proofs.Solver.Sweep
import AssemblySemantics.Proofs.Solver.Iteration
import AssemblySemantics.Proofs.Solver.Run
import AssemblySemantics.Proofs.Solver.Bound
import AssemblySemantics.Proofs.Propagation.Store
import AssemblySemantics.Proofs.Propagation.Incoming
import AssemblySemantics.Proofs.Diagram.Paths
import AssemblySemantics.Proofs.Propagation.Closed
import AssemblySemantics.Proofs.Propagation.Pass
import AssemblySemantics.Proofs.Propagation.Forward
import AssemblySemantics.Proofs.Propagation.Rounds
import AssemblySemantics.Proofs.Propagation.Acyclic
import AssemblySemantics.Proofs.Propagation.Growth
import AssemblySemantics.Proofs.Propagation.Refresh
import AssemblySemantics.Proofs.Solver.Order
import AssemblySemantics.Proofs.Assembly.Beside
import AssemblySemantics.Proofs.Solver.Beside
import AssemblySemantics.Proofs.Machine.Representation
import AssemblySemantics.Proofs.Propagation.Inside
import AssemblySemantics.Proofs.Solver.Cap
import AssemblySemantics.Proofs.Solver.Ranks
import AssemblySemantics.Proofs.Propagation.Stable
import AssemblySemantics.Proofs.Propagation.Accepted
import AssemblySemantics.Proofs.Contribution.Exits
import AssemblySemantics.Proofs.Contribution.Reactive
import AssemblySemantics.Proofs.Propagation.Dead
import AssemblySemantics.Proofs.Region.Interleaving
import AssemblySemantics.Proofs.Assembly.Joint
import AssemblySemantics.Proofs.Contribution.Confined
import AssemblySemantics.Proofs.Proposition.Truth
import AssemblySemantics.Proofs.Assembly.Replies
import AssemblySemantics.Proofs.Machine.Frame
import AssemblySemantics.Proofs.Machine.Defects
import AssemblySemantics.Proofs.Solver.Memory
import AssemblySemantics.Proofs.Configuration.Assignment
import AssemblySemantics.Proofs.Cache.Slots
