import ContextBinding.Binder
import ContextBinding.Code.Builder
import ContextBinding.Program.Listing
import ContextBinding.Proofs.Instantiation
import ContextBinding.Proofs.Rerun
import ContextBinding.Proofs.Adaptation
import ContextBinding.Proofs.Declaration
import ContextBinding.Proofs.Family
import ContextBinding.Proofs.Lockstep
import ContextBinding.Proofs.Provenance
import ContextBinding.Proofs.Usage
import ContextBinding.Proofs.Dispatch
import ContextBinding.Proofs.Resolution
import ContextBinding.Proofs.Rederivation
import ContextBinding.Proofs.Locality
import ContextBinding.Proofs.Conclusion
import ContextBinding.Proofs.Recoding
import ContextBinding.Proofs.Completion
import ContextBinding.Proofs.Collision
import ContextBinding.Proofs.Sharing
import ContextBinding.Proofs.StaticConstructors
import ContextBinding.Proofs.Freshness
import ContextBinding.Proofs.Implication
import ContextBinding.Proofs.Revision
import ContextBinding.Proofs.Population
import ContextBinding.Proofs.Typing
import ContextBinding.Proofs.Operands
import ContextBinding.Proofs.DeadCode
import ContextBinding.Proofs.Placement
import ContextBinding.Proofs.Refusal
import ContextBinding.Proofs.LocalFlow
import ContextBinding.Proofs.Records
import ContextBinding.Proofs.Trampolines
import ContextBinding.Proofs.TypeCopy
import ContextBinding.Proofs.Initialization
import ContextBinding.Proofs.Arguments
import ContextBinding.Proofs.Handles
import ContextBinding.Proofs.LeastOrder
import ContextBinding.Proofs.Circuits
import ContextBinding.Proofs.Interposition
import ContextBinding.Proofs.Computation
import ContextBinding.Proofs.RootCode
import ContextBinding.Proofs.ControlFlow
import ContextBinding.Proofs.LocalUsage
import ContextBinding.Proofs.Labels
import ContextBinding.Proofs.FreeName
import ContextBinding.Proofs.Redirection
