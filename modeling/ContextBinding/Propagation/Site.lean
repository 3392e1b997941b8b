import ContextBinding.Closure.Display
import ContextBinding.Plan.Basic

/-!
# Sites

The places in a body that need the root: accesses of static fields that moved, loads of an instance
that was taken over, calls and captures of bound methods, and constructions of display classes whose
field for the root is not filled yet.
-/

namespace ContextBinding

/-- Why a place in a body needs the root. -/
inductive SiteNeed where
  /-- A static field is accessed that moved to a context. -/
  | staticField (context : ContextId) (moved : FieldId)
  /-- The instance that a context takes over is loaded. -/
  | singleton (context : ContextId)
  | boundCall (binding : Binding)
  | capture (binding : Binding)
  /-- A display class is constructed whose field for the root is not filled. -/
  | displayStore (field : FieldId)
  deriving DecidableEq, Repr

namespace SiteNeed

/-- Whether the state of a context itself is reached. -/
def targets (context : ContextId) : SiteNeed → Bool
  | staticField c _ | singleton c => c == context
  | boundCall b | capture b => b.mode == .instanceConverted context
  | displayStore _ => false

end SiteNeed

/-- A place in a body that needs the root. -/
structure NeedySite where
  instr : InstrId
  need : SiteNeed
  deriving DecidableEq, Repr

namespace NeedySite

variable (plan : ContextPlan) (bindings : BindingMap) (closures : Closures) (p : Program)

/-- Why an access of a static field needs the root. -/
def ofFieldAccess? (opcode : OpCode) (field : FieldId) : Option SiteNeed :=
  match plan.movedField? field with
  | some (context, moved) => some (.staticField context moved)
  | none => if opcode = .ldsfld then (plan.singletonOf? field).map .singleton else none

/-- Why a call or construction needs the root. -/
def ofCall? (b : MethodBody) (i : Instruction) (target : MethodId) : Option SiteNeed :=
  match bindings.get? target with
  | some binding => some (.boundCall binding)
  | none => if i.opcode = .newobj then (closures.pendingStore? p b i.id).map .displayStore else none

/-- Why an instruction needs the root. -/
def needOf? (b : MethodBody) (i : Instruction) : Option SiteNeed :=
  match i.opcode with
  | .ldsfld | .ldsflda | .stsfld => i.field?.bind (ofFieldAccess? plan i.opcode)
  | .call | .callvirt | .newobj => i.method?.bind (ofCall? bindings closures p b i)
  | .ldftn | .ldvirtftn => (i.method?.bind bindings.get?).map .capture
  | _ => none

/-- The places in a body that need the root, in the order of the code. -/
def scan (b : MethodBody) : List NeedySite :=
  b.instructions.filterMap fun i =>
    (needOf? plan bindings closures p b i).map fun need => ⟨i.id, need⟩

end NeedySite

end ContextBinding
