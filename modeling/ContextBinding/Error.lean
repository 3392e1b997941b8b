import ContextBinding.Code.OpCode
import ContextBinding.Id

/-!
# Errors

What can go wrong, by the layer that finds it: the program model, the analyses of one body, the
validation of a plan, the binding of methods, and the ordering of contexts. An error carries what it
is about; `message` puts it into words.
-/

namespace ContextBinding

/-- A computation that only fails or returns is an edit that changes nothing. -/
instance liftExcept {ε σ : Type} : MonadLift (Except ε) (EStateM ε σ) where
  monadLift
    | .ok a => pure a
    | .error e => throw e

/-- What is wrong with an operand. -/
inductive OperandDefect where
  | stillTargeted
  | notLocal
  deriving DecidableEq, Repr

namespace OperandDefect

def message : OperandDefect → String
  | stillTargeted => "last instruction is still a jump target"
  | notLocal => "expected a local operand"

end OperandDefect

/-- Failed look-ups, registrations and edits of a program. -/
inductive ModelError where
  | unknownType (id : TypeId)
  | unknownField (id : FieldId)
  | unknownMethod (id : MethodId)
  | duplicateType (name : String)
  | duplicateField (identity : String)
  | duplicateMethod (identity : String)
  | noBody (method : String)
  | unknownInstruction (instr : InstrId)
  | unboundLabel (label : Nat)
  | invalidOperand (instr : InstrId) (defect : OperandDefect)
  deriving DecidableEq, Repr

namespace ModelError

def message : ModelError → String
  | unknownType id => s!"unknown type {id}"
  | unknownField id => s!"unknown field {id}"
  | unknownMethod id => s!"unknown method {id}"
  | duplicateType name => "type '" ++ name ++ "' is already registered"
  | duplicateField identity => "field '" ++ identity ++ "' is already registered"
  | duplicateMethod identity => "method '" ++ identity ++ "' is already registered"
  | noBody method => "method '" ++ method ++ "' has no body"
  | unknownInstruction instr => s!"instruction {instr} is not part of the body"
  | unboundLabel label => s!"label {label} was used but never marked"
  | invalidOperand instr defect => s!"operand of {instr} is invalid: {defect.message}"

end ModelError

/-- Failed queries about one body. -/
inductive AnalysisError where
  | unresolvedStackEffect (method : String) (instr : InstrId) (opcode : OpCode)
  | stackUnderflow (method : String) (instr : InstrId)
  | slotOutOfRange (method : String) (instr : InstrId) (slot arity : Nat)
  | model (cause : ModelError)
  deriving DecidableEq, Repr

namespace AnalysisError

def message : AnalysisError → String
  | unresolvedStackEffect method instr opcode =>
    s!"cannot resolve stack effect of {opcode.name} at {instr} in '" ++ method ++ "'"
  | stackUnderflow method instr =>
    s!"stack underflow tracing operands of {instr} in '" ++ method ++ "'"
  | slotOutOfRange method instr slot arity =>
    s!"slot {slot} out of range for {instr} in '" ++ method ++ s!"' (consumes {arity})"
  | model cause => cause.message

end AnalysisError

/-- Plans that do not fit the program. -/
inductive PlanError where
  | chainStartsOffRoot (context : String)
  | chainLinkMismatch (context link expected : String)
  | duplicateHolder (holder : String)
  | unknownParent (context : String)
  | movedFieldNotStatic (context field : String)
  | fieldNotOnGenerated (context field : String)
  | foreignConstructor (context : String)
  | model (cause : ModelError)
  deriving DecidableEq, Repr

namespace PlanError

def message : PlanError → String
  | chainStartsOffRoot context =>
    "context '" ++ context ++ "' nested chain does not start at the root type"
  | chainLinkMismatch context link expected =>
    "context '" ++ context ++ "' chain link '" ++ link ++ "' does not lead to '" ++ expected ++ "'"
  | duplicateHolder holder => "holder '" ++ holder ++ "' is planned as more than one context"
  | unknownParent context => "context '" ++ context ++ "' names an unknown parent"
  | movedFieldNotStatic context field =>
    "context '" ++ context ++ "' moves '" ++ field ++ "', which is not a static field of its holder"
  | fieldNotOnGenerated context field =>
    "context '" ++ context ++ "' maps '" ++ field ++ "' onto a field outside its generated type"
  | foreignConstructor context =>
    "context '" ++ context ++ "' constructor does not belong to its generated type"
  | model cause => cause.message

end PlanError

/-- Why the construction of a callable cannot be made to carry the root. -/
inductive CallableDefect where
  | noConstruction
  | staticWithReceiver
  | unsupportedShape
  deriving DecidableEq, Repr

namespace CallableDefect

def message : CallableDefect → String
  | noConstruction => "function pointer is not passed to a callable constructor"
  | staticWithReceiver => "static target captured together with a receiver"
  | unsupportedShape => "unsupported capture shape"

end CallableDefect

/-- Methods that cannot be bound to a context. -/
inductive BindingError where
  | alreadyBound (method existing : String)
  | incompatibleFamily (method member : String)
  | valueTypeIndirection (method field : String)
  | unrecognizedCallable (method : String) (instr : InstrId) (defect : CallableDefect)
  | missingHandle (method : String)
  | iterationLimit (limit : Nat)
  deriving DecidableEq, Repr

namespace BindingError

def message : BindingError → String
  | alreadyBound method existing =>
    "method '" ++ method ++ "' is already bound to '" ++ existing ++ "'"
  | incompatibleFamily method member =>
    "cannot add a context parameter to '" ++ method ++ "': family member '" ++ member
      ++ "' is instance-converted"
  | valueTypeIndirection method field =>
    "'" ++ method ++ "' reads '" ++ field ++ "' through a value-typed chain link"
  | unrecognizedCallable method instr defect =>
    s!"unrecognized callable construction at {instr} in '" ++ method ++ "': " ++ defect.message
  | missingHandle method => "no context handle available in '" ++ method ++ "'"
  | iterationLimit limit => s!"propagation did not converge within {limit} iterations"

end BindingError

/-- Contexts that cannot be constructed. -/
inductive ResolveError where
  | cycles (found : List (List String))
  | missingRootConstructor (root : String)
  deriving DecidableEq, Repr

namespace ResolveError

/-- A cycle as its names in order, the first one again at the end. -/
def cycleText (cycle : List String) : String := " -> ".intercalate (cycle ++ cycle.take 1)

def message : ResolveError → String
  | cycles found => "instantiation cycles: " ++ "; ".intercalate (found.map cycleText)
  | missingRootConstructor root =>
    "root type '" ++ root ++ "' has no constructor body to populate"

end ResolveError

/-- Any failure of a whole pass. -/
inductive Error where
  | model (cause : ModelError)
  | analysis (cause : AnalysisError)
  | plan (cause : PlanError)
  | binding (cause : BindingError)
  | resolve (cause : ResolveError)
  deriving DecidableEq, Repr

namespace Error

def message : Error → String
  | model cause => cause.message
  | analysis cause => cause.message
  | plan cause => cause.message
  | binding cause => cause.message
  | resolve cause => cause.message

end Error

end ContextBinding
