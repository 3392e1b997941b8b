import ContextBinding.Plan.Basic
import ContextBinding.Program.Types

/-!
# Handles

How a method reaches the root object, and from there over its chain any context. A method of a
context starts from its own instance when the chain of the other context goes on from there.
-/

namespace ContextBinding

/-- Where a method finds the root. -/
inductive HandleSource where
  /-- In a parameter. -/
  | parameter (index : Nat)
  /-- The method belongs to the root. -/
  | rootThis
  /-- The method belongs to a context, which may refer back to the root. -/
  | contextThis (context : ContextId) (rootField : Option FieldId)
  /-- The method belongs to an object that stores the root. -/
  | capturedRoot (field : FieldId)
  deriving DecidableEq, Repr

/-- What the instance of a context is needed for. -/
inductive ChainAccess where
  /-- One of its fields is read. -/
  | read
  /-- It is stored into, called, or the address of one of its fields is taken. -/
  | address
  deriving DecidableEq, Repr

namespace HandleSource

/-- The code that pushes the root. -/
def loadRoot (source : HandleSource) (p : Program) (method : MethodId) :
    Except BindingError (List Instruction) :=
  match source with
  | parameter index => .ok [.onArg .ldarg index]
  | rootThis => .ok [.onArg .ldarg 0]
  | contextThis _ (some field) => .ok [.onArg .ldarg 0, .onField .ldfld field]
  | capturedRoot field => .ok [.onArg .ldarg 0, .onField .ldfld field]
  | contextThis _ none => .error (.missingHandle (p.identity method))

/-- Where the code that pushes a context starts, and the links it still has to follow. -/
def chainStart (source : HandleSource) (p : Program) (plan : ContextPlan) (method : MethodId)
    (target : ContextDescriptor) : Except BindingError (List Instruction × List FieldId) := do
  match source with
  | contextThis current _ =>
    let chain := (plan.context current).chain
    if chain.isPrefixOf target.chain then
      pure ([.onArg .ldarg 0], target.chain.drop chain.length)
    else pure (← source.loadRoot p method, target.chain)
  | _ => pure (← source.loadRoot p method, target.chain)

/-- The instruction that follows a link. A link to a value is followed by its address, which a read
cannot do. -/
def followLink (p : Program) (method : MethodId) (access : ChainAccess) (link : FieldId) :
    Except BindingError Instruction :=
  match p.field? link with
  | none => .error (.missingHandle (p.identity method))
  | some f =>
    if p.isValueType f.type then
      match access with
      | .read => .error (.valueTypeIndirection (p.identity method) (p.fieldIdentity link))
      | .address => .ok (.onField .ldflda link)
    else .ok (.onField .ldfld link)

/-- The code that pushes the instance of a context. -/
def loadContext (source : HandleSource) (p : Program) (plan : ContextPlan) (method : MethodId)
    (context : ContextId) (access : ChainAccess) : Except BindingError (List Instruction) := do
  let (code, links) ← source.chainStart p plan method (plan.context context)
  pure (code ++ (← links.mapM (followLink p method access)))

end HandleSource

end ContextBinding
