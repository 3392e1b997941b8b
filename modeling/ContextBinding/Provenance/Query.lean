import ContextBinding.Flow.Cache
import ContextBinding.Provenance.Forward
import ContextBinding.Provenance.StackType

/-!
# Queries

Questions about the code of a method, asked through the cache of control-flow indexes.
-/

namespace ContextBinding

/-- A question that may make use of kept indexes and add to them. -/
abbrev Query := EStateM AnalysisError FlowCache

namespace Query

/-- The body of a method that has to have one. -/
def body (p : Program) (id : MethodId) : Query MethodBody :=
  match p.body id with
  | .ok b => pure b
  | .error e => throw (.model e)

/-- Forget what is kept of a method. -/
def invalidate (id : MethodId) : Query Unit := modify fun cache => cache.invalidate id

/-- The view of a method's code. -/
def view (p : Program) (id : MethodId) : Query CodeView := do
  let b ← body p id
  let index ← modifyGet fun cache => cache.index id b
  pure ⟨p, id, b, index⟩

/-- Ask a question of a method's code. -/
def ask {α : Type} (p : Program) (id : MethodId) (question : CodeView → Except AnalysisError α) :
    Query α := do
  question (← view p id)

/-- The paths of every operand of an instruction. -/
def operands (p : Program) (id : MethodId) (i : InstrId) : Query (List (List Path)) :=
  ask p id fun v => v.operands i

/-- The paths of one operand of an instruction. -/
def operand (p : Program) (id : MethodId) (i : InstrId) (slot : Nat) : Query (List Path) :=
  ask p id fun v => v.operand i slot

/-- The paths of a value on the stack. -/
def stackValue (p : Program) (id : MethodId) (i : InstrId) (depth : Nat) : Query (List Path) :=
  ask p id fun v => v.stackValue i depth

/-- The instructions that take what an instruction pushes. -/
def usage (p : Program) (id : MethodId) (i : InstrId) : Query (List Usage) :=
  ask p id fun v => v.usage i

/-- The instructions that take what an instruction pushes, also through locals and duplication. -/
def usageThroughLocals (p : Program) (id : MethodId) (i : InstrId) : Query (List Usage) :=
  ask p id fun v => v.usageThroughLocals i

/-- The stores that a load may see. -/
def localSources (p : Program) (id : MethodId) (i : InstrId) : Query (List InstrId) :=
  ask p id fun v => v.localSources i

/-- The loads that may see a store. -/
def localUses (p : Program) (id : MethodId) (i : InstrId) : Query (List InstrId) :=
  ask p id fun v => v.localUses i

/-- The type on top of the stack. -/
def topType (p : Program) (id : MethodId) (i : InstrId) : Query StackType :=
  ask p id fun v => v.topType i

/-- The type of an operand. -/
def operandType (p : Program) (id : MethodId) (i : InstrId) (slot : Nat) : Query StackType :=
  ask p id fun v => v.operandType i slot

end Query

end ContextBinding
