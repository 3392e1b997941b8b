import ContextBinding.Focus
import ContextBinding.Provenance.Query

/-!
# Editing code

Edits of a program that depend on what its code does.
-/

namespace ContextBinding

/-- A program that is being edited, with what is known of its control flow. -/
structure Workspace where
  program : Program
  flow : FlowCache

/-- An edit of a program that asks questions of its code. -/
abbrev CodeEdit := EStateM Error Workspace

namespace CodeEdit

/-- The program as it is now. -/
def program : CodeEdit Program := do pure (← get).program

/-- Change the program. -/
def edit {α : Type} : Edit α → CodeEdit α :=
  focus (·.program) (fun p s => { s with program := p }) .model

/-- Ask a question of the code. -/
def query {α : Type} (question : Program → Query α) : CodeEdit α := do
  focus (·.flow) (fun cache s => { s with flow := cache }) .analysis (question (← program))

/-- Look something up in the program. -/
def model {α : Type} (f : Program → Except ModelError α) : CodeEdit α := do
  match f (← program) with
  | .ok a => pure a
  | .error e => throw (.model e)

/-- Take the result of a step of the binding. -/
def bound {α : Type} (f : Program → Except BindingError α) : CodeEdit α := do
  match f (← program) with
  | .ok a => pure a
  | .error e => throw (.binding e)

/-- An instruction that has to be there. -/
def instruction (method : MethodId) (id : InstrId) : CodeEdit Instruction :=
  model fun p => do
    match (← p.body method).get? id with
    | some i => pure i
    | none => throw (.unknownInstruction id)

end CodeEdit

end ContextBinding
