import ContextBinding.Closure.Basic
import ContextBinding.Propagation.Options
import ContextBinding.Reference.Graph

/-!
# The state of a run

A run changes the program and the init units of the plan. It keeps the reference graph up to date
with what it changes, remembers what it bound and what it knows of closures, and collects the
methods that have to be visited next.
-/

namespace ContextBinding

/-- The state of a run. -/
structure Propagation where
  work : Workspace
  plan : ContextPlan
  options : PropagationOptions
  graph : ReferenceGraph
  closures : Closures
  bindings : BindingMap
  stats : PropagationStats
  /-- The methods to visit in the next batch. -/
  pending : List MethodId

/-- A step of a run. -/
abbrev Propagate := EStateM Error Propagation

namespace Propagation

def program (s : Propagation) : Program := s.work.program

/-- A run that has not begun. -/
def start (p : Program) (plan : ContextPlan) (options : PropagationOptions) : Propagation :=
  { work := ⟨p, .empty⟩
    plan, options
    graph := .empty
    closures := .ofProgram p plan.root options.strictCaptures
    bindings := .empty
    stats := default
    pending := [] }

/-- Change what is counted. -/
def count (f : PropagationStats → PropagationStats) (s : Propagation) : Propagation :=
  { s with stats := f s.stats }

/-- Add methods to the next batch. -/
def enqueue (methods : List MethodId) (s : Propagation) : Propagation :=
  { s with pending := ascending (s.pending ++ methods) }

end Propagation

namespace Propagate

/-- Edit the code. -/
def work {α : Type} : CodeEdit α → Propagate α :=
  focus (·.work) (fun w s => { s with work := w }) id

/-- Change the program. -/
def edit {α : Type} (e : Edit α) : Propagate α := work (CodeEdit.edit e)

/-- Edit the body of a method. -/
def editBody {α : Type} (method : MethodId) (e : BodyEdit α) : Propagate α :=
  edit (Program.editBody method e)

/-- Edit the code and what is known of closures. -/
def closures {α : Type} : ClosureEdit α → Propagate α :=
  focus (fun s => (s.closures, s.work)) (fun t s => { s with closures := t.1, work := t.2 }) id

/-- The program as it is now. -/
def program : Propagate Program := do pure (← get).program

/-- Look something up in the program. -/
def model {α : Type} (f : Program → Except ModelError α) : Propagate α := work (CodeEdit.model f)

/-- Take the result of a step of the binding. -/
def bound {α : Type} (f : Program → Except BindingError α) : Propagate α :=
  work (CodeEdit.bound f)

/-- Change the reference graph. -/
def graph {α : Type} (e : Program → GraphEdit α) : Propagate α := do
  let p ← program
  focus (fun s => (s.graph, s.work.flow))
    (fun t s => { s with graph := t.1, work := { s.work with flow := t.2 } }) .analysis (e p)

/-- Bind a method. -/
def bindMethod (b : Binding) : Propagate Unit := do
  let bindings := (← get).bindings
  let bindings ← bound fun p => bindings.bind p b
  modify fun s => { s with bindings := bindings }

end Propagate

end ContextBinding
