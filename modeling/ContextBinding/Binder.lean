import ContextBinding.Instantiation.RootConstructor
import ContextBinding.Plan.Validation
import ContextBinding.Propagation.Run

/-!
# Binding a program

One run checks the plan, binds the methods that need a context, orders the contexts and fills the
root constructor. A run that fails changes nothing.
-/

namespace ContextBinding

/-- What may be chosen about a run. -/
structure BinderConfig where
  options : PropagationOptions
  /-- Fill the root constructor. -/
  emitRootConstructor : Bool
  deriving DecidableEq, Repr

instance : Inhabited BinderConfig := ⟨⟨default, true⟩⟩

/-- What a run produced. -/
structure BindReport where
  bindings : BindingMap
  /-- The capture records in the order of their keys. -/
  records : List CaptureRecord
  /-- The contexts in the order of their construction. -/
  order : List ContextId
  /-- The statements of the root constructor. -/
  steps : List InstantiationStep
  /-- The number of statements that were put into the root constructor. -/
  emittedSteps : Nat
  stats : PropagationStats
  deriving DecidableEq, Repr

namespace BindReport

/-- What stands in for a method. -/
def replacement? (r : BindReport) (method : MethodId) : Option MethodId :=
  r.bindings.replacement? method

/-- How a method is bound. -/
def mode (r : BindReport) (method : MethodId) : BindingMode := r.bindings.mode method

/-- Whether the run had nothing to do. -/
def isNoop (r : BindReport) : Bool :=
  r.bindings.isEmpty && r.records.isEmpty && r.emittedSteps == 0

/-- The line of a binding. -/
def bindingLine (p : Program) (b : Binding) : String :=
  p.identity b.method ++ " => " ++ p.identity b.replacement ++ s!" [{b.mode}]\n"

/-- The bindings, a line for each. -/
def describe (r : BindReport) (p : Program) : String :=
  String.join (r.bindings.toList.map (bindingLine p))

protected def toString (r : BindReport) : String :=
  s!"{r.bindings.size} bindings, {r.records.length} capture records, "
    ++ s!"{r.order.length} contexts ordered, {r.stats.iterations} batches"

instance : ToString BindReport := ⟨BindReport.toString⟩

end BindReport

/-- A program with its plan and the report of the run that made them. -/
structure BoundProgram where
  program : Program
  plan : ContextPlan
  report : BindReport

namespace BinderConfig

/-- Order the contexts of a finished run and fill the root constructor. -/
def finish (config : BinderConfig) (s : Propagation) : Except Error BoundProgram := do
  let order ← (s.plan.order s.program s.graph).mapError .resolve
  let steps := s.plan.stepsIn order
  let report (emitted : Nat) : BindReport :=
    { bindings := s.bindings
      records := s.closures.records.values
      order, steps
      emittedSteps := emitted
      stats := s.stats }
  if config.emitRootConstructor then
    match Emit.rootConstructor s.plan steps s.program with
    | .ok emitted p => pure ⟨p, s.plan, report emitted⟩
    | .error e _ => throw e
  else pure ⟨s.program, s.plan, report 0⟩

/-- Bind a program against a plan. -/
def run (config : BinderConfig) (p : Program) (plan : ContextPlan) : Except Error BoundProgram := do
  (plan.validate p).mapError .plan
  match propagate p plan config.options with
  | .ok _ s => config.finish s
  | .error e _ => throw e

end BinderConfig

end ContextBinding
