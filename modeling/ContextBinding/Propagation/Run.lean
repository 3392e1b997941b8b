import ContextBinding.Propagation.Transition

/-!
# Propagation

The need for the root spreads from the code that uses it to its callers. Methods are visited in
batches, each batch in the order of the methods; a visit adapts a method in place if it reaches the
root, and binds it otherwise, which brings its callers into the next batch. When no batch is left,
every piece of code that needs the root reaches it.
-/

namespace ContextBinding

namespace Propagate

/-- Where a method finds the root without changing its shape. -/
def handleOf? (method : MethodId) : Propagate (Option HandleSource) := do
  let s ← get
  let m ← model fun p => p.methodDef method
  let inContext (context : ContextId) : HandleSource :=
    .contextThis context (s.plan.context context).rootField
  match s.bindings.byReplacement? method with
  | some b =>
    match b.mode with
    | .addedParameter => pure (some (.parameter m.thisOffset))
    | .instanceConverted context => pure (some (inContext context))
    | .unbound => pure none
  | none =>
    if m.isStatic then pure none
    else if m.owner = s.plan.root then pure (some .rootThis)
    else
      match s.plan.byGenerated? m.owner with
      | some context => pure (some (inContext context))
      | none => pure ((s.closures.displayRoot? m.owner).map .capturedRoot)

/-- Give the method of a display class a field to find the root in. Whoever constructs the display
class has to fill it. -/
def displayHandle? (method : MethodId) : Propagate (Option HandleSource) := do
  let m ← model fun p => p.methodDef method
  if m.isStatic || !(← model fun p => p.typeDef m.owner).isDisplayClass then pure none
  else
    let (field, created) ← closures (ClosureEdit.ensureDisplayRoot m.owner)
    if created then
      let s ← get
      let constructors := s.program.constructors m.owner
      modify (.enqueue (constructors.flatMap s.graph.callerMethods))
    pure (some (.capturedRoot field))

/-- The places in a method that need the root. -/
def scan (method : MethodId) : Propagate (List NeedySite) := do
  let s ← get
  let b ← model fun p => p.body method
  pure (NeedySite.scan s.plan s.bindings s.closures s.program b)

/-- Visit a method. -/
def visit (method : MethodId) : Propagate Unit := do
  modify (.count fun n => { n with visits := n.visits + 1 })
  let m ← model fun p => p.methodDef method
  if m.isLive && !(← get).bindings.isBound method then
    let places ← scan method
    if !places.isEmpty then
      match ← handleOf? method with
      | some handle => adaptInPlace ⟨method, handle⟩ places
      | none =>
        match ← displayHandle? method with
        | some handle => adaptInPlace ⟨method, handle⟩ places
        | none => bindNeedy method places

/-- Visit everything that is pending. -/
def batch : Propagate Unit := do
  modify (.count fun n => { n with iterations := n.iterations + 1 })
  let s ← get
  match s.options.maxIterations with
  | some limit =>
    if limit < s.stats.iterations then throw (.binding (.iterationLimit limit))
  | none => pure ()
  set { s with pending := [] }
  s.pending.forM visit

/-- Repeat a step while something is pending, a number of times at most. -/
def whilePending (step : Propagate Unit) : Nat → Propagate Unit
  | 0 => pure ()
  | n + 1 => do
    if !(← get).pending.isEmpty then
      step
      whilePending step n

/-- More than the methods that a batch may find in need of the root. -/
def batchBound (s : Propagation) : Nat := s.program.methods.length + s.plan.size + 1

/-- Visit batches while something is pending. Every batch but the last leaves fewer methods that may
still need the root, except that methods come with the copies of display classes. These are made
when a method of a holder moves, which leaves fewer methods of holders to move, except for those of
a copy that is a holder itself. The batches are counted anew at each level for what is left then. -/
def batches : Nat → Propagate Unit
  | 0 => batch
  | level + 1 => do whilePending (batches level) (batchBound (← get))

/-- Visit batches until there is nothing left to visit. -/
def visitAll : Propagate Unit := do
  batches 3
  let s ← get
  if !s.pending.isEmpty then throw (.binding (.iterationLimit s.stats.iterations))

/-- Bind the methods that contexts bring replacements for. -/
def bindReplacements : Propagate Unit := do
  let plan := (← get).plan
  let given := plan.entries.flatMap fun e =>
    if e.2.isReusedSingleton then
      e.2.replacementMethods.entries.map fun pair =>
        Binding.mk pair.1 pair.2 (.instanceConverted e.1)
    else []
  let bound ← given.mapM fun b => do
    if (← model fun p => p.methodDef b.method).isRetired then pure none
    else
      bindMethod b
      pure (some (b.method, b.replacement))
  complete (bound.filterMap id)

/-- Whether the code of a method is looked at from the start. The root, the generated types and the
capture records are made to reach what they need. -/
def isSeed (s : Propagation) (m : MethodDef) : Bool :=
  let generated := (s.plan.byGenerated? m.owner).any fun context =>
    !(s.plan.context context).isReusedSingleton
  !m.isStaticConstructor && m.owner != s.plan.root && !generated
    && !s.closures.isRecordType m.owner

/-- Enqueue the methods that are looked at from the start. -/
def seed : Propagate Unit :=
  modify fun s =>
    s.enqueue (s.program.liveMethods.filter fun id => (s.program.method? id).any (isSeed s))

/-- Retire the static fields that moved and that no code names any more. -/
def retireMovedFields : Propagate Unit := do
  let s ← get
  if s.options.retireReplaced then
    let moved := ascending (s.plan.contexts.flatMap fun c => c.fieldPairs.map (·.1))
    let code := s.program.liveMethods.flatMap fun id =>
      (((s.program.method? id).bind (·.body)).map (·.instructions)).getD []
    let named := code.filterMap (·.field?)
    moved.forM fun field => do
      if !(← model fun p => p.fieldDef field).isRetired && !named.contains field then
        edit (Program.retireField field)

/-- Run to the end. -/
def run : Propagate Unit := do
  graph GraphEdit.build
  bindReplacements
  seed
  visitAll
  retireMovedFields
  modify fun s => s.count fun n => { n with skippedCaptureSites := s.closures.skipped }

end Propagate

/-- Bind the methods of a program to the contexts of a plan. The state of the run is returned in any
case. -/
def propagate (p : Program) (plan : ContextPlan) (options : PropagationOptions) :
    EStateM.Result Error Propagation Unit :=
  Propagate.run (.start p plan options)

end ContextBinding
