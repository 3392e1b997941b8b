import ContextBinding.Binding.Insertion
import ContextBinding.Closure.Capture
import ContextBinding.Propagation.Site
import ContextBinding.Propagation.State

/-!
# Adapting in place

A method that reaches the root is adapted where it stands: each place that needs the root gets the
code that leads from the root to what it needs.
-/

namespace ContextBinding.Propagate

/-- The code that pushes the instance of a context. -/
def loadContext (site : RootedMethod) (context : ContextId) (access : ChainAccess) :
    Propagate (List Instruction) := do
  let plan := (← get).plan
  bound fun p => site.handle.loadContext p plan site.method context access

/-- Insert a value beneath an operand, and count it if operands had to be stored. -/
def insertBelow (method : MethodId) (id : InstrId) (slot : Nat) (seq : List Instruction) :
    Propagate Unit := do
  match ← work (CodeEdit.insertBelow method id slot seq) with
  | .before _ => pure ()
  | .spilled _ => modify (.count fun n => { n with spilledSites := n.spilledSites + 1 })

/-- Access the instance field that a static field moved to. -/
def adaptField (site : RootedMethod) (id : InstrId) (context : ContextId) (moved : FieldId) :
    Propagate Unit := do
  let i ← work (CodeEdit.instruction site.method id)
  match i.opcode with
  | .ldsfld =>
    let code ← loadContext site context .read
    let _ ← editBody site.method (MethodBody.replaceWith id (code ++ [.onField .ldfld moved]))
  | .ldsflda =>
    let code ← loadContext site context .address
    let _ ← editBody site.method (MethodBody.replaceWith id (code ++ [.onField .ldflda moved]))
  | .stsfld =>
    let code ← loadContext site context .address
    insertBelow site.method id 0 code
    editBody site.method (MethodBody.replace id (.onField .stfld moved))
  | _ => pure ()

/-- Load the instance of a context in the place of the one it took over. -/
def adaptSingleton (site : RootedMethod) (id : InstrId) (context : ContextId) : Propagate Unit := do
  let code ← loadContext site context .read
  let _ ← editBody site.method (MethodBody.replaceWith id code)

/-- Call what stands in for a bound method. -/
def adaptCall (site : RootedMethod) (id : InstrId) (b : Binding) : Propagate Unit := do
  let i ← work (CodeEdit.instruction site.method id)
  match b.mode with
  | .addedParameter =>
    let slot ←
      if i.opcode = .newobj then pure 0
      else do pure (← model fun p => p.methodDef b.method).thisOffset
    let root ← bound fun p => site.handle.loadRoot p site.method
    insertBelow site.method id slot root
    editBody site.method (MethodBody.setOperand id (.method b.replacement))
  | .instanceConverted context =>
    let code ← loadContext site context .address
    insertBelow site.method id 0 code
    editBody site.method (MethodBody.replace id (.onMethod .call b.replacement))
  | .unbound => pure ()

/-- Capture what stands in for a bound method. Tells whether anything was changed. -/
def adaptCapture (site : RootedMethod) (id : InstrId) (b : Binding) : Propagate Bool := do
  modify (.count fun n => { n with captureSites := n.captureSites + 1 })
  let plan := (← get).plan
  match ← closures (ClosureEdit.adaptCapture plan site id b) with
  | .redirected => pure true
  | .skipped => pure false

/-- Adapt one place. Tells whether anything was changed. -/
def adaptSite (site : RootedMethod) (place : NeedySite) : Propagate Bool := do
  match place.need with
  | .staticField context moved =>
    adaptField site place.instr context moved
    pure true
  | .singleton context =>
    adaptSingleton site place.instr context
    pure true
  | .boundCall b =>
    adaptCall site place.instr b
    pure true
  | .capture b => adaptCapture site place.instr b
  | .displayStore field =>
    closures (ClosureEdit.storeDisplayRoot site place.instr field)
    pure true

/-- Adapt all places of a method. -/
def adaptInPlace (site : RootedMethod) (places : List NeedySite) : Propagate Unit := do
  let outcomes ← places.mapM (adaptSite site)
  let changed := outcomes.countP id
  if 0 < changed then
    modify (.count fun n => { n with adaptedSites := n.adaptedSites + changed })
    graph fun p => GraphEdit.rederive p site.method

end ContextBinding.Propagate
