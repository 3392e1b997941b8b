import ContextBinding.Closure.Basic
import ContextBinding.Plan.Basic
import ContextBinding.Reference.Capture

/-!
# Adapting captures

A callable made from a bound method is made from another one instead. A method that moved to a
context is captured together with the instance of the context. A method that gained a parameter is
reached through a capture record, which takes the place of the receiver and stores it. A callable
that the code keeps in a static field would stay bound to the first root; its cache is taken out
first.
-/

namespace ContextBinding

/-- What became of a capture. -/
inductive CaptureOutcome where
  | redirected
  /-- The capture was left alone. -/
  | skipped
  deriving DecidableEq, Repr

namespace MethodBody

/-- The instructions around a construction that keep its result in a static field: the field is
loaded, the construction skipped if it holds something, and filled after it. They are given in the
order in which they are taken out. -/
def cacheAround? (b : MethodBody) (start construct : InstrId) : Option (List InstrId) := do
  let isOp (op : OpCode) (id : InstrId) : Bool := (b.get? id).any fun i => i.opcode == op
  let dupAfter ← b.next? construct
  let store ← b.next? dupAfter
  let resume ← b.next? store
  let pop ← b.prev? start
  let branch ← b.prev? pop
  let dupBefore ← b.prev? branch
  let load ← b.prev? dupBefore
  let cache := (← b.get? store).field?
  let skips := (← b.get? branch).targetIds == [resume]
  let loads := (← b.get? load).field? == cache
  if isOp .dup dupAfter && isOp .stsfld store && isOp .pop pop && isOp .brtrue branch && skips
      && isOp .dup dupBefore && isOp .ldsfld load && loads then
    some [store, dupAfter, load, dupBefore, branch, pop]
  else none

/-- Whether all the paths of a value end with the null constant. -/
def isNull (b : MethodBody) (paths : List Path) : Bool :=
  !paths.isEmpty && paths.all fun path =>
    (path.producer?.bind b.get?).any fun i => i.opcode == .ldnull

end MethodBody

namespace ClosureEdit

/-- Leave a capture alone, or fail where that is not wanted. -/
def unrecognized (method : MethodId) (id : InstrId) (defect : CallableDefect) :
    ClosureEdit CaptureOutcome := do
  if (← closures).strict then
    throw (.binding (.unrecognizedCallable ((← program).identity method) id defect))
  else
    update fun c => { c with skipped := c.skipped + 1 }
    pure .skipped

/-- The construction that takes a function pointer. -/
def constructionOf? (method : MethodId) (pointer : InstrId) : ClosureEdit (Option InstrId) := do
  match ← work (CodeEdit.query fun p => Query.usage p method pointer) with
  | [only] =>
    if only.slot = 1 then
      let i ← work (CodeEdit.instruction method only.consumer)
      if CaptureLink.isConstruction (← program) i then pure (some only.consumer) else pure none
    else pure none
  | _ => pure none

/-- The paths of the receiver that a callable is constructed with. -/
def receiverPaths (method : MethodId) (construct : InstrId) : ClosureEdit (List Path) :=
  work (CodeEdit.query fun p => Query.operand p method construct 0)

/-- Take out the cache around a construction, if there is one. -/
def expandCache (method : MethodId) (construct : InstrId) : ClosureEdit Unit := do
  match ← receiverPaths method construct with
  | [path] =>
    let b ← work (CodeEdit.model fun p => p.body method)
    match path.start?.bind fun start => b.cacheAround? start construct with
    | some ids =>
      edit (Program.editBody method (ids.forM fun id => do
        let _ ← MethodBody.remove id))
    | none => pure ()
  | _ => pure ()

/-- Insert code ahead of the function pointer and let it point elsewhere. -/
def redirect (method : MethodId) (pointer : InstrId) (seq : List Instruction) (target : MethodId) :
    ClosureEdit CaptureOutcome := do
  edit (Program.editBody method do
    let _ ← MethodBody.insertBefore pointer seq
    MethodBody.setOperand pointer (.method target))
  pure .redirected

/-- Construct a record ahead of the function pointer. The code in `first` takes from the stack what
the record does not take. -/
def constructRecord (site : RootedMethod) (first : List Instruction) (receiver : Option TypeId)
    (b : Binding) : ClosureEdit (List Instruction × MethodId) := do
  let (constructor, forward) ← recordFor site.method receiver b
  let root ← work (CodeEdit.bound fun p => site.handle.loadRoot p site.method)
  pure (first ++ root ++ [.onMethod .newobj constructor], forward)

/-- The owner of a captured method. -/
def ownerOf (b : Binding) : ClosureEdit TypeId := do
  pure (← work (CodeEdit.model fun p => p.methodDef b.method)).owner

/-- Adapt the capture of a bound method at `pointer`. -/
def adaptCapture (plan : ContextPlan) (site : RootedMethod) (pointer : InstrId) (b : Binding) :
    ClosureEdit CaptureOutcome := do
  let method := site.method
  let opcode := (← work (CodeEdit.instruction method pointer)).opcode
  match ← constructionOf? method pointer with
  | none => unrecognized method pointer .noConstruction
  | some construct =>
    expandCache method construct
    let receiver ← receiverPaths method construct
    let captureFree := (← work (CodeEdit.model fun p => p.body method)).isNull receiver
    match b.mode, captureFree, opcode with
    | .instanceConverted context, true, .ldftn =>
      let code ← work (CodeEdit.bound fun p =>
        site.handle.loadContext p plan method context .read)
      redirect method pointer ([.plain .pop] ++ code) b.replacement
    | .addedParameter, true, .ldftn =>
      let (seq, forward) ← constructRecord site [.plain .pop] none b
      redirect method pointer seq forward
    | .addedParameter, false, .ldftn =>
      let (seq, forward) ← constructRecord site [] (some (← ownerOf b)) b
      redirect method pointer seq forward
    | .addedParameter, false, .ldvirtftn =>
      let (seq, forward) ← constructRecord site [.plain .pop] (some (← ownerOf b)) b
      edit (Program.editBody method do
        let _ ← MethodBody.insertBefore pointer seq
        MethodBody.replace pointer (.onMethod .ldftn forward))
      pure .redirected
    | .instanceConverted _, false, _ => unrecognized method pointer .staticWithReceiver
    | _, _, _ => unrecognized method pointer .unsupportedShape

end ClosureEdit

end ContextBinding
