import ContextBinding.Binding.Workspace
import ContextBinding.Instantiation.Order
import ContextBinding.Program.Types

/-!
# The root constructor

The constructor of the root stores every context in its slot: a new instance, or the one that is
taken over. Slots that the constructor stores already are left to it.
-/

namespace ContextBinding

/-- A statement of the root constructor. -/
inductive InstantiationStep where
  /-- Construct a context and store it in its parent or in the root. -/
  | construct (context : ContextId) (slot : FieldId) (parent : Option ContextId)
  /-- Store the instance that is there already in a static field. -/
  | assign (context : ContextId) (slot instanceField : FieldId)
  deriving DecidableEq, Repr

namespace InstantiationStep

def context : InstantiationStep → ContextId
  | construct context _ _ | assign context _ _ => context

/-- The field that the step stores. -/
def slot : InstantiationStep → FieldId
  | construct _ slot _ | assign _ slot _ => slot

end InstantiationStep

namespace ContextPlan

/-- The statement for a context, if it has a slot. -/
def stepFor? (plan : ContextPlan) (id : ContextId) : Option InstantiationStep :=
  let c := plan.context id
  c.slot?.map fun slot =>
    match c.singleton with
    | some field => .assign id slot field
    | none => .construct id slot c.parent

/-- The statements for contexts that are in order. -/
def stepsIn (plan : ContextPlan) (order : List ContextId) : List InstantiationStep :=
  order.filterMap plan.stepFor?

/-- The statements of the root constructor in order. -/
def steps (plan : ContextPlan) (p : Program) (g : ReferenceGraph) :
    Except ResolveError (List InstantiationStep) := do
  pure (plan.stepsIn (← plan.order p g))

variable (plan : ContextPlan) (p : Program)

/-- The instruction that follows a link, by address if it leads to a value. -/
def linkLoad (link : FieldId) : Except ModelError Instruction := do
  let f ← p.fieldDef link
  pure (.onField (if p.isValueType f.type then .ldflda else .ldfld) link)

/-- The code that pushes what a chain leads to. -/
def chainLoad (chain : List FieldId) : Except ModelError (List Instruction) := do
  pure (.onArg .ldarg 0 :: (← chain.mapM (linkLoad p)))

/-- The code that pushes an argument of a context's constructor: the root, the parent, or null. -/
def argumentLoad (c : ContextDescriptor) (type : TypeRef) : Except ModelError (List Instruction) :=
  if type = .named plan.root then .ok [.onArg .ldarg 0]
  else
    match c.parent with
    | none => .ok [.plain .ldnull]
    | some parent =>
      let parent := plan.context parent
      if type = .named parent.generated then chainLoad p parent.chain else .ok [.plain .ldnull]

/-- The code that pushes what a statement stores. -/
def instanceLoad (step : InstantiationStep) : Except ModelError (List Instruction) := do
  match step with
  | .construct context _ _ =>
    let c := plan.context context
    let constructor ← p.methodDef c.constructor
    let arguments ← constructor.params.mapM fun param => argumentLoad plan p c param.type
    pure (arguments.flatten ++ [.onMethod .newobj c.constructor])
  | .assign _ _ field => pure [.onField .ldsfld field]

/-- The code of a statement. -/
def stepCode (step : InstantiationStep) : Except ModelError (List Instruction) := do
  let target ← chainLoad p (plan.context step.context).chain.dropLast
  let value ← instanceLoad plan p step
  pure (target ++ value ++ [.onField .stfld step.slot])

end ContextPlan

/-- The fields that a body stores. -/
def MethodBody.storedFields (b : MethodBody) : List FieldId :=
  (b.instructions.filter fun i => i.opcode == .stfld).filterMap (·.field?)

namespace MethodBody

/-- Run code ahead of every return, or at the end and then return if there is none. -/
def insertAtReturns (code : List Instruction) : BodyEdit Unit := do
  match (← get).returns with
  | [] =>
    let _ ← push (code ++ [.plain .ret])
  | returns =>
    returns.forM fun ret => do
      let _ ← insertBefore ret code

end MethodBody

/-- An edit that ends the run of the binder when it fails. -/
abbrev Emit := EStateM Error Program

namespace Emit

/-- Change the program. -/
def edit {α : Type} : Edit α → Emit α := focus id (fun p _ => p) .model

/-- Look something up in the program. -/
def model {α : Type} (f : Program → Except ModelError α) : Emit α := do
  edit (monadLift (f (← get)))

/-- Put statements into the root constructor, ahead of every return. Tells how many there were whose
slot was not stored before. -/
def rootConstructor (plan : ContextPlan) (steps : List InstantiationStep) : Emit Nat := do
  let m ← model fun p => p.methodDef plan.rootConstructor
  match m.body with
  | none => throw (.resolve (.missingRootConstructor ((← get).typeName plan.root)))
  | some b =>
    let missing := steps.filter fun step => !b.storedFields.contains step.slot
    let code ← model fun p => missing.mapM (plan.stepCode p)
    if !missing.isEmpty then
      edit (Program.editBody plan.rootConstructor (MethodBody.insertAtReturns code.flatten))
    pure missing.length

/-- Put statements into the root constructor, which gets a body first if it has none. -/
def rootConstructorBody (plan : ContextPlan) (steps : List InstantiationStep) : Emit Nat := do
  let m ← model fun p => p.methodDef plan.rootConstructor
  if m.body.isNone then
    edit (Program.setBody plan.rootConstructor (.fresh [.plain .ret]))
  rootConstructor plan steps

end Emit

end ContextBinding
