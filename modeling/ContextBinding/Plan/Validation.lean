import ContextBinding.Plan.Basic
import ContextBinding.Program.Names

/-!
# Plans that fit a program

A plan fits a program if every holder is planned once, every constructor belongs to its generated
type, every chain leads from the root over its links to the generated type and through the parent,
and fields move from statics of the holder to instance fields of the generated type. Contexts are
checked in their order, and the first thing that does not fit is reported.
-/

namespace ContextBinding.ContextPlan

variable (p : Program) (plan : ContextPlan)

/-- A look-up that the check of a plan needs. -/
def planned {α : Type} : Except ModelError α → Except PlanError α := Except.mapError .model

/-- The link of a chain that should lead elsewhere. -/
def mismatch (c : ContextDescriptor) (link : FieldId) (expected : TypeId) : PlanError :=
  .chainLinkMismatch c.name (p.fieldIdentity link) (p.typeName expected)

/-- Check that each link leads to the owner of the next one. -/
def validateLinks (c : ContextDescriptor) : List FieldId → Except PlanError Unit
  | a :: b :: rest => do
    let reached := (← planned (p.fieldDef a)).type.named?
    let owner := (← planned (p.fieldDef b)).owner
    if reached = some owner then validateLinks c (b :: rest) else throw (mismatch p c a owner)
  | _ => pure ()

/-- Check the last link: it leads to the generated type and belongs to that of the parent. -/
def validateSlot (c : ContextDescriptor) (slot : FieldId) : Except PlanError Unit := do
  let f ← planned (p.fieldDef slot)
  if f.type.named? ≠ some c.generated then throw (mismatch p c slot c.generated)
  match c.parent with
  | none => pure ()
  | some parent =>
    let parent := plan.context parent
    if f.owner ≠ parent.generated then throw (mismatch p c slot parent.generated)

/-- Check the chain of a context. -/
def validateChain (c : ContextDescriptor) : Except PlanError Unit := do
  match c.chain with
  | [] => throw (.chainStartsOffRoot c.name)
  | first :: rest =>
    if (← planned (p.fieldDef first)).owner ≠ plan.root then throw (.chainStartsOffRoot c.name)
    validateLinks p c c.chain
    validateSlot p plan c (rest.getLast?.getD first)

/-- Check one move of a field. -/
def validateMove (c : ContextDescriptor) (move : FieldId × FieldId) : Except PlanError Unit := do
  let source ← planned (p.fieldDef move.1)
  if !source.isStatic || source.owner != c.holder then
    throw (.movedFieldNotStatic c.name (p.fieldIdentity move.1))
  let target ← planned (p.fieldDef move.2)
  if target.isStatic || target.owner != c.generated then
    throw (.fieldNotOnGenerated c.name (p.fieldIdentity move.2))

/-- Check the field that refers back to the root. -/
def validateRootField (c : ContextDescriptor) : Except PlanError Unit := do
  match c.rootField with
  | none => pure ()
  | some field =>
    if (← planned (p.fieldDef field)).owner ≠ c.generated then
      throw (.fieldNotOnGenerated c.name (p.fieldIdentity field))

/-- Check that the parent of a context is another context of the plan. -/
def validateParent (id : ContextId) (c : ContextDescriptor) : Except PlanError Unit :=
  match c.parent with
  | none => .ok ()
  | some parent =>
    if parent = id ∨ (plan.context? parent).isNone then .error (.unknownParent c.name) else .ok ()

/-- Check one context. -/
def validateContext (id : ContextId) (c : ContextDescriptor) : Except PlanError Unit := do
  if (plan.contexts.take id.index).any fun other => other.holder == c.holder then
    throw (.duplicateHolder (p.typeName c.holder))
  if (← planned (p.methodDef c.constructor)).owner ≠ c.generated then
    throw (.foreignConstructor c.name)
  validateParent plan id c
  validateChain p plan c
  c.fieldPairs.forM (validateMove p c)
  validateRootField p c

/-- Check the plan against a program. -/
def validate : Except PlanError Unit := plan.entries.forM fun e => validateContext p plan e.1 e.2

end ContextBinding.ContextPlan
