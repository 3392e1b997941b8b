import ContextBinding.Binding.Workspace

/-!
# Inserting a value beneath operands

A call that gains a receiver or a first argument, and a store that gains an object, need one more
value under operands that are on the stack already. Where these come about in just one way, by code
that pushes nothing else, the value is pushed ahead of that code. Otherwise the operands are stored
in new locals, the value is pushed, and the operands are loaded again.
-/

namespace ContextBinding

/-- Where a value was inserted. -/
inductive Placement where
  /-- Ahead of an instruction. -/
  | before (id : InstrId)
  /-- Between a number of operands that were stored and loaded again. -/
  | spilled (locals : Nat)
  deriving DecidableEq, Repr

namespace Placement

/-- The instruction ahead of which a value comes to lie right beneath the one that the paths give.
-/
def anchor? : List Path → Option InstrId
  | [path] => if path.isInsertable then path.start? else none
  | _ => none

/-- Store the operands, push the value, and load the operands again. -/
def spill (types : List TypeRef) (anchor : InstrId) (seq : List Instruction) : BodyEdit Nat := do
  let locals ← types.mapM MethodBody.addLocal
  let stores := locals.reverse.map (Instruction.onLocal .stloc)
  let loads := locals.map (Instruction.onLocal .ldloc)
  let _ ← MethodBody.insertBefore anchor (stores ++ seq ++ loads)
  pure locals.length

end Placement

namespace CodeEdit

/-- The type that an operand can be stored as. -/
def spillType (method : MethodId) (id : InstrId) (slot : Nat) : CodeEdit TypeRef := do
  match ← query fun p => Query.operandType p method id slot with
  | .known type => pure type
  | .null | .divergent => pure .object

/-- Insert code ahead of an instruction. -/
def insertAhead (method : MethodId) (anchor : InstrId) (seq : List Instruction) :
    CodeEdit Placement := do
  let _ ← edit (Program.editBody method (MethodBody.insertBefore anchor seq))
  pure (.before anchor)

/-- Insert `seq`, which pushes one value, such that the value lies right beneath operand `slot` of
an instruction, or on top of its operands if there are no more than `slot`. -/
def insertBelow (method : MethodId) (id : InstrId) (slot : Nat) (seq : List Instruction) :
    CodeEdit Placement := do
  let i ← instruction method id
  let effect ← query fun p => monadLift (p.stackEffect method i)
  if effect.pops ≤ slot then insertAhead method id seq
  else
    match Placement.anchor? (← query fun p => Query.operand p method id slot) with
    | some anchor => insertAhead method anchor seq
    | none =>
      let slots := (List.range effect.pops).drop slot
      let types ← slots.mapM (spillType method id)
      pure (.spilled (← edit (Program.editBody method (Placement.spill types id seq))))

end CodeEdit

end ContextBinding
