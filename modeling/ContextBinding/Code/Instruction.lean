import ContextBinding.Code.OpCode
import ContextBinding.Code.TypeRef
import ContextBinding.Text.Decimal
import ContextBinding.Text.Quoted

/-!
# Instructions

An instruction is an operation with an operand. The operand of a branch names instructions of the
same body; the other operands are constants, positions of arguments and locals, or members of the
program.
-/

namespace ContextBinding

/-- What an operation is applied to. A floating-point constant is kept as its bits. -/
inductive Operand where
  | none
  | int32 (value : Int)
  | int64 (value : Int)
  | float64 (bits : UInt64)
  | text (value : String)
  | arg (index : Nat)
  | localVar (index : Nat)
  | field (id : FieldId)
  | method (id : MethodId)
  | type (ref : TypeRef)
  | target (id : InstrId)
  | targets (ids : List InstrId)
  deriving DecidableEq, Repr, Inhabited

namespace Operand

/-- The instructions that the operand names. -/
def targetIds : Operand → List InstrId
  | target id => [id]
  | targets ids => ids
  | _ => []

/-- Apply `f` to every instruction that the operand names. -/
def mapTargets (f : InstrId → InstrId) : Operand → Operand
  | target id => target (f id)
  | targets ids => targets (ids.map f)
  | operand => operand

protected def toString : Operand → String
  | none => ""
  | int32 value => toString value
  | int64 value => toString value
  | float64 bits => Text.doubleText bits
  | text value => Text.quoted value
  | arg index => s!"arg{index}"
  | localVar index => s!"loc{index}"
  | field id => toString id
  | method id => toString id
  | type ref => ref.describe
  | target id => toString id
  | targets ids => "(" ++ ", ".intercalate (ids.map toString) ++ ")"

instance : ToString Operand := ⟨Operand.toString⟩

end Operand

/-- One instruction of a body. Its identifier is given by the body that holds it. -/
structure Instruction where
  id : InstrId
  opcode : OpCode
  operand : Operand
  deriving DecidableEq, Repr, Inhabited

namespace Instruction

/-- An instruction that no body has numbered yet. -/
def unplaced (opcode : OpCode) (operand : Operand) : Instruction :=
  ⟨InstrId.unplaced, opcode, operand⟩

def plain (opcode : OpCode) : Instruction := unplaced opcode .none

def onField (opcode : OpCode) (field : FieldId) : Instruction := unplaced opcode (.field field)

def onMethod (opcode : OpCode) (method : MethodId) : Instruction := unplaced opcode (.method method)

def onArg (opcode : OpCode) (index : Nat) : Instruction := unplaced opcode (.arg index)

def onLocal (opcode : OpCode) (index : Nat) : Instruction := unplaced opcode (.localVar index)

def field? (i : Instruction) : Option FieldId :=
  match i.operand with
  | .field id => some id
  | _ => none

def method? (i : Instruction) : Option MethodId :=
  match i.operand with
  | .method id => some id
  | _ => none

def arg? (i : Instruction) : Option Nat :=
  match i.operand with
  | .arg index => some index
  | _ => none

def localVar? (i : Instruction) : Option Nat :=
  match i.operand with
  | .localVar index => some index
  | _ => none

def type? (i : Instruction) : Option TypeRef :=
  match i.operand with
  | .type ref => some ref
  | _ => none

/-- The instructions that the operand names, whether or not the operation jumps to them. -/
def targetIds (i : Instruction) : List InstrId := i.operand.targetIds

/-- Name `target` wherever the operand names `source`. -/
def retarget (source target : InstrId) (i : Instruction) : Instruction :=
  { i with operand := i.operand.mapTargets fun id => if id = source then target else id }

/-- Whether this is `opcode` applied to `method`. -/
def isMethodOp (i : Instruction) (opcode : OpCode) (method : MethodId) : Bool :=
  i.opcode == opcode && i.method? == some method

protected def toString (i : Instruction) : String :=
  match i.operand with
  | .none => s!"{i.id}: {i.opcode.name}"
  | operand => s!"{i.id}: {i.opcode.name} {operand}"

instance : ToString Instruction := ⟨Instruction.toString⟩

end Instruction

end ContextBinding
