import ContextBinding.Code.Body

/-!
# Building bodies with labels

Code is emitted in order, and branches name labels that may be bound to a place later. A label
stands for the instruction that is emitted next after it was last marked; building the body puts the
identifiers of these instructions in the place of the labels.
-/

namespace ContextBinding

/-- A place in code that is still being written. -/
structure Label where
  index : Nat
  deriving DecidableEq, Repr

/-- A protected region whose boundaries are labels. -/
structure LabeledHandler where
  caught : Option TypeRef
  tryStart : Label
  tryEnd : Label
  handlerStart : Label
  handlerEnd : Label
  deriving DecidableEq, Repr

namespace Operand

/-- Name `targets` in place of the instructions that the operand names. A branch has one target. -/
def withTargets (targets : List InstrId) : Operand → Operand
  | .targets _ => .targets targets
  | _ => .target (targets.headD InstrId.unplaced)

end Operand

/-- Code that is being written. -/
structure BodyBuilder where
  instructions : List Instruction
  locals : List TypeRef
  /-- For each label, how many instructions had been emitted when it was last marked. -/
  marks : List (Option Nat)
  /-- The places of instructions that do not name their targets yet, and the labels of these. -/
  pending : List (Nat × List Label)
  handlers : List LabeledHandler
  deriving Repr

namespace BodyBuilder

def empty : BodyBuilder := ⟨[], [], [], [], []⟩

/-- Declare a local variable. -/
def declareLocal (b : BodyBuilder) (ty : TypeRef) : BodyBuilder :=
  { b with locals := b.locals ++ [ty] }

/-- Declare a label. Labels are numbered in the order of their declaration. -/
def declareLabel (b : BodyBuilder) : BodyBuilder := { b with marks := b.marks ++ [none] }

/-- Bind a label to the instruction that is emitted next. -/
def mark (b : BodyBuilder) (label : Label) : BodyBuilder :=
  { b with marks := b.marks.modify label.index fun _ => some b.instructions.length }

/-- Emit an instruction, numbered by its place. -/
def emit (b : BodyBuilder) (opcode : OpCode) (operand : Operand) : BodyBuilder :=
  { b with instructions := b.instructions ++ [⟨⟨b.instructions.length⟩, opcode, operand⟩] }

/-- Emit an instruction whose targets are known when the body is built. -/
def emitPending (b : BodyBuilder) (opcode : OpCode) (operand : Operand) (labels : List Label) :
    BodyBuilder :=
  { b with pending := b.pending ++ [(b.instructions.length, labels)] }.emit opcode operand

def emitBranch (b : BodyBuilder) (opcode : OpCode) (label : Label) : BodyBuilder :=
  b.emitPending opcode (.target InstrId.unplaced) [label]

def emitSwitch (b : BodyBuilder) (labels : List Label) : BodyBuilder :=
  b.emitPending .switch (.targets (labels.map fun _ => InstrId.unplaced)) labels

/-- Protect the code between two labels by the code between two others. -/
def protect (b : BodyBuilder) (h : LabeledHandler) : BodyBuilder :=
  { b with handlers := b.handlers ++ [h] }

/-- The instruction that a label stands for. -/
def resolve (b : BodyBuilder) (label : Label) : Except ModelError InstrId :=
  match b.marks[label.index]?.join.bind fun position => b.instructions[position]? with
  | some i => .ok i.id
  | none => .error (.unboundLabel label.index)

/-- Let an instruction name the targets that its labels stand for. -/
def patch (b : BodyBuilder) (use : Nat × List Label) : Except ModelError BodyBuilder := do
  let targets ← use.2.mapM b.resolve
  pure { b with
    instructions := b.instructions.modify use.1 fun i =>
      { i with operand := i.operand.withTargets targets } }

/-- The region that a labelled one becomes. -/
def placeHandler (b : BodyBuilder) (h : LabeledHandler) : Except ModelError Handler := do
  pure {
    caught := h.caught
    tryStart := ← b.resolve h.tryStart
    tryEnd := ← b.resolve h.tryEnd
    handlerStart := ← b.resolve h.handlerStart
    handlerEnd := ← b.resolve h.handlerEnd }

/-- The body, with every label resolved. -/
def build (b : BodyBuilder) : Except ModelError MethodBody := do
  let b ← b.pending.foldlM patch b
  let handlers ← b.handlers.mapM b.placeHandler
  pure (MethodBody.ofParts b.instructions b.locals handlers)

end BodyBuilder

end ContextBinding
