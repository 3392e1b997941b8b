import ContextBinding.Code.Instruction
import ContextBinding.Error

/-!
# Method bodies

A body is a list of instructions with its locals and protected regions. Instructions keep their
identifiers while code is edited around them. Code inserted ahead of an instruction takes over every
reference to it, so that it runs on each path that used to reach the instruction; references to a
removed instruction pass to the one after it. Other edits redirect nothing. Every change advances
the revision of the body.
-/

namespace ContextBinding

/-- A protected region of code and its handler. The ends name the first instruction past them. -/
structure Handler where
  /-- The type of exception that is caught. Without one the handler runs on every way out. -/
  caught : Option TypeRef
  tryStart : InstrId
  tryEnd : InstrId
  handlerStart : InstrId
  handlerEnd : InstrId
  deriving DecidableEq, Repr

namespace Handler

/-- The four boundaries. -/
def boundaries (h : Handler) : List InstrId := [h.tryStart, h.tryEnd, h.handlerStart, h.handlerEnd]

/-- Apply `f` to every boundary. -/
def mapBoundaries (f : InstrId → InstrId) (h : Handler) : Handler :=
  { h with
    tryStart := f h.tryStart
    tryEnd := f h.tryEnd
    handlerStart := f h.handlerStart
    handlerEnd := f h.handlerEnd }

end Handler

/-- The code of a method. -/
structure MethodBody where
  instructions : List Instruction
  locals : List TypeRef
  handlers : List Handler
  /-- The number of the next new instruction. -/
  nextId : Nat
  revision : Nat
  deriving DecidableEq, Repr

/-- An edit of a body. What was changed before a failure stays changed. -/
abbrev BodyEdit := EStateM ModelError MethodBody

namespace MethodBody

/-- The body without code. -/
def empty : MethodBody := ⟨[], [], [], 0, 0⟩

/-- The first number above those of all instructions. -/
def freshAfter (code : List Instruction) : Nat :=
  code.foldl (fun next i => max next (i.id.index + 1)) 0

/-- A body of numbered instructions. -/
def ofParts (code : List Instruction) (locals : List TypeRef) (handlers : List Handler) :
    MethodBody :=
  ⟨code, locals, handlers, freshAfter code, 0⟩

def size (b : MethodBody) : Nat := b.instructions.length

def isEmpty (b : MethodBody) : Bool := b.instructions.isEmpty

/-- The place of an instruction in the code. -/
def position? (b : MethodBody) (id : InstrId) : Option Nat :=
  b.instructions.findIdx? fun i => i.id == id

/-- The instruction with an identifier. -/
def get? (b : MethodBody) (id : InstrId) : Option Instruction :=
  b.instructions.find? fun i => i.id == id

/-- The instruction at a place of the code. -/
def at? (b : MethodBody) (position : Nat) : Option Instruction := b.instructions[position]?

/-- The instruction after `id` in the order of the code. -/
def next? (b : MethodBody) (id : InstrId) : Option InstrId := do
  let position ← b.position? id
  (b.at? (position + 1)).map (·.id)

/-- The instruction ahead of `id` in the order of the code. -/
def prev? (b : MethodBody) (id : InstrId) : Option InstrId := do
  match ← b.position? id with
  | 0 => none
  | position + 1 => (b.at? position).map (·.id)

/-- Every `ret` of the body. -/
def returns (b : MethodBody) : List InstrId :=
  (b.instructions.filter fun i => i.opcode == .ret).map (·.id)

/-- The operations in the order of the code. -/
def opcodes (b : MethodBody) : List OpCode := b.instructions.map (·.opcode)

/-- Whether a jump target or a handler boundary names `id`. -/
def isReferenced (b : MethodBody) (id : InstrId) : Bool :=
  b.instructions.any (fun i => i.targetIds.contains id)
    || b.handlers.any fun h => h.boundaries.contains id

/-- Name `target` wherever the body names `source`. -/
def retarget (b : MethodBody) (source target : InstrId) : MethodBody :=
  { b with
    instructions := b.instructions.map (Instruction.retarget source target)
    handlers := b.handlers.map
      (Handler.mapBoundaries fun id => if id = source then target else id) }

/-- Number instructions upward from `first`. -/
def number (first : Nat) : List Instruction → List Instruction
  | [] => []
  | i :: rest => { i with id := ⟨first⟩ } :: number (first + 1) rest

/-- Put newly numbered instructions at a place of the code. -/
def splice (b : MethodBody) (position : Nat) (seq : List Instruction) : MethodBody :=
  { b with
    instructions :=
      b.instructions.take position ++ number b.nextId seq ++ b.instructions.drop position
    nextId := b.nextId + seq.length
    revision := b.revision + 1 }

/-- The identifiers that newly numbered instructions get. -/
def freshIds (b : MethodBody) (seq : List Instruction) : List InstrId :=
  (number b.nextId seq).map (·.id)

/-- Change the instruction at a place of the code. -/
def modifyAt (b : MethodBody) (position : Nat) (f : Instruction → Instruction) : MethodBody :=
  { b with
    instructions := b.instructions.modify position f
    revision := b.revision + 1 }

/-- The place of an instruction that has to be there. -/
def require (id : InstrId) : BodyEdit Nat := do
  match (← get).position? id with
  | some position => pure position
  | none => throw (.unknownInstruction id)

/-- Insert `seq` ahead of `anchor`. What named `anchor` now names the first new instruction. -/
def insertBefore (anchor : InstrId) (seq : List Instruction) : BodyEdit (List InstrId) := do
  let position ← require anchor
  if seq.isEmpty then pure []
  else
    let b ← get
    set ((b.retarget anchor ⟨b.nextId⟩).splice position seq)
    pure (b.freshIds seq)

/-- Insert `seq` right after `anchor`. -/
def insertAfter (anchor : InstrId) (seq : List Instruction) : BodyEdit (List InstrId) := do
  let position ← require anchor
  let b ← get
  set (b.splice (position + 1) seq)
  pure (b.freshIds seq)

/-- Append `seq` to the code. -/
def push (seq : List Instruction) : BodyEdit (List InstrId) := do
  let b ← get
  set (b.splice b.size seq)
  pure (b.freshIds seq)

/-- Put `i` in the place of `id` under the same identifier. -/
def replace (id : InstrId) (i : Instruction) : BodyEdit Unit := do
  let position ← require id
  modify fun b => b.modifyAt position fun _ => { i with id := id }

/-- Give `id` another operand. -/
def setOperand (id : InstrId) (operand : Operand) : BodyEdit Unit := do
  let position ← require id
  modify fun b => b.modifyAt position fun i => { i with operand := operand }

/-- Take `id` out of the code. What named it now names the instruction after it; the last
instruction can only go while nothing names it. -/
def remove (id : InstrId) : BodyEdit Instruction := do
  let position ← require id
  let b ← get
  let cut (b : MethodBody) : MethodBody :=
    { b with
      instructions := b.instructions.eraseIdx position
      revision := b.revision + 1 }
  match b.at? (position + 1) with
  | some next =>
    let b := b.retarget id next.id
    set (cut b)
    pure ((b.at? position).getD default)
  | none =>
    if b.isReferenced id then throw (.invalidOperand id .stillTargeted)
    else
      set (cut b)
      pure ((b.at? position).getD default)

/-- Put `seq` in the place of `id`. The first instruction takes over the identifier; without one
`id` is removed. -/
def replaceWith (id : InstrId) (seq : List Instruction) : BodyEdit (List InstrId) := do
  let position ← require id
  match seq with
  | [] =>
    let _ ← remove id
    pure []
  | first :: rest =>
    let b ← get
    set ({ b with instructions := b.instructions.set position { first with id := id } }.splice
      (position + 1) rest)
    pure (id :: b.freshIds rest)

/-- Declare a local variable. Its index has sixteen bits. -/
def addLocal (ty : TypeRef) : BodyEdit Nat := do
  let b ← get
  set { b with locals := b.locals ++ [ty], revision := b.revision + 1 }
  pure (b.locals.length % 65536)

/-- Add `amount` to the argument index of an instruction, where it is at least `first`. -/
def shiftArgument (first amount : Nat) (i : Instruction) : Instruction :=
  match i.operand with
  | .arg index =>
    if i.opcode.isArgAccess && first ≤ index then { i with operand := .arg (index + amount) } else i
  | _ => i

/-- Make room for `amount` arguments at position `first`. -/
def shiftArguments (b : MethodBody) (first amount : Nat) : MethodBody :=
  if amount = 0 then b
  else
    { b with
      instructions := b.instructions.map (shiftArgument first amount)
      revision := b.revision + 1 }

/-- Add a protected region. -/
def addHandler (h : Handler) : BodyEdit Unit :=
  modify fun b => { b with handlers := b.handlers ++ [h], revision := b.revision + 1 }

/-- A body with new code. -/
def fresh (code : List Instruction) : MethodBody := empty.splice 0 code

protected def toString (b : MethodBody) : String :=
  String.join (b.instructions.map fun i => s!"  {i}\n")

instance : ToString MethodBody := ⟨MethodBody.toString⟩

end MethodBody

end ContextBinding
