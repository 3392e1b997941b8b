import ContextBinding.Code.Body
import ContextBinding.Table

/-!
# Control flow

The control-flow edges of one body. Control falls through from an instruction to the one after it,
and jumps from a branch to its targets; handlers are entered from outside. An index records the
revision and size of the body it was made from, so that a later body is recognized.
-/

namespace ContextBinding

/-- The control-flow edges of a body. -/
structure FlowIndex where
  revision : Nat
  /-- The instructions in the order of the code. -/
  order : List InstrId
  /-- Edges from an instruction to the one after it. -/
  steps : List (InstrId × InstrId)
  /-- Edges from a branch to a target. -/
  jumps : List (InstrId × InstrId)
  /-- First instructions of handlers, with the type of exception that is on the stack there. -/
  entries : List (InstrId × Option TypeRef)
  deriving DecidableEq, Repr

namespace FlowIndex

/-- The edges over which control falls through. -/
def stepsOf : List Instruction → List (InstrId × InstrId)
  | a :: b :: rest =>
    if a.opcode.fallsThrough then (a.id, b.id) :: stepsOf (b :: rest) else stepsOf (b :: rest)
  | _ => []

/-- The edges over which an instruction jumps. -/
def jumpsFrom (i : Instruction) : List (InstrId × InstrId) :=
  if i.opcode.isBranch then i.targetIds.map fun target => (i.id, target) else []

/-- The index of a body. -/
def build (b : MethodBody) : FlowIndex :=
  { revision := b.revision
    order := b.instructions.map (·.id)
    steps := stepsOf b.instructions
    jumps := b.instructions.flatMap jumpsFrom
    entries := b.handlers.map fun h => (h.handlerStart, h.caught) }

/-- The number of instructions. -/
def size (index : FlowIndex) : Nat := index.order.length

/-- Whether the index was made from a body of the same revision and size. -/
def isCurrent (index : FlowIndex) (b : MethodBody) : Bool :=
  index.revision == b.revision && index.size == b.size

/-- The last place at which `id` stands in a list. -/
def lastPosition? (id : InstrId) : List InstrId → Option Nat
  | [] => none
  | a :: rest =>
    match lastPosition? id rest with
    | some position => some (position + 1)
    | none => if a = id then some 0 else none

/-- The place of an instruction in the code. -/
def position? (index : FlowIndex) (id : InstrId) : Option Nat := lastPosition? id index.order

/-- Where control comes from: the instruction ahead first, then branches in the order of the code.
-/
def predecessors (index : FlowIndex) (id : InstrId) : List InstrId :=
  ((index.jumps.filter fun edge => edge.2 == id).map (·.1)).foldl insertNew
    ((index.steps.filter fun edge => edge.2 == id).map (·.1))

/-- Where control goes: the instruction that follows first, then the targets in their order. -/
def successors (index : FlowIndex) (id : InstrId) : List InstrId :=
  ((index.jumps.filter fun edge => edge.1 == id).map (·.2)).foldl insertNew
    ((index.steps.filter fun edge => edge.1 == id).map (·.2))

/-- What is known of the stack at the entry of a handler: the type of the exception there, or
nothing where the handler runs on every way out. Of several handlers at one place the last one
counts. -/
def handlerEntry? (index : FlowIndex) (id : InstrId) : Option (Option TypeRef) :=
  (index.entries.filter fun entry => entry.1 == id).getLast?.map (·.2)

/-- The instruction that a call starts with. -/
def entry? (index : FlowIndex) : Option InstrId := index.order.head?

/-- The number of edges. -/
def edgeCount (index : FlowIndex) : Nat := index.steps.length + index.jumps.length

end FlowIndex

end ContextBinding
