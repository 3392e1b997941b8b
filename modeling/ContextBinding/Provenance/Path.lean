import ContextBinding.Id

/-!
# Provenance paths and usages

How a value on the stack came about, and what takes it from there.
-/

namespace ContextBinding

/-- One way in which a value may have come about. -/
structure Path where
  /-- The instructions that contribute, in the order of execution; the last one pushes the value. -/
  instrs : List InstrId
  /-- The handler entry whose exception the path starts with. Without one, the instructions of the
  path produce every value on it. -/
  caught : Option InstrId
  /-- Whether every instruction pushes only what the path needs, so that code inserted ahead of the
  path leaves its value right beneath the traced one. -/
  exact : Bool
  deriving DecidableEq, Repr

namespace Path

/-- The path that produces nothing. -/
def nil : Path := ⟨[], none, true⟩

/-- The path that starts and ends with the exception at a handler entry. -/
def ofCatch (entry : InstrId) : Path := ⟨[], some entry, false⟩

/-- Let `id` run after the path. -/
def extend (path : Path) (id : InstrId) (exact : Bool) : Path :=
  { path with instrs := path.instrs ++ [id], exact := path.exact && exact }

/-- The first instruction. -/
def start? (path : Path) : Option InstrId := path.instrs.head?

/-- The instruction that pushes the value. -/
def producer? (path : Path) : Option InstrId := path.instrs.getLast?

/-- Whether code can be inserted ahead of the path. -/
def isInsertable (path : Path) : Bool :=
  path.exact && path.caught.isNone && !path.instrs.isEmpty

end Path

/-- An instruction that takes a value, and which of its operands the value is. The deepest operand
has slot zero. -/
structure Usage where
  consumer : InstrId
  slot : Nat
  deriving DecidableEq, Repr

end ContextBinding
