/-!
# Flags

Modifiers and roles of types, fields and methods. A set of flags is a number with one bit for each
flag. Bits that belong to no flag are kept as they are.
-/

namespace ContextBinding

/-- A kind of flag, each flag with its bit. -/
class Flag (α : Type) where
  bit : α → Nat

/-- A set of flags. -/
structure FlagSet (α : Type) where
  bits : Nat
  deriving DecidableEq, Repr, Inhabited

namespace FlagSet

variable {α : Type} [Flag α]

/-- Whether the set has a flag. -/
def has (s : FlagSet α) (flag : α) : Bool := s.bits.testBit (Flag.bit flag)

def insert (s : FlagSet α) (flag : α) : FlagSet α := ⟨s.bits ||| 1 <<< Flag.bit flag⟩

def erase (s : FlagSet α) (flag : α) : FlagSet α :=
  if s.has flag then ⟨s.bits ^^^ 1 <<< Flag.bit flag⟩ else s

/-- The set of the given flags. -/
def ofList (flags : List α) : FlagSet α := flags.foldl insert ⟨0⟩

end FlagSet

/-- Flags of types. -/
inductive TypeFlag where
  | interface
  | abstract
  | sealed
  | valueType
  | delegate
  | compilerGenerated
  | closureSingleton
  | displayClass
  | static
  deriving DecidableEq, Repr

instance : Flag TypeFlag where
  bit
    | .interface => 0
    | .abstract => 1
    | .sealed => 2
    | .valueType => 3
    | .delegate => 4
    | .compilerGenerated => 5
    | .closureSingleton => 6
    | .displayClass => 7
    | .static => 8

/-- Flags of fields. -/
inductive FieldFlag where
  | static
  | initOnly
  | literal
  | compilerGenerated
  /-- The field was taken from its owner. -/
  | retired
  deriving DecidableEq, Repr

instance : Flag FieldFlag where
  bit
    | .static => 0
    | .initOnly => 1
    | .literal => 2
    | .compilerGenerated => 3
    | .retired => 4

/-- Flags of methods. -/
inductive MethodFlag where
  | static
  | virtual
  | abstract
  /-- The method starts a slot of its own and overrides nothing of a base type. -/
  | newSlot
  | constructor
  | staticConstructor
  /-- The method is an accessor, paired with another one by a property of its owner. -/
  | specialName
  | getter
  | setter
  | compilerGenerated
  /-- The method was split out of a static initializer. -/
  | initUnit
  /-- The method was taken from its owner after it had been replaced. -/
  | retired
  /-- The method is a copy that stands in for one bound to a context. -/
  | contextReplacement
  deriving DecidableEq, Repr

instance : Flag MethodFlag where
  bit
    | .static => 0
    | .virtual => 1
    | .abstract => 2
    | .newSlot => 3
    | .constructor => 4
    | .staticConstructor => 5
    | .specialName => 6
    | .getter => 7
    | .setter => 8
    | .compilerGenerated => 9
    | .initUnit => 10
    | .retired => 11
    | .contextReplacement => 12

end ContextBinding
