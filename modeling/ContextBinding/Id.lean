/-!
# Identifiers

Types, fields and methods are numbered in the order of their registration, instructions within their
body, contexts within their plan. Identifiers are ordered by their number.
-/

namespace ContextBinding

/-- Names a type of a program. -/
structure TypeId where
  index : Nat
  deriving DecidableEq, Repr, Inhabited

/-- Names a field of a program. -/
structure FieldId where
  index : Nat
  deriving DecidableEq, Repr, Inhabited

/-- Names a method of a program. -/
structure MethodId where
  index : Nat
  deriving DecidableEq, Repr, Inhabited

/-- Names an instruction of one body. Edits never renumber the instructions that stay. -/
structure InstrId where
  index : Nat
  deriving DecidableEq, Repr, Inhabited

/-- Names a context of a plan. -/
structure ContextId where
  index : Nat
  deriving DecidableEq, Repr, Inhabited

instance : Ord TypeId := ⟨fun a b => compare a.index b.index⟩
instance : Ord FieldId := ⟨fun a b => compare a.index b.index⟩
instance : Ord MethodId := ⟨fun a b => compare a.index b.index⟩
instance : Ord InstrId := ⟨fun a b => compare a.index b.index⟩
instance : Ord ContextId := ⟨fun a b => compare a.index b.index⟩

instance : LE TypeId := leOfOrd
instance : LE FieldId := leOfOrd
instance : LE MethodId := leOfOrd
instance : LE InstrId := leOfOrd
instance : LE ContextId := leOfOrd

namespace TypeId

protected def toString (id : TypeId) : String := s!"type_{id.index}"

instance : ToString TypeId := ⟨TypeId.toString⟩

end TypeId

namespace FieldId

protected def toString (id : FieldId) : String := s!"field_{id.index}"

instance : ToString FieldId := ⟨FieldId.toString⟩

end FieldId

namespace MethodId

protected def toString (id : MethodId) : String := s!"method_{id.index}"

instance : ToString MethodId := ⟨MethodId.toString⟩

end MethodId

namespace InstrId

/-- Carried by an instruction that no body has numbered yet. -/
def unplaced : InstrId := ⟨4294967295⟩

protected def toString (id : InstrId) : String := s!"instr_{id.index}"

instance : ToString InstrId := ⟨InstrId.toString⟩

end InstrId

namespace ContextId

protected def toString (id : ContextId) : String := s!"ctx_{id.index}"

instance : ToString ContextId := ⟨ContextId.toString⟩

end ContextId

/-- A place in the code of a program. Places are ordered by method, then by instruction. -/
structure CodeSite where
  method : MethodId
  instr : InstrId
  deriving DecidableEq, Repr

instance : Ord CodeSite :=
  ⟨fun a b => (compare a.method b.method).then (compare a.instr b.instr)⟩

end ContextBinding
