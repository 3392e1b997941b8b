import ContextBinding.Binding.Handle
import ContextBinding.Binding.Map
import ContextBinding.Binding.Workspace
import ContextBinding.Closure.Record
import ContextBinding.Program.Clone

/-!
# Closures of a run

What a run knows of closures: the capture records it declared, the display classes that store the
root, and the display classes that were copied to the type of a context.
-/

namespace ContextBinding

instance : Ord (TypeId × TypeId) :=
  ⟨fun a b => (compare a.1 b.1).then (compare a.2 b.2)⟩

/-- What a run knows of closures. -/
structure Closures where
  root : TypeId
  /-- Whether a capture that cannot be adapted is an error. -/
  strict : Bool
  records : Table RecordKey CaptureRecord
  /-- Record types, those of earlier runs included. -/
  recordTypes : List TypeId
  /-- The field in which a display class stores the root. -/
  displayRoots : Table TypeId FieldId
  /-- The copy of a display class on the type of a context. -/
  relocated : Table (TypeId × TypeId) TypeClone
  /-- The number of captures that were left alone. -/
  skipped : Nat
  deriving DecidableEq, Repr

/-- A method that reaches the root, and where it finds it. -/
structure RootedMethod where
  method : MethodId
  handle : HandleSource
  deriving DecidableEq, Repr

/-- An edit of a program that adds to what is known of its closures. -/
abbrev ClosureEdit := EStateM Error (Closures × Workspace)

namespace ClosureEdit

/-- Edit the code. -/
def work {α : Type} : CodeEdit α → ClosureEdit α := focus (·.2) (fun w s => (s.1, w)) id

/-- Change the program. -/
def edit {α : Type} (e : Edit α) : ClosureEdit α := work (CodeEdit.edit e)

/-- The program as it is now. -/
def program : ClosureEdit Program := work CodeEdit.program

/-- What is known of closures. -/
def closures : ClosureEdit Closures := do pure (← get).1

/-- Add to what is known of closures. -/
def update (f : Closures → Closures) : ClosureEdit Unit := modify fun s => (f s.1, s.2)

end ClosureEdit

namespace Closures

/-- The name of the field in which a display class stores the root. -/
def displayRootName : String := "<>4__context"

/-- The field in which a display class stores the root, if it has one. -/
def findDisplayRoot? (p : Program) (root : TypeId) (t : TypeDef) : Option FieldId :=
  t.fields.find? fun id =>
    (p.field? id).any fun f => f.name == displayRootName && f.type == .named root

/-- What earlier runs left in a program. -/
def ofProgram (p : Program) (root : TypeId) (strict : Bool) : Closures :=
  let types := p.types.zipIdx.map fun e => (TypeId.mk e.2, e.1)
  { root, strict
    records := ∅
    recordTypes := (types.filter fun e => CaptureRecord.isRecordName e.2.name).map (·.1)
    displayRoots := .ofList <| types.filterMap fun e =>
      if e.2.isDisplayClass then (findDisplayRoot? p root e.2).map fun field => (e.1, field)
      else none
    relocated := ∅
    skipped := 0 }

/-- Whether a type is a record. -/
def isRecordType (c : Closures) (type : TypeId) : Bool := c.recordTypes.contains type

/-- The field in which a display class stores the root. -/
def displayRoot? (c : Closures) (type : TypeId) : Option FieldId := c.displayRoots.get? type

/-- Put a record in the place of the one with its key. -/
def putRecord (c : Closures) (r : CaptureRecord) : Closures :=
  { c with records := c.records.insert r.key r }

end Closures

namespace ClosureEdit

/-- The record of a key. It is declared on first use. -/
def record (key : RecordKey) : ClosureEdit CaptureRecord := do
  let c ← closures
  match c.records.get? key with
  | some r => pure r
  | none =>
    let r ← edit (CaptureRecord.synthesize c.root key)
    update fun c => { c.putRecord r with recordTypes := insertNew c.recordTypes r.type }
    pure r

/-- The constructor of the record for a capture of a bound method, and the forwarding method. -/
def recordFor (method : MethodId) (receiver : Option TypeId) (b : Binding) :
    ClosureEdit (MethodId × MethodId) := do
  let r ← record ⟨method, receiver⟩
  let (forward, r) ← edit (r.trampoline b.method b.replacement)
  update fun c => c.putRecord { r with users := ascending (insertNew r.users method) }
  pure (r.constructor, forward)

end ClosureEdit

end ContextBinding
