import ContextBinding.Program.Registration

/-!
# Copies of methods and types

A method can be copied under another owner, turned into an instance method, and given a parameter
ahead of its own; the arguments that its body accesses move along. A copied type comes with copies
of its members, and the copied bodies name these in the place of those they were made from.
-/

namespace ContextBinding

/-- How a copy of a method differs from it in shape. -/
structure MethodShape where
  /-- Turn a static method into an instance method. -/
  makeInstance : Bool
  /-- A parameter ahead of those of the method. -/
  leading : Option Param
  deriving DecidableEq, Repr

namespace MethodShape

def unchanged : MethodShape := ⟨false, none⟩

def instanceMethod : MethodShape := ⟨true, none⟩

def leadingParam (param : Param) : MethodShape := ⟨false, some param⟩

/-- Whether a copy of `m` gains a receiver. -/
def addsReceiver (shape : MethodShape) (m : MethodDef) : Bool := shape.makeInstance && m.isStatic

/-- The number of arguments that a copy of `m` gains. -/
def addedArgs (shape : MethodShape) (m : MethodDef) : Nat :=
  (if shape.addsReceiver m then 1 else 0) + shape.leading.toList.length

/-- The flags of a copy of `m`, which is in use. -/
def copyFlags (shape : MethodShape) (m : MethodDef) : FlagSet MethodFlag :=
  let flags := m.flags.erase .retired
  if shape.addsReceiver m then flags.erase .static else flags

/-- The parameters of a copy of `m`. -/
def copyParams (shape : MethodShape) (m : MethodDef) : List Param :=
  shape.leading.toList ++ m.params

/-- The body of a copy of `m`. -/
def copyBody (shape : MethodShape) (m : MethodDef) : Option MethodBody :=
  m.body.map fun b => b.shiftArguments m.thisOffset (shape.addedArgs m)

end MethodShape

/-- A copied type, with the copies of its members. -/
structure TypeClone where
  source : Option TypeId
  copy : Option TypeId
  fields : Table FieldId FieldId
  methods : Table MethodId MethodId
  deriving DecidableEq, Repr

namespace TypeClone

/-- Name the copy in the place of the copied type. -/
def mapType (clone : TypeClone) : TypeRef → TypeRef
  | .named id =>
    match clone.copy with
    | some copy => if clone.source = some id then .named copy else .named id
    | none => .named id
  | .byRef target => .byRef (clone.mapType target)
  | .array element => .array (clone.mapType element)
  | ref => ref

/-- The operand that names copies, where it differs. -/
def mapOperand? (clone : TypeClone) : Operand → Option Operand
  | .field id => (clone.fields.get? id).map .field
  | .method id => (clone.methods.get? id).map .method
  | .type ref => if clone.mapType ref = ref then none else some (.type (clone.mapType ref))
  | _ => none

end TypeClone

namespace Program

/-- Copy a method into `owner`. Whatever it overrides, the copy overrides too. -/
def cloneMethod (id : MethodId) (owner : TypeId) (name : String) (shape : MethodShape) :
    Edit MethodId := do
  let source ← (← get).methodDef id
  let copy ← addMethod owner name (shape.copyParams source) source.returnType
    (shape.copyFlags source)
  modifyMethod copy fun m =>
    { m with body := shape.copyBody source, overrides := source.overrides }
  pure copy

/-- Name copies in the place of the members and types they were made from. Tells whether the body of
the method changed. -/
def remapMembers (id : MethodId) (clone : TypeClone) : Edit Bool := do
  match (← (← get).methodDef id).body with
  | none => pure false
  | some b =>
    let changes := b.instructions.filterMap fun i =>
      (clone.mapOperand? i.operand).map fun operand => (i.id, operand)
    if changes.isEmpty then pure false
    else
      editBody id (changes.forM fun change => MethodBody.setOperand change.1 change.2)
      pure true

/-- Copy the fields in `ids` into the copied type, retired ones left out. -/
def cloneFields (copy : TypeId) : List FieldId → TypeClone → Edit TypeClone
  | [], clone => pure clone
  | id :: rest, clone => do
    let f ← (← get).fieldDef id
    if f.isRetired then cloneFields copy rest clone
    else
      let new ← addField copy f.name (clone.mapType f.type) f.flags
      cloneFields copy rest { clone with fields := clone.fields.insert id new }

/-- Copy the methods in `ids` into the copied type. -/
def cloneMethods (copy : TypeId) : List MethodId → TypeClone → Edit TypeClone
  | [], clone => pure clone
  | id :: rest, clone => do
    let m ← (← get).methodDef id
    let new ← cloneMethod id copy m.name .unchanged
    cloneMethods copy rest { clone with methods := clone.methods.insert id new }

/-- Copy a type with its members, nested in `declaring` if that is given. -/
def cloneType (id : TypeId) (declaring : Option TypeId) : Edit TypeClone := do
  let source ← (← get).typeDef id
  let copy ← addType source.nameSpace source.name declaring source.flags
  modifyType copy fun t => { t with base := source.base, interfaces := source.interfaces }
  let clone ← cloneFields copy source.fields ⟨some id, some copy, ∅, ∅⟩
  let clone ← cloneMethods copy source.methods clone
  clone.methods.values.forM fun m => do
    let _ ← remapMembers m clone
  source.properties.forM fun property =>
    addProperty copy (clone.methods.entries.foldl (fun p e => p.remap e.1 e.2) property)
  pure clone

end Program

end ContextBinding
