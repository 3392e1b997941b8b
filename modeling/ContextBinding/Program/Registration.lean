import ContextBinding.Program.Names

/-!
# Registration

Entering types, fields and methods into a program. A symbol whose hash is already in the table of
its kind is refused. Entries are appended, and members are listed with their owner.
-/

namespace ContextBinding.Program

/-- The name of a type with its name space, or with the type that encloses it. -/
def qualifiedName (p : Program) (nameSpace name : String) :
    Option TypeId → Except ModelError String
  | some outer => do pure ((← p.typeDef outer).fullName ++ "/" ++ name)
  | none => .ok (if nameSpace.isEmpty then name else nameSpace ++ "." ++ name)

/-- The hash of a type. -/
def typeHash (p : Program) (id : TypeId) : Except ModelError SymbolHash := do
  pure (SymbolHash.ofType p.digest (← p.typeDef id).fullName)

/-- The hash of a field of `owner`. -/
def fieldHash (p : Program) (owner : TypeId) (name : String) : Except ModelError SymbolHash := do
  pure (SymbolHash.ofField p.digest (← p.typeHash owner) name)

/-- The hash of a method of `owner`. -/
def methodHash (p : Program) (owner : TypeId) (name : String) (params : List TypeRef) :
    Except ModelError SymbolHash := do
  let params := params.map fun ref => SymbolHash.ofType p.digest (p.refName ref)
  pure (SymbolHash.ofMethod p.digest (← p.typeHash owner) name params)

/-- Register a type. A nested type has no name space of its own. -/
def addType (nameSpace name : String) (declaring : Option TypeId) (flags : FlagSet TypeFlag) :
    Edit TypeId := do
  let p ← get
  let fullName ← p.qualifiedName nameSpace name declaring
  let hash := SymbolHash.ofType p.digest fullName
  if p.typeTable.contains hash then throw (.duplicateType fullName)
  let id : TypeId := ⟨p.types.length⟩
  let entry : TypeDef :=
    { nameSpace := if declaring.isSome then "" else nameSpace
      name, fullName, declaring, flags
      base := none, interfaces := [], fields := [], methods := [], nested := [], properties := [] }
  let types := p.types ++ [entry]
  let types := match declaring with
    | some outer => types.modify outer.index fun t => { t with nested := t.nested ++ [id] }
    | none => types
  set { p with types, typeTable := p.typeTable.insert hash id, edits := p.edits + 1 }
  pure id

/-- Let a type derive from another one. -/
def setBase (id : TypeId) (base : TypeRef) : Edit Unit :=
  modifyType id fun t => { t with base := some base }

/-- Let a type implement an interface. -/
def addInterface (id interface : TypeId) : Edit Unit := do
  let _ ← (← get).typeDef interface
  modifyType id fun t => { t with interfaces := t.interfaces ++ [interface] }

/-- Register a field. -/
def addField (owner : TypeId) (name : String) (type : TypeRef) (flags : FlagSet FieldFlag) :
    Edit FieldId := do
  let p ← get
  let hash ← p.fieldHash owner name
  if p.fieldTable.contains hash then throw (.duplicateField (p.typeName owner ++ "::" ++ name))
  let id : FieldId := ⟨p.fields.length⟩
  let entry : FieldDef := { owner, name, type, flags }
  set { p with
    fields := p.fields ++ [entry]
    fieldTable := p.fieldTable.insert hash id
    types := p.types.modify owner.index fun t => { t with fields := t.fields ++ [id] }
    edits := p.edits + 1 }
  pure id

/-- Register a method. It has no body yet. -/
def addMethod (owner : TypeId) (name : String) (params : List Param) (returnType : TypeRef)
    (flags : FlagSet MethodFlag) : Edit MethodId := do
  let p ← get
  let paramTypes := params.map (·.type)
  let hash ← p.methodHash owner name paramTypes
  if p.methodTable.contains hash then
    throw (.duplicateMethod (p.signature owner name paramTypes))
  let id : MethodId := ⟨p.methods.length⟩
  let entry : MethodDef :=
    { owner, name, params, returnType, flags, overrides := [], body := none }
  set { p with
    methods := p.methods ++ [entry]
    methodTable := p.methodTable.insert hash id
    types := p.types.modify owner.index fun t => { t with methods := t.methods ++ [id] }
    edits := p.edits + 1 }
  pure id

/-- Give a method a body. -/
def setBody (id : MethodId) (body : MethodBody) : Edit Unit :=
  modifyMethod id fun m => { m with body := some body }

/-- Give a type a property. -/
def addProperty (owner : TypeId) (property : PropertyDef) : Edit Unit :=
  modifyType owner fun t => { t with properties := t.properties ++ [property] }

end ContextBinding.Program
