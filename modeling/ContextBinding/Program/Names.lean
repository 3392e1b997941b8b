import ContextBinding.Program.Basic

/-!
# Names

How types, fields and methods of a program are spelled. A method's identity is its owner, its name
and the types of its parameters.
-/

namespace ContextBinding.Program

/-- The full name of a type. -/
def typeName (p : Program) (id : TypeId) : String :=
  match p.type? id with
  | some t => t.fullName
  | none => "<unknown>"

/-- The name of a type reference. -/
def refName (p : Program) : TypeRef → String
  | .named id => p.typeName id
  | .byRef target => p.refName target ++ "&"
  | .array element => p.refName element ++ "[]"
  | ref => ref.builtinName?.getD "<unknown>"

/-- The identity of a method with the given owner, name and parameter types. -/
def signature (p : Program) (owner : TypeId) (name : String) (params : List TypeRef) : String :=
  p.typeName owner ++ "::" ++ name ++ "(" ++ ",".intercalate (params.map p.refName) ++ ")"

/-- The identity of a method. -/
def identity (p : Program) (id : MethodId) : String :=
  match p.method? id with
  | some m => p.signature m.owner m.name m.paramTypes
  | none => toString id

/-- The owner and name of a field. -/
def fieldIdentity (p : Program) (id : FieldId) : String :=
  match p.field? id with
  | some f => p.typeName f.owner ++ "::" ++ f.name
  | none => toString id

/-- The body of a method that has to have one. -/
def body (p : Program) (id : MethodId) : Except ModelError MethodBody := do
  match (← p.methodDef id).body with
  | some b => pure b
  | none => throw (.noBody (p.identity id))

/-- Put a body in the place of that of a method. -/
def putBody (id : MethodId) (b : MethodBody) (p : Program) : Program :=
  { p with methods := p.methods.modify id.index fun m => { m with body := some b } }

/-- Edit the body of a method. The edit is counted even if there is no body. -/
def editBody {α : Type} (id : MethodId) (edit : BodyEdit α) : Edit α := do
  modify touch
  let b ← (← get).body id
  match edit b with
  | .ok a b =>
    modify (putBody id b)
    pure a
  | .error e b =>
    modify (putBody id b)
    throw e

end ContextBinding.Program
