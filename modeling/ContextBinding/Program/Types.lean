import ContextBinding.Program.Lookup

/-!
# Type queries

Which types are copied rather than referred to, which ones can stand for others, and the roles that
methods of delegates play.
-/

namespace ContextBinding.Program

/-- Whether values of the type are copied. -/
def isValueType (p : Program) : TypeRef → Bool
  | .bool | .int32 | .int64 | .float64 | .nativeInt => true
  | .named id => (p.type? id).any TypeDef.isValueType
  | _ => false

/-- The type of the receiver in an instance method of `owner`. -/
def receiverType (p : Program) (owner : TypeId) : TypeRef :=
  let named := TypeRef.named owner
  if p.isValueType named then .byRef named else named

/-- Whether `ancestor` is reached from `id` in fewer than `fuel` steps to a base type or an
interface. -/
def isAssignableWithin (p : Program) (ancestor : TypeId) : Nat → TypeId → Bool
  | 0, id => id == ancestor
  | fuel + 1, id =>
    id == ancestor ||
      match p.type? id with
      | none => false
      | some t =>
        t.interfaces.any (isAssignableWithin p ancestor fuel)
          || (t.baseType?.map (isAssignableWithin p ancestor fuel)).getD false

/-- Whether a type is `ancestor`, derives from it or implements it. Bases and interfaces that do not
form a cycle are followed to their end. -/
def isAssignableTo (p : Program) (id ancestor : TypeId) : Bool :=
  p.isAssignableWithin ancestor (p.types.length + 1) id

/-- The constructors of a type. -/
def constructors (p : Program) (id : TypeId) : List MethodId :=
  p.methodsWhere id MethodDef.isConstructor

/-- Whether a method constructs a delegate. -/
def isDelegateConstructor (p : Program) (id : MethodId) : Bool :=
  (p.method? id).any fun m => m.isConstructor && (p.type? m.owner).any TypeDef.isDelegate

/-- The method that calls what a delegate was made from. -/
def delegateInvoke? (p : Program) (id : TypeId) : Option MethodId :=
  if (p.type? id).any TypeDef.isDelegate then (p.findMethods id "Invoke").head? else none

/-- Whether a method calls what a delegate was made from. -/
def isDelegateInvoke (p : Program) (id : MethodId) : Bool :=
  (p.method? id).any fun m => p.delegateInvoke? m.owner == some id

end ContextBinding.Program
