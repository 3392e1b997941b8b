import ContextBinding.Program.Types

/-!
# Copies of bound methods

A copy keeps the name of the bound method, with a suffix where the owner has a method of that name
and of the copy's parameters already. Copies that an earlier run left are found again by name and
shape.
-/

namespace ContextBinding

namespace CopyName

/-- Set apart from a name that is taken. -/
def suffix : List Char := "$context".toList

/-- The candidate of a number for the name of a copy. -/
def candidate (name : String) : Nat → String
  | 0 => name
  | 1 => name ++ String.ofList suffix
  | n => name ++ String.ofList suffix ++ toString n

/-- What is left of a list behind a given front. -/
def behind? (front cs : List Char) : Option (List Char) :=
  if front.isPrefixOf cs then some (cs.drop front.length) else none

/-- Whether `copy` can be the name of a copy of a method called `name`. -/
def isCopyOf (copy name : String) : Bool :=
  match behind? name.toList copy.toList with
  | none => false
  | some rest =>
    rest.isEmpty || match behind? suffix rest with
      | none => false
      | some digits => digits.all fun c => '0' ≤ c && c ≤ '9'

end CopyName

namespace Program

/-- Whether an owner has a live method of a name with parameters of the given types. -/
def hasOverload (p : Program) (owner : TypeId) (name : String) (params : List TypeRef) : Bool :=
  (p.findMethods owner name).any fun id => (p.method? id).any fun m => m.paramTypes == params

/-- The first candidate from number `n` on that is not taken, among `fuel` and one more. -/
def freeNameFrom (p : Program) (owner : TypeId) (name : String) (params : List TypeRef) :
    Nat → Nat → String
  | 0, n => CopyName.candidate name n
  | fuel + 1, n =>
    if p.hasOverload owner (CopyName.candidate name n) params then
      freeNameFrom p owner name params fuel (n + 1)
    else CopyName.candidate name n

/-- A name for a copy on `owner` with parameters of the given types. There are more candidates than
methods of the owner. -/
def copyName (p : Program) (owner : TypeId) (name : String) (params : List TypeRef) : String :=
  let count := ((p.type? owner).map fun t => t.methods.length).getD 0
  p.freeNameFrom owner name params count 0

/-- The copy of a method called `name` that an earlier run left on `owner`. -/
def findCopy? (p : Program) (owner : TypeId) (name : String) (params : List TypeRef)
    (static : Bool) : Option MethodId :=
  (p.methodsWhere owner fun m =>
    m.isContextReplacement && CopyName.isCopyOf m.name name && m.isStatic == static
      && m.paramTypes == params).head?

/-- The other accessor of the property that a method is an accessor of. -/
def accessorSibling? (p : Program) (id : MethodId) : Except ModelError (Option MethodId) := do
  let m ← p.methodDef id
  if m.isSpecialName then
    pure (((← p.typeDef m.owner).propertyOf? id).bind fun property => property.siblingOf id)
  else pure none

end Program

end ContextBinding
