import ContextBinding.Program.Registration
import ContextBinding.Text.Blank

/-!
# Look-up by name

Types are found by their full name, fields by owner and name, methods by their identity. Retired
members are not found.
-/

namespace ContextBinding

namespace Text

/-- The parts ahead of and behind the first `mark`. -/
def splitAtFirst (mark : Char) (cs : List Char) : Option (List Char × List Char) :=
  match cs.dropWhile (· != mark) with
  | [] => none
  | _ :: rest => some (cs.takeWhile (· != mark), rest)

/-- The parts ahead of and behind the last double colon. -/
def splitAtLastColons : List Char → Option (List Char × List Char)
  | [] => none
  | c :: rest =>
    match splitAtLastColons rest with
    | some (ahead, behind) => some (c :: ahead, behind)
    | none =>
      match c, rest with
      | ':', ':' :: behind => some ([], behind)
      | _, _ => none

/-- The parts between commas. There is one more part than there are commas. -/
def splitAtCommas : List Char → List (List Char)
  | [] => [[]]
  | c :: rest =>
    if c = ',' then [] :: splitAtCommas rest
    else match splitAtCommas rest with
      | part :: parts => (c :: part) :: parts
      | [] => [[c]]

end Text

/-- The parts of a method's identity. -/
structure IdentityParts where
  owner : String
  name : String
  params : List String
  deriving DecidableEq, Repr

namespace IdentityParts

/-- Take an identity apart. The parameters stand between the first opening parenthesis and a closing
one at the end, the name after the last double colon ahead of them. -/
def ofText? (text : String) : Option IdentityParts := do
  let (head, rest) ← Text.splitAtFirst '(' text.toList
  let params ← match rest.reverse with
    | ')' :: inner => some inner.reverse
    | _ => none
  let (owner, name) ← Text.splitAtLastColons head
  let parts := if params.isEmpty then [] else (Text.splitAtCommas params).map Text.trimBlanks
  pure ⟨String.ofList owner, String.ofList name, parts.map String.ofList⟩

end IdentityParts

namespace Program

/-- The type of a full name. -/
def findType? (p : Program) (fullName : String) : Option TypeId :=
  p.typeTable.get? (SymbolHash.ofType p.digest fullName)

/-- The live field of an owner with a name. -/
def findField? (p : Program) (owner : TypeId) (name : String) : Option FieldId :=
  match p.fieldHash owner name with
  | .ok hash => p.fieldTable.get? hash
  | .error _ => none

/-- The live method of an identity. -/
def findMethod? (p : Program) (identity : String) : Option MethodId := do
  let parts ← IdentityParts.ofText? identity
  let hash := SymbolHash.ofMethod p.digest (SymbolHash.ofType p.digest parts.owner) parts.name
    (parts.params.map (SymbolHash.ofType p.digest))
  p.methodTable.get? hash

/-- The methods that a type lists and that satisfy a condition. -/
def methodsWhere (p : Program) (owner : TypeId) (condition : MethodDef → Bool) : List MethodId :=
  match p.type? owner with
  | some t => t.methods.filter fun id => (p.method? id).any condition
  | none => []

/-- The live methods of an owner with a name. -/
def findMethods (p : Program) (owner : TypeId) (name : String) : List MethodId :=
  p.methodsWhere owner fun m => m.name == name

end Program

end ContextBinding
