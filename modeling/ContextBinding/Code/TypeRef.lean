import ContextBinding.Id

/-!
# Type references

What a field, parameter, local or result is declared as: a built-in type, a type of the program, or
a reference to or an array of one of these.
-/

namespace ContextBinding

/-- A reference to a type. -/
inductive TypeRef where
  | void
  | bool
  | int32
  | int64
  | float64
  | string
  | object
  | nativeInt
  | named (id : TypeId)
  | byRef (target : TypeRef)
  | array (element : TypeRef)
  deriving DecidableEq, Repr, Inhabited

namespace TypeRef

/-- The type of the program that is named, directly or behind references. An array names none. -/
def named? : TypeRef → Option TypeId
  | named id => some id
  | byRef target => target.named?
  | _ => none

/-- Whether there is no value of the type. -/
def isVoid : TypeRef → Bool
  | void => true
  | _ => false

def isByRef : TypeRef → Bool
  | byRef _ => true
  | _ => false

/-- The name of a built-in type. -/
def builtinName? : TypeRef → Option String
  | void => some "void"
  | bool => some "bool"
  | int32 => some "int32"
  | int64 => some "int64"
  | float64 => some "float64"
  | string => some "string"
  | object => some "object"
  | nativeInt => some "native int"
  | named _ | byRef _ | array _ => none

/-- The structure of a reference, with types of the program by number. -/
def describe : TypeRef → String
  | void => "Void"
  | bool => "Bool"
  | int32 => "Int32"
  | int64 => "Int64"
  | float64 => "Float64"
  | string => "String"
  | object => "Object"
  | nativeInt => "NativeInt"
  | named id => s!"Named(TypeId({id.index}))"
  | byRef target => s!"ByRef({target.describe})"
  | array element => s!"Array({element.describe})"

end TypeRef

end ContextBinding
