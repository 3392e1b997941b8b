import ContextBinding.Code.Body
import ContextBinding.Program.Flags

/-!
# Program entries

What a program records about each of its types, fields and methods.
-/

namespace ContextBinding

/-- A property with its accessors. -/
structure PropertyDef where
  name : String
  getter : Option MethodId
  setter : Option MethodId
  deriving DecidableEq, Repr

namespace PropertyDef

def hasAccessor (p : PropertyDef) (m : MethodId) : Bool := p.getter == some m || p.setter == some m

/-- The other accessor of the property that `m` is an accessor of, if there is one. -/
def siblingOf (p : PropertyDef) (m : MethodId) : Option MethodId :=
  if p.getter = some m then p.setter
  else if p.setter = some m then p.getter
  else none

/-- Put `target` in the place of the accessor `source`. -/
def remap (p : PropertyDef) (source target : MethodId) : PropertyDef :=
  { p with
    getter := if p.getter = some source then some target else p.getter
    setter := if p.setter = some source then some target else p.setter }

end PropertyDef

/-- A type. -/
structure TypeDef where
  nameSpace : String
  name : String
  /-- The name of the type with its name space, or with the types that enclose it. -/
  fullName : String
  declaring : Option TypeId
  base : Option TypeRef
  interfaces : List TypeId
  fields : List FieldId
  methods : List MethodId
  nested : List TypeId
  properties : List PropertyDef
  flags : FlagSet TypeFlag
  deriving DecidableEq, Repr

namespace TypeDef

def isInterface (t : TypeDef) : Bool := t.flags.has .interface

def isValueType (t : TypeDef) : Bool := t.flags.has .valueType

def isDelegate (t : TypeDef) : Bool := t.flags.has .delegate

def isDisplayClass (t : TypeDef) : Bool := t.flags.has .displayClass

def isClosureSingleton (t : TypeDef) : Bool := t.flags.has .closureSingleton

/-- The type of the program that this one derives from. -/
def baseType? (t : TypeDef) : Option TypeId := t.base.bind TypeRef.named?

/-- The property that `m` is an accessor of. -/
def propertyOf? (t : TypeDef) (m : MethodId) : Option PropertyDef :=
  t.properties.find? fun p => p.hasAccessor m

end TypeDef

/-- A field. -/
structure FieldDef where
  owner : TypeId
  name : String
  type : TypeRef
  flags : FlagSet FieldFlag
  deriving DecidableEq, Repr

namespace FieldDef

def isStatic (f : FieldDef) : Bool := f.flags.has .static

def isLiteral (f : FieldDef) : Bool := f.flags.has .literal

def isRetired (f : FieldDef) : Bool := f.flags.has .retired

end FieldDef

/-- A parameter. -/
structure Param where
  name : String
  type : TypeRef
  deriving DecidableEq, Repr

/-- A method. -/
structure MethodDef where
  owner : TypeId
  name : String
  params : List Param
  returnType : TypeRef
  flags : FlagSet MethodFlag
  /-- The methods that this one is declared to override, besides those of its own signature. -/
  overrides : List MethodId
  body : Option MethodBody
  deriving DecidableEq, Repr

namespace MethodDef

def isStatic (m : MethodDef) : Bool := m.flags.has .static

def isVirtual (m : MethodDef) : Bool := m.flags.has .virtual

def isAbstract (m : MethodDef) : Bool := m.flags.has .abstract

def isConstructor (m : MethodDef) : Bool := m.flags.has .constructor

def isStaticConstructor (m : MethodDef) : Bool := m.flags.has .staticConstructor

def isInitUnit (m : MethodDef) : Bool := m.flags.has .initUnit

def isContextReplacement (m : MethodDef) : Bool := m.flags.has .contextReplacement

def isRetired (m : MethodDef) : Bool := m.flags.has .retired

def isSpecialName (m : MethodDef) : Bool := m.flags.has .specialName

/-- Whether the method is in use and has code. -/
def isLive (m : MethodDef) : Bool := !m.isRetired && m.body.isSome

/-- The number of arguments ahead of the parameters. -/
def thisOffset (m : MethodDef) : Nat := if m.isStatic then 0 else 1

/-- The number of arguments, the receiver included. -/
def argCount (m : MethodDef) : Nat := m.params.length + m.thisOffset

def returnsValue (m : MethodDef) : Bool := !m.returnType.isVoid

/-- The number of values that a call of the method leaves. -/
def resultCount (m : MethodDef) : Nat := if m.returnsValue then 1 else 0

def paramTypes (m : MethodDef) : List TypeRef := m.params.map (·.type)

/-- The type of an argument, given that of the receiver. -/
def argType? (m : MethodDef) (index : Nat) (receiver : TypeRef) : Option TypeRef :=
  if m.isStatic then m.paramTypes[index]?
  else match index with
    | 0 => some receiver
    | k + 1 => m.paramTypes[k]?

/-- Whether two methods agree in name, parameter types and result. -/
def sameSignature (a b : MethodDef) : Bool :=
  a.name == b.name && a.returnType == b.returnType && a.paramTypes == b.paramTypes

end MethodDef

end ContextBinding
