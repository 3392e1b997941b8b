import ContextBinding.Program.Names

/-!
# Bindings

Which methods were bound to a context, how, and what stands in for each. A method is bound once.
-/

namespace ContextBinding

/-- How a method reaches its context. -/
inductive BindingMode where
  | unbound
  /-- The method moved to the type of a context as an instance method. -/
  | instanceConverted (context : ContextId)
  /-- The method takes the root as its first parameter. -/
  | addedParameter
  deriving DecidableEq, Repr

namespace BindingMode

protected def toString : BindingMode → String
  | unbound => "unbound"
  | instanceConverted context => s!"instance-converted into {context}"
  | addedParameter => "added-parameter"

instance : ToString BindingMode := ⟨BindingMode.toString⟩

end BindingMode

/-- A bound method with what stands in for it. -/
structure Binding where
  method : MethodId
  replacement : MethodId
  mode : BindingMode
  deriving DecidableEq, Repr

/-- The bound methods. -/
structure BindingMap where
  table : Table MethodId Binding
  deriving DecidableEq, Repr

namespace BindingMap

def empty : BindingMap := ⟨∅⟩

instance : Inhabited BindingMap := ⟨empty⟩

/-- The bindings, in ascending order of the bound methods. -/
def toList (m : BindingMap) : List Binding := m.table.values

def get? (m : BindingMap) (method : MethodId) : Option Binding := m.table.get? method

/-- What stands in for a method. -/
def replacement? (m : BindingMap) (method : MethodId) : Option MethodId :=
  (m.get? method).map (·.replacement)

/-- How a method is bound. -/
def mode (m : BindingMap) (method : MethodId) : BindingMode :=
  ((m.get? method).map (·.mode)).getD .unbound

def isBound (m : BindingMap) (method : MethodId) : Bool := (m.get? method).isSome

/-- The first binding with a replacement. -/
def byReplacement? (m : BindingMap) (replacement : MethodId) : Option Binding :=
  m.toList.find? fun b => b.replacement == replacement

/-- Whether a method stands in for another one. -/
def isReplacement (m : BindingMap) (method : MethodId) : Bool := (m.byReplacement? method).isSome

def size (m : BindingMap) : Nat := m.table.size

def isEmpty (m : BindingMap) : Bool := m.table.isEmpty

/-- Bind a method. Binding it again in the same way changes nothing; any other way is refused. -/
def bind (m : BindingMap) (p : Program) (b : Binding) : Except BindingError BindingMap :=
  match m.get? b.method with
  | none => .ok ⟨m.table.insert b.method b⟩
  | some existing =>
    if existing = b then .ok m
    else .error (.alreadyBound (p.identity b.method) (p.identity existing.replacement))

end BindingMap

end ContextBinding
