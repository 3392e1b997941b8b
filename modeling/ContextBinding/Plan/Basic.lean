import ContextBinding.Code.TypeRef
import ContextBinding.Table

/-!
# Context plans

A plan says which static fields of which holder types move into instances of generated types, the
contexts, and how each instance is reached from one root object. It is made elsewhere and checked
against the program before it is carried out.
-/

namespace ContextBinding

/-- One holder type whose static state moves into an instance. -/
structure ContextDescriptor where
  name : String
  /-- The type whose static state moves. -/
  holder : TypeId
  /-- The type of the instance. -/
  generated : TypeId
  constructor : MethodId
  /-- The fields from the root to the instance. The last one is the slot it is stored in. -/
  chain : List FieldId
  /-- The field of the instance that refers back to the root. -/
  rootField : Option FieldId
  /-- The static field of an instance that is there already and is taken over. -/
  singleton : Option FieldId
  parent : Option ContextId
  /-- The instance field for each static field that moves. -/
  movedFields : Table FieldId FieldId
  /-- Instance fields that were there already, for the static fields they stand in for. -/
  replacementFields : Table FieldId FieldId
  /-- Methods that were there already, for the static methods they stand in for. -/
  replacementMethods : Table MethodId MethodId
  /-- The methods that a static initializer was split into. -/
  initUnits : List MethodId
  deriving DecidableEq, Repr

namespace ContextDescriptor

/-- A context without a place and without members. -/
def bare (name : String) (holder generated : TypeId) (constructor : MethodId) : ContextDescriptor :=
  ⟨name, holder, generated, constructor, [], none, none, none, ∅, ∅, ∅, []⟩

instance : Inhabited ContextDescriptor := ⟨bare "" ⟨0⟩ ⟨0⟩ ⟨0⟩⟩

/-- Whether the instance is there already. -/
def isReusedSingleton (c : ContextDescriptor) : Bool := c.singleton.isSome

/-- The field that the instance is stored in. -/
def slot? (c : ContextDescriptor) : Option FieldId := c.chain.getLast?

/-- Every static field with the instance field that takes its place. -/
def fieldPairs (c : ContextDescriptor) : List (FieldId × FieldId) :=
  c.movedFields.entries ++ c.replacementFields.entries

/-- The instance field that takes the place of a static field. -/
def instanceField? (c : ContextDescriptor) (field : FieldId) : Option FieldId :=
  match c.movedFields.get? field with
  | some moved => some moved
  | none => c.replacementFields.get? field

end ContextDescriptor

/-- The root type with every context. -/
structure ContextPlan where
  root : TypeId
  rootConstructor : MethodId
  contexts : List ContextDescriptor
  deriving DecidableEq, Repr

namespace ContextPlan

/-- A plan without contexts. -/
def bare (root : TypeId) (rootConstructor : MethodId) : ContextPlan := ⟨root, rootConstructor, []⟩

instance : Inhabited ContextPlan := ⟨bare ⟨0⟩ ⟨0⟩⟩

/-- Add a context. Contexts are numbered in the order in which they are added. -/
def addContext (plan : ContextPlan) (c : ContextDescriptor) : ContextId × ContextPlan :=
  (⟨plan.contexts.length⟩, { plan with contexts := plan.contexts ++ [c] })

def context? (plan : ContextPlan) (id : ContextId) : Option ContextDescriptor :=
  plan.contexts[id.index]?

/-- A context of the plan. -/
def context (plan : ContextPlan) (id : ContextId) : ContextDescriptor :=
  (plan.context? id).getD default

def size (plan : ContextPlan) : Nat := plan.contexts.length

def isEmpty (plan : ContextPlan) : Bool := plan.contexts.isEmpty

def ids (plan : ContextPlan) : List ContextId := (List.range plan.size).map ContextId.mk

/-- The contexts with their numbers. -/
def entries (plan : ContextPlan) : List (ContextId × ContextDescriptor) :=
  plan.contexts.zipIdx.map fun e => (⟨e.2⟩, e.1)

/-- The first context of a holder. -/
def byHolder? (plan : ContextPlan) (holder : TypeId) : Option ContextId :=
  (plan.entries.find? fun e => e.2.holder == holder).map (·.1)

/-- The first context of a generated type. -/
def byGenerated? (plan : ContextPlan) (generated : TypeId) : Option ContextId :=
  (plan.entries.find? fun e => e.2.generated == generated).map (·.1)

/-- The context and the instance field that a static field moves to. The last one named counts. -/
def movedField? (plan : ContextPlan) (field : FieldId) : Option (ContextId × FieldId) :=
  let moves := plan.entries.flatMap fun e => e.2.fieldPairs.map fun pair => (pair.1, e.1, pair.2)
  ((moves.filter fun move => move.1 == field).getLast?).map (·.2)

/-- The context whose instance is there already in a static field. The last one named counts. -/
def singletonOf? (plan : ContextPlan) (field : FieldId) : Option ContextId :=
  ((plan.entries.filter fun e => e.2.singleton == some field).getLast?).map (·.1)

/-- Whether a type is the root or the type of a context. -/
def isContextType (plan : ContextPlan) (type : TypeId) : Bool :=
  type == plan.root || (plan.byGenerated? type).isSome

/-- Put a method in the place of an init unit of a context. -/
def replaceInitUnit (plan : ContextPlan) (id : ContextId) (unit replacement : MethodId) :
    ContextPlan :=
  let swap (other : MethodId) : MethodId := if other = unit then replacement else other
  let change (c : ContextDescriptor) : ContextDescriptor :=
    { c with initUnits := c.initUnits.map swap }
  { plan with contexts := plan.contexts.modify id.index change }

end ContextPlan

end ContextBinding
