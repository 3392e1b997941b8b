import ContextBinding.Exploration
import ContextBinding.Program.Types

/-!
# Overriding

Which virtual methods override or implement which others. A method overrides those it is declared to
override, the nearest virtual method of its signature among the base types of its owner unless it
starts a slot of its own, and those of its signature in the interfaces of its owner.
-/

namespace ContextBinding

/-- The override relation of a program. -/
structure OverrideGraph where
  /-- The virtual methods in use and the methods they override, in ascending order. -/
  members : List MethodId
  /-- Pairs of an overridden method and one that overrides it. -/
  edges : List (MethodId × MethodId)
  /-- The virtual methods without code of their own. -/
  abstracts : List MethodId
  deriving DecidableEq, Repr

namespace Program

/-- The first live virtual method of a type, other than `id`, with the signature of `m`. -/
def matching? (p : Program) (type : TypeId) (id : MethodId) (m : MethodDef) : Option MethodId :=
  (p.methodsWhere type fun other =>
    !other.isRetired && other.isVirtual && other.sameSignature m).find? (· != id)

/-- The first match on a type, then on its base type, and so on for at most `fuel` types. -/
def nearestMatch? (p : Program) (id : MethodId) (m : MethodDef) :
    Nat → Option TypeId → Option MethodId
  | 0, _ => none
  | _ + 1, none => none
  | fuel + 1, some type =>
    match p.matching? type id m with
    | some found => some found
    | none => nearestMatch? p id m fuel ((p.type? type).bind TypeDef.baseType?)

/-- The interfaces that a type names, and those they extend, in ascending order. -/
def interfacesOf (p : Program) (type : TypeId) : List TypeId :=
  let named (id : TypeId) : List TypeId := ((p.type? id).map (·.interfaces)).getD []
  let bound := (p.types.flatMap (·.interfaces)).length + p.types.length
  ascending (reach named (2 * bound + 1) (named type))

/-- The method that `m` overrides by having the same signature. -/
def implicitBase? (p : Program) (id : MethodId) (m : MethodDef) : Option MethodId :=
  match p.type? m.owner with
  | none => none
  | some owner =>
    if m.flags.has .newSlot || owner.isInterface then none
    else p.nearestMatch? id m (p.types.length + 1) owner.baseType?

/-- The methods that a method overrides or implements, in ascending order. -/
def basesOf (p : Program) (id : MethodId) (m : MethodDef) : List MethodId :=
  let declared := m.overrides.filter fun base => (p.method? base).any fun b => !b.isRetired
  let implemented := (p.interfacesOf m.owner).filterMap fun type => p.matching? type id m
  ascending (declared ++ (p.implicitBase? id m).toList ++ implemented)

end Program

namespace OverrideGraph

def empty : OverrideGraph := ⟨[], [], []⟩

instance : Inhabited OverrideGraph := ⟨empty⟩

/-- The override relation of a program. -/
def build (p : Program) : OverrideGraph :=
  let virtuals := p.methodIds.filterMap fun id =>
    ((p.method? id).filter fun m => !m.isRetired && m.isVirtual).map fun m => (id, m)
  let edges := virtuals.flatMap fun e => (p.basesOf e.1 e.2).map fun base => (base, e.1)
  { members := ascending (virtuals.map (·.1) ++ edges.map (·.1))
    edges := edges
    abstracts :=
      (virtuals.filter fun e => e.2.isAbstract || e.2.body.isNone).map (·.1) }

/-- Whether a method takes part in overriding. -/
def contains (g : OverrideGraph) (id : MethodId) : Bool := g.members.contains id

/-- The methods that override a method without another one between them. -/
def overriders (g : OverrideGraph) (id : MethodId) : List MethodId :=
  ascending ((g.edges.filter fun edge => edge.1 == id).map (·.2))

/-- The methods that a method overrides without another one between them. -/
def overridden (g : OverrideGraph) (id : MethodId) : List MethodId :=
  ascending ((g.edges.filter fun edge => edge.2 == id).map (·.1))

/-- A bound on the number of steps over edges in either direction. -/
def bound (g : OverrideGraph) : Nat := 4 * g.edges.length + g.members.length + 1

/-- The methods with code that a virtual call of `id` may be dispatched to, besides `id`. -/
def implementations (g : OverrideGraph) (id : MethodId) : List MethodId :=
  ascending ((reach g.overriders g.bound (g.overriders id)).filter fun m => !g.abstracts.contains m)

/-- The methods connected with `id` by overriding in either direction, `id` included. -/
def family (g : OverrideGraph) (id : MethodId) : List MethodId :=
  ascending (reach (fun m => g.overriders m ++ g.overridden m) g.bound [id])

/-- The number of methods that take part in overriding. -/
def size (g : OverrideGraph) : Nat := g.members.length

def isEmpty (g : OverrideGraph) : Bool := g.members.isEmpty

end OverrideGraph

end ContextBinding
