import ContextBinding.Plan.Basic
import ContextBinding.Reference.Graph

/-!
# The order of contexts

A context depends on its parent, and on every context whose slot is read by code that can be reached
from its constructor or its init units. Contexts are constructed after those they depend on; of
several that could come next, the one with the smallest number does. Where that does not work out,
every elementary circuit of the dependencies is reported.
-/

namespace ContextBinding

/-- For each context, those it depends on in ascending order. -/
abbrev Dependencies := Table ContextId (List ContextId)

namespace Dependencies

/-- What a context depends on. -/
def needs (d : Dependencies) (id : ContextId) : List ContextId := (d.get? id).getD []

/-- The first of `left` that depends on nothing outside `done`. -/
def ready? (d : Dependencies) (done left : List ContextId) : Option ContextId :=
  left.find? fun id => (d.needs id).all done.contains

/-- Put one context after the other while there is one that is ready. What is left over comes
second. -/
def arrange (d : Dependencies) : Nat → List ContextId → List ContextId →
    List ContextId × List ContextId
  | 0, done, left => (done, left)
  | fuel + 1, done, left =>
    match d.ready? done left with
    | none => (done, left)
    | some id => arrange d fuel (done ++ [id]) (left.filter (· != id))

/-- The ways to close the path that ends with `last` and goes back to `start` over contexts in
`allowed`. -/
def closings (d : Dependencies) (allowed : List ContextId) (start : ContextId) :
    Nat → List ContextId → ContextId → List (List ContextId)
  | 0, _, _ => []
  | fuel + 1, path, last =>
    (d.needs last).flatMap fun next =>
      if next = start then [path]
      else if allowed.contains next && !path.contains next then
        closings d allowed start fuel (path ++ [next]) next
      else []

/-- The elementary circuits among the given contexts, each from its smallest member on. -/
def circuits (d : Dependencies) (among : List ContextId) : List (List ContextId) :=
  among.flatMap fun start =>
    closings d (among.filter fun id => start.index ≤ id.index) start among.length [start] start

end Dependencies

/-- Order names by their characters. -/
def nameLe (a b : String) : Bool := decide (a ≤ b)

/-- Order lists of names by the first name that differs. -/
def namesLe : List String → List String → Bool
  | [], _ => true
  | _ :: _, [] => false
  | a :: as, b :: bs => if a = b then namesLe as bs else nameLe a b

/-- Turn a circuit so that it starts with its smallest name. -/
def rotateToSmallest (names : List String) : List String :=
  let start := names.findIdx fun name => names.all (nameLe name)
  names.drop start ++ names.take start

namespace ContextPlan

/-- The context that is stored in a field. The last one counts. -/
def slotOwner? (plan : ContextPlan) (field : FieldId) : Option ContextId :=
  ((plan.entries.filter fun e => e.2.slot? == some field).getLast?).map (·.1)

/-- The methods that can be reached from some others, these included. -/
def reachable (g : ReferenceGraph) (start : List MethodId) : List MethodId :=
  let bound := g.sites.values.flatten.length + start.length + 1
  reach (fun m => (g.callees m).map (·.callee)) bound start

/-- The contexts whose slot an instruction reads. -/
def readSlot? (plan : ContextPlan) (i : Instruction) : Option ContextId :=
  if i.opcode == .ldfld || i.opcode == .ldflda then i.field?.bind plan.slotOwner? else none

/-- The contexts whose slot is read by code that can be reached from a context's own code. A context
that was there already is not constructed and reads nothing. -/
def readFrom (plan : ContextPlan) (p : Program) (g : ReferenceGraph) (c : ContextDescriptor) :
    List ContextId :=
  if c.isReusedSingleton then []
  else
    (reachable g (c.constructor :: c.initUnits)).flatMap fun m =>
      (((p.method? m).bind (·.body)).map fun b => b.instructions.filterMap plan.readSlot?).getD []

/-- What each context depends on. -/
def dependencies (plan : ContextPlan) (p : Program) (g : ReferenceGraph) : Dependencies :=
  .ofList <| plan.entries.map fun e =>
    let read := (plan.readFrom p g e.2).filter (· != e.1)
    (e.1, ascending (e.2.parent.toList ++ read))

/-- The names along a circuit, the smallest first. -/
def circuitNames (plan : ContextPlan) (circuit : List ContextId) : List String :=
  rotateToSmallest (circuit.map fun id => (plan.context id).name)

/-- The circuits among some contexts by name, in order and each once. -/
def cycleNames (plan : ContextPlan) (d : Dependencies) (among : List ContextId) :
    List (List String) :=
  dedupAdjacent (sortOrdered namesLe ((d.circuits among).map plan.circuitNames))

/-- The contexts in the order of their construction. -/
def order (plan : ContextPlan) (p : Program) (g : ReferenceGraph) :
    Except ResolveError (List ContextId) :=
  let d := plan.dependencies p g
  match d.arrange plan.size [] plan.ids with
  | (done, []) => .ok done
  | (_, left) => .error (.cycles (plan.cycleNames d left))

end ContextPlan

end ContextBinding
