import ContextBinding.Exploration
import ContextBinding.Provenance.Path
import ContextBinding.Provenance.View

/-!
# Where values go

A forward walk finds the instructions that take a value from the stack, directly or after it went
through local variables and was duplicated; and the stores and loads of a local that see each other.
-/

namespace ContextBinding.CodeView

variable (v : CodeView)

/-- Order by place in the code. -/
def positionLe (a b : InstrId) : Bool :=
  match v.index.position? a, v.index.position? b with
  | none, _ => true
  | some _, none => false
  | some m, some n => m ≤ n

/-- Order by the place of the consumer, then by slot. -/
def usageLe (a b : Usage) : Bool :=
  if a.consumer = b.consumer then a.slot ≤ b.slot
  else v.positionLe a.consumer b.consumer

/-- Usages in order, each once. -/
def sortUsages (usages : List Usage) : List Usage := dedupAdjacent (sortOrdered v.usageLe usages)

/-- Where a value goes that has `spot.2` others on top of it just before `spot.1`, unless it is
taken there. -/
def carry (spot : InstrId × Nat) : Except AnalysisError (List (InstrId × Nat)) := do
  let i ← v.instr spot.1
  if i.opcode = .leave then pure []
  else
    let effect ← v.effect spot.1
    if spot.2 < effect.pops then pure []
    else
      pure ((v.index.successors spot.1).map fun next =>
        (next, spot.2 - effect.pops + effect.pushes))

/-- How a value is taken that has `spot.2` others on top of it just before `spot.1`. A `leave` drops
the whole stack. -/
def usageAt? (spot : InstrId × Nat) : Option Usage :=
  match v.instr spot.1, v.effect spot.1 with
  | .ok i, .ok effect =>
    if i.opcode = .leave then some ⟨spot.1, 0⟩
    else if spot.2 < effect.pops then some ⟨spot.1, effect.pops - 1 - spot.2⟩
    else none
  | _, _ => none

/-- The instructions that take a value pushed by `id`. -/
def usage (id : InstrId) : Except AnalysisError (List Usage) := do
  let pushes := (← v.effect id).pushes
  let start := (List.range pushes).flatMap fun depth =>
    (v.index.successors id).map fun next => (next, depth)
  let visited ← explore v.carry (v.walkBound pushes + start.length) [] start.reverse
  pure (v.sortUsages (visited.reverse.filterMap v.usageAt?))

/-- The local that an instruction accesses. -/
def localOf (id : InstrId) : Except AnalysisError Nat := do
  match (← v.instr id).localVar? with
  | some index => pure index
  | none => throw (.model (.invalidOperand id .notLocal))

/-- Whether an instruction is a store to a local. -/
def isStoreTo (index : Nat) (i : Instruction) : Bool :=
  i.localVar? == some index && i.opcode == .stloc

/-- Whether an instruction reads a local or takes its address. -/
def isLoadOf (index : Nat) (i : Instruction) : Bool :=
  i.localVar? == some index && (i.opcode == .ldloc || i.opcode == .ldloca)

/-- Those of the instructions that satisfy a condition, by place in the code. -/
def select (condition : Instruction → Bool) (ids : List InstrId) : List InstrId :=
  sortOrdered v.positionLe <| ids.filter fun id =>
    match v.instr id with
    | .ok i => condition i
    | .error _ => false

/-- Go on from an instruction over `next`, unless it is a store to the local. -/
def unlessStore (index : Nat) (next : InstrId → List InstrId) (id : InstrId) :
    Except AnalysisError (List InstrId) := do
  if isStoreTo index (← v.instr id) then pure [] else pure (next id)

/-- The stores whose value the load at `id` may see. -/
def localSources (id : InstrId) : Except AnalysisError (List InstrId) := do
  let index ← v.localOf id
  let start := v.index.predecessors id
  let visited ← explore (v.unlessStore index v.index.predecessors)
    (v.index.edgeCount + start.length + 1) [] start.reverse
  pure (v.select (isStoreTo index) visited.reverse)

/-- The loads that may see the value stored at `id`. -/
def localUses (id : InstrId) : Except AnalysisError (List InstrId) := do
  let index ← v.localOf id
  let start := v.index.successors id
  let visited ← explore (v.unlessStore index v.index.successors)
    (v.index.edgeCount + start.length + 1) [] start.reverse
  pure (v.select (isLoadOf index) visited.reverse)

/-- What becomes of a value that is taken: the instructions that push it again, and the usages that
do not. -/
def passOn (u : Usage) : Except AnalysisError (List InstrId × List Usage) := do
  match (← v.instr u.consumer).opcode with
  | .stloc =>
    let loads ← v.localUses u.consumer
    let kinds ← loads.mapM fun load => do pure (load, (← v.instr load).opcode)
    let (values, addresses) := kinds.partition fun kind => kind.2 == .ldloc
    pure (values.map (·.1), addresses.map fun kind => ⟨kind.1, 0⟩)
  | .dup => pure ([u.consumer], [])
  | _ => pure ([], [u])

/-- The instructions that push again what `id` pushed, and the usages that do not. -/
def passOnAll (id : InstrId) : Except AnalysisError (List InstrId × List Usage) := do
  let parts ← (← v.usage id).mapM v.passOn
  pure (parts.flatMap (·.1), parts.flatMap (·.2))

/-- The usages of the values that an instruction pushed and that did not go through a local or a
duplication. -/
def finalUsages (id : InstrId) : List Usage :=
  match v.passOnAll id with
  | .ok parts => parts.2
  | .error _ => []

/-- The instructions that take a value pushed by `id`, also after it went through local variables
and was duplicated. -/
def usageThroughLocals (id : InstrId) : Except AnalysisError (List Usage) := do
  let n := v.index.size + 1
  let again (id : InstrId) : Except AnalysisError (List InstrId) := do pure (← v.passOnAll id).1
  let visited ← explore again (n * n * (v.traffic + 1) + 1) [] [id]
  pure (v.sortUsages (visited.reverse.flatMap v.finalUsages))

end ContextBinding.CodeView
