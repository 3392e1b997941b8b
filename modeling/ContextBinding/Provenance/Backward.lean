import ContextBinding.Provenance.Path
import ContextBinding.Provenance.View

/-!
# Where values come from

A backward walk from an instruction finds the paths that produce a value on the stack. It forks at
every join and passes each instruction with the number of values that are still owed. Passing the
same instruction twice on one walk with the same number owed closes a loop, which adds no path. What
was found for an instruction and a number is kept for the rest of the question, unless a loop was
cut short whose start is still being walked.
-/

namespace ContextBinding

/-- What a walk looks for. -/
inductive WalkAim where
  /-- The value beneath a number of others. -/
  | beneath
  /-- Everything that supplies a number of values on top. -/
  | supply
  deriving DecidableEq, Repr

/-- A walk that enters an instruction from behind with a number of values owed. -/
structure WalkTask where
  instr : InstrId
  owed : Nat
  aim : WalkAim
  deriving DecidableEq, Repr

/-- The paths that a walk found, and the number of tasks that were under way below the outermost one
at which it was cut short. -/
structure Walked where
  paths : List Path
  cut : Option Nat
  deriving DecidableEq, Repr

namespace Walked

def none : Walked := ⟨[], Option.none⟩

/-- The smaller of two numbers of tasks. -/
def outermost : Option Nat → Option Nat → Option Nat
  | some a, some b => some (min a b)
  | some a, Option.none => some a
  | Option.none, b => b

/-- Add what another branch found. -/
def merge (a b : Walked) : Walked := ⟨b.paths.foldl insertNew a.paths, outermost a.cut b.cut⟩

/-- Let `id` run after each of the paths. -/
def extend (w : Walked) (id : InstrId) (exact : Bool) : Walked :=
  { w with paths := w.paths.map fun path => path.extend id exact }

end Walked

/-- The finished tasks of a question, with what they found. -/
abbrev WalkMemo := List (WalkTask × List Path)

abbrev Walk := StateT WalkMemo (Except AnalysisError)

/-- How many tasks were under way when `task` began, if it is one of them. The latest comes first.
-/
def levelOf? (task : WalkTask) : List WalkTask → Option Nat
  | [] => none
  | other :: rest => if other = task then some rest.length else levelOf? task rest

namespace CodeView

variable (v : CodeView)

/-- Walk into each of the given instructions from behind. -/
def gather (enter : WalkTask → Walk Walked) (owed : Nat) (aim : WalkAim) (ids : List InstrId) :
    Walk Walked :=
  ids.foldlM (fun found id => do pure (found.merge (← enter ⟨id, owed, aim⟩))) Walked.none

/-- Look ahead of an instruction, where `owed` values are owed. The exception at a handler entry
pays for the last one. -/
def lookBack (enter : WalkTask → Walk Walked) (id : InstrId) (owed : Nat) (aim : WalkAim)
    (last : Nat) : Walk Walked :=
  match v.index.handlerEntry? id with
  | some (some _) =>
    if owed = last then pure ⟨[.ofCatch id], none⟩ else throw (v.underflow id)
  | some none => throw (v.underflow id)
  | none =>
    match v.index.predecessors id with
    | [] => throw (v.underflow id)
    | ids => gather enter owed aim ids

/-- The paths that produce the value beneath `depth` others just before an instruction. -/
def producersVia (enter : WalkTask → Walk Walked) (id : InstrId) (depth : Nat) : Walk Walked :=
  v.lookBack enter id depth .beneath 0

/-- The paths that supply `need` values just before an instruction. -/
def suppliersVia (enter : WalkTask → Walk Walked) (id : InstrId) (need : Nat) : Walk Walked :=
  if need = 0 then pure ⟨[.nil], none⟩ else v.lookBack enter id need .supply 1

/-- Pass one instruction. A `leave` empties the stack, so that nothing comes from ahead of it. -/
def passVia (enter : WalkTask → Walk Walked) (task : WalkTask) : Walk Walked := do
  let i ← v.instr task.instr
  if i.opcode = .leave then throw (v.underflow task.instr)
  let effect ← v.effect task.instr
  match task.aim with
  | .beneath =>
    if effect.pushes ≤ task.owed then
      v.producersVia enter task.instr (task.owed - effect.pushes + effect.pops)
    else
      let found ← v.suppliersVia enter task.instr effect.pops
      pure (found.extend task.instr (task.owed + 1 == effect.pushes))
  | .supply =>
    if effect.pops = 0 ∧ effect.pushes = 0 then v.suppliersVia enter task.instr task.owed
    else
      let found ← v.suppliersVia enter task.instr (task.owed - effect.pushes + effect.pops)
      pure (found.extend task.instr (effect.pushes ≤ task.owed))

/-- Carry out a task while those in `underWay` wait for it. `fuel` bounds how many may wait; a walk
that needs more goes round a loop that takes from the stack without end. -/
def carryOut : Nat → List WalkTask → WalkTask → Walk Walked
  | 0, _, task => throw (v.underflow task.instr)
  | fuel + 1, underWay, task => do
    match (← get).lookup task with
    | some paths => pure ⟨paths, none⟩
    | none =>
      match levelOf? task underWay with
      | some level => pure ⟨[], some level⟩
      | none =>
        let found ← v.passVia (carryOut fuel (task :: underWay)) task
        if found.cut.any (· < underWay.length) then pure found
        else
          modify ((task, found.paths) :: ·)
          pure ⟨found.paths, none⟩

/-- The paths that produce the value beneath `depth` others just before an instruction. -/
def valuePaths (id : InstrId) (depth : Nat) : Walk (List Path) := do
  pure (← v.producersVia (v.carryOut (2 * v.walkBound depth) []) id depth).paths

/-- The stack depth of an operand. -/
def operandDepth (id : InstrId) (slot : Nat) : Except AnalysisError Nat := do
  let pops := (← v.effect id).pops
  if slot < pops then pure (pops - 1 - slot)
  else throw (.slotOutOfRange (v.program.identity v.method) id slot pops)

/-- The paths of every operand, the deepest first. -/
def operands (id : InstrId) : Except AnalysisError (List (List Path)) := do
  let pops := (← v.effect id).pops
  ((List.range pops).mapM fun slot => v.valuePaths id (pops - 1 - slot)).run' []

/-- The paths of one operand. -/
def operand (id : InstrId) (slot : Nat) : Except AnalysisError (List Path) := do
  (v.valuePaths id (← v.operandDepth id slot)).run' []

/-- The paths of any value on the stack, whether or not the instruction takes it. -/
def stackValue (id : InstrId) (depth : Nat) : Except AnalysisError (List Path) :=
  (v.valuePaths id depth).run' []

end CodeView

end ContextBinding
