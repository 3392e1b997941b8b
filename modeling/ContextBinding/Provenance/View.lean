import ContextBinding.Flow.Index
import ContextBinding.Program.StackEffect

/-!
# The view of one body

A method's code with its control flow, which all questions about the stack are asked of.
-/

namespace ContextBinding

/-- A method's code with its control flow. -/
structure CodeView where
  program : Program
  method : MethodId
  body : MethodBody
  index : FlowIndex

namespace CodeView

/-- The instruction of an identifier. -/
def instr (v : CodeView) (id : InstrId) : Except AnalysisError Instruction :=
  match (v.index.position? id).bind v.body.at? with
  | some i => .ok i
  | none => .error (.model (.unknownInstruction id))

/-- The stack effect of an instruction. -/
def effect (v : CodeView) (id : InstrId) : Except AnalysisError StackEffect := do
  v.program.stackEffect v.method (← v.instr id)

/-- A walk that asks for more values than there are. -/
def underflow (v : CodeView) (id : InstrId) : AnalysisError :=
  .stackUnderflow (v.program.identity v.method) id

/-- The number of values that an instruction takes and leaves. -/
def trafficOf (v : CodeView) (i : Instruction) : Nat :=
  match v.program.stackEffect v.method i with
  | .ok effect => effect.pops + effect.pushes
  | .error _ => 0

/-- The number of values that all instructions take and leave. -/
def traffic (v : CodeView) : Nat :=
  v.body.instructions.foldl (fun total i => total + v.trafficOf i) 0

/-- A bound on how many different pairs of an instruction and a stack depth a walk meets that starts
at `depth`, in code whose loops leave the stack height as it is. -/
def walkBound (v : CodeView) (depth : Nat) : Nat :=
  let n := v.index.size + v.index.edgeCount + 1
  n * (depth + n * (v.traffic + 1) + 1)

end CodeView

end ContextBinding
