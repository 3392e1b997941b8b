import ContextBinding.Program.Names

/-!
# Listings

A method in text: its identity, then its instructions with the members and types they name.
-/

namespace ContextBinding.Program

/-- An operand with the name of what it stands for. -/
def operandText (p : Program) : Operand → String
  | .field id => p.fieldIdentity id
  | .method id => p.identity id
  | .type ref => p.refName ref
  | operand => toString operand

/-- The line of an instruction. -/
def instructionLine (p : Program) (i : Instruction) : String :=
  let operand := p.operandText i.operand
  if operand.isEmpty then s!"  {i.id}: {i.opcode.name}\n"
  else s!"  {i.id}: {i.opcode.name} " ++ operand ++ "\n"

/-- The listing of a method. -/
def listing (p : Program) (id : MethodId) : String :=
  p.identity id ++ "\n" ++
    match p.body id with
    | .ok b => String.join (b.instructions.map p.instructionLine)
    | .error _ => "  <no body>\n"

end ContextBinding.Program
