import ContextBinding.Program.Names

/-!
# Stack effects

What an instruction takes from and leaves on the stack. A call takes the arguments of its target and
leaves its result, a construction leaves the new object, and a return takes the result of the method
it stands in.
-/

namespace ContextBinding

/-- What a call of the method takes and leaves. -/
def MethodDef.callEffect (m : MethodDef) : StackEffect := ⟨m.argCount, m.resultCount⟩

/-- What a construction by the method takes and leaves. -/
def MethodDef.constructionEffect (m : MethodDef) : StackEffect := ⟨m.params.length, 1⟩

namespace Program

/-- The stack effect of an instruction of `method`. -/
def stackEffect (p : Program) (method : MethodId) (i : Instruction) :
    Except AnalysisError StackEffect :=
  match i.opcode.fixedEffect? with
  | some effect => .ok effect
  | none =>
    let unresolved := AnalysisError.unresolvedStackEffect (p.identity method) i.id i.opcode
    match i.opcode with
    | .ret =>
      match p.methodDef method with
      | .ok m => .ok ⟨m.resultCount, 0⟩
      | .error e => .error (.model e)
    | .newobj =>
      match i.method?.bind p.method? with
      | some m => if m.isConstructor then .ok m.constructionEffect else .error unresolved
      | none => .error unresolved
    | _ =>
      match i.method?.bind p.method? with
      | some m => .ok m.callEffect
      | none => .error unresolved

end Program

end ContextBinding
