import ContextBinding.Program.Types
import ContextBinding.Provenance.Backward

/-!
# Types on the stack

The static type of a value on the stack is the one that all its producers agree on. Where a producer
only passes a type on, that of its deepest operand is asked for in turn.
-/

namespace ContextBinding

/-- The type of a value over all the paths it may have come by. -/
inductive StackType where
  /-- Every path gives this type. -/
  | known (type : TypeRef)
  /-- Every path gives the null constant. -/
  | null
  /-- The paths disagree, or a producer's type cannot be told. -/
  | divergent
  deriving DecidableEq, Repr

namespace StackType

def known? : StackType → Option TypeRef
  | known type => some type
  | _ => none

/-- The type that two paths agree on. -/
def merge : StackType → StackType → StackType
  | null, null => null
  | known a, known b => if a = b then known a else divergent
  | _, _ => divergent

/-- The type that all paths agree on. Without a path there is none. -/
def common : List StackType → StackType
  | [] => divergent
  | first :: rest => rest.foldl merge first

/-- The type of an element of an array of this type. -/
def element : StackType → StackType
  | known (.array element) => known element
  | _ => divergent

/-- The type of what a reference of this type points to. -/
def pointee : StackType → StackType
  | known (.byRef target) => known target
  | _ => divergent

/-- A type that may be unknown. -/
def ofOption : Option TypeRef → StackType
  | some type => known type
  | none => divergent

end StackType

namespace CodeView

variable (v : CodeView)

/-- The type of the argument that an instruction accesses. -/
def argType? (i : Instruction) : Except AnalysisError (Option TypeRef) := do
  match v.program.methodDef v.method with
  | .error e => throw (.model e)
  | .ok m =>
    let receiver := v.program.receiverType m.owner
    pure (i.arg?.bind fun index => m.argType? index receiver)

/-- The type of the local that an instruction accesses. -/
def localType? (i : Instruction) : Option TypeRef :=
  i.localVar?.bind fun index => v.body.locals[index]?

/-- The type of the field that an instruction accesses. -/
def fieldType? (i : Instruction) : Except AnalysisError (Option TypeRef) :=
  match i.field? with
  | none => .ok none
  | some id =>
    match v.program.fieldDef id with
    | .ok f => .ok (some f.type)
    | .error e => .error (.model e)

/-- What an instruction's method operand tells about the type it pushes. -/
def methodType? (i : Instruction) (f : MethodDef → TypeRef) :
    Except AnalysisError (Option TypeRef) :=
  match i.method? with
  | none => .ok none
  | some id =>
    match v.program.methodDef id with
    | .ok m => .ok (some (f m))
    | .error e => .error (.model e)

/-- The type that an instruction pushes. `input` gives the type of its deepest operand. -/
def producedType (input : Walk StackType) (i : Instruction) : Walk StackType :=
  match i.opcode with
  | .ldnull => pure .null
  | .ldcI4 | .convI4 | .ceq | .cgt | .clt => pure (.known .int32)
  | .ldcI8 | .convI8 => pure (.known .int64)
  | .ldcR8 | .convR8 => pure (.known .float64)
  | .ldstr => pure (.known .string)
  | .ldftn | .ldvirtftn | .ldlen => pure (.known .nativeInt)
  | .box => pure (.known .object)
  | .ldarg => do pure (.ofOption (← v.argType? i))
  | .ldarga => do pure (.ofOption ((← v.argType? i).map .byRef))
  | .ldloc => pure (.ofOption (v.localType? i))
  | .ldloca => pure (.ofOption ((v.localType? i).map .byRef))
  | .ldfld | .ldsfld => do pure (.ofOption (← v.fieldType? i))
  | .ldflda | .ldsflda => do pure (.ofOption ((← v.fieldType? i).map .byRef))
  | .call | .callvirt => do pure (.ofOption (← v.methodType? i (·.returnType)))
  | .newobj => do pure (.ofOption (← v.methodType? i fun m => .named m.owner))
  | .castclass | .isinst | .unboxAny => pure (.ofOption i.type?)
  | .newarr => pure (.ofOption (i.type?.map .array))
  | .ldelem => do pure (← input).element
  | .ldind | .ldobj => do pure (← input).pointee
  | .dup | .add | .sub | .mul | .div | .rem | .neg | .and | .or | .xor | .not | .shl | .shr => input
  | _ => pure .divergent

/-- The type of an exception at a handler entry. -/
def caughtType (entry : InstrId) : StackType := .ofOption (v.index.handlerEntry? entry).join

/-- The type of the value that a path produces. `typeOf` gives the type of a value deeper down. -/
def pathType (typeOf : InstrId → Nat → Walk StackType) (path : Path) : Walk StackType :=
  match path.producer?, path.caught with
  | none, some entry => pure (v.caughtType entry)
  | none, none => pure .divergent
  | some producer, _ => do
    let i ← v.instr producer
    let input : Walk StackType := do
      match (← v.effect producer).pops with
      | 0 => pure .divergent
      | depth + 1 => typeOf producer depth
    v.producedType input i

/-- The type of a value, followed through at most `fuel` instructions that pass a type on. -/
def valueTypeWithin : Nat → InstrId → Nat → Walk StackType
  | 0, _, _ => pure .divergent
  | fuel + 1, id, depth => do
    let paths ← v.valuePaths id depth
    pure (.common (← paths.mapM (v.pathType (valueTypeWithin fuel))))

/-- How many instructions in a row may pass a type on. -/
def derivationLimit : Nat := 32

/-- The type of the value beneath `depth` others just before an instruction. -/
def valueType (id : InstrId) (depth : Nat) : Except AnalysisError StackType :=
  (v.valueTypeWithin (derivationLimit + 1) id depth).run' []

/-- The type of the value on top of the stack just before an instruction. -/
def topType (id : InstrId) : Except AnalysisError StackType := v.valueType id 0

/-- The type of an operand. -/
def operandType (id : InstrId) (slot : Nat) : Except AnalysisError StackType := do
  v.valueType id (← v.operandDepth id slot)

end CodeView

end ContextBinding
