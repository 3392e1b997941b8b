/-!
# Operation codes

The operations of the stack machine, what each takes from and leaves on the evaluation stack, and
where control goes after it. The stack effect of calls and returns depends on the methods involved
and is settled where the program is known.
-/

namespace ContextBinding

/-- The operations of the stack machine. -/
inductive OpCode where
  | nop | pop | dup
  | ldnull | ldcI4 | ldcI8 | ldcR8 | ldstr
  | ldarg | ldarga | starg | ldloc | ldloca | stloc
  | ldfld | ldflda | stfld | ldsfld | ldsflda | stsfld
  | ldind | stind | ldobj | stobj
  | add | sub | mul | div | rem | neg | and | or | xor | not | shl | shr
  | ceq | cgt | clt | convI4 | convI8 | convR8
  | br | brtrue | brfalse | beq | bneUn | blt | bge | bgt | ble | switch | leave | ret
  | call | callvirt | newobj | ldftn | ldvirtftn
  | box | unboxAny | castclass | isinst | initobj | newarr | ldlen | ldelem | stelem
  | throw | endfinally
  deriving DecidableEq, Repr, Inhabited

/-- How many values an instruction takes from the stack and how many it puts there. -/
structure StackEffect where
  pops : Nat
  pushes : Nat
  deriving DecidableEq, Repr

namespace StackEffect

/-- The change of the stack height. -/
def net (effect : StackEffect) : Int := (effect.pushes : Int) - effect.pops

end StackEffect

/-- Where control goes after an instruction. -/
inductive FlowKind where
  /-- To the instruction that follows. -/
  | next
  /-- To the target. -/
  | branch
  /-- To the target or to the instruction that follows. -/
  | condBranch
  /-- To one of several targets or to the instruction that follows. -/
  | switch
  /-- Back to the caller. -/
  | ret
  /-- To a handler, or on from one. -/
  | throw
  deriving DecidableEq, Repr

namespace FlowKind

protected def toString : FlowKind → String
  | next => "Next"
  | branch => "Branch"
  | condBranch => "CondBranch"
  | switch => "Switch"
  | ret => "Return"
  | throw => "Throw"

instance : ToString FlowKind := ⟨FlowKind.toString⟩

end FlowKind

namespace OpCode

/-- Every operation, in the order of the codes. -/
def all : List OpCode :=
  [nop, pop, dup, ldnull, ldcI4, ldcI8, ldcR8, ldstr, ldarg, ldarga, starg, ldloc, ldloca, stloc,
    ldfld, ldflda, stfld, ldsfld, ldsflda, stsfld, ldind, stind, ldobj, stobj, add, sub, mul, div,
    rem, neg, and, or, xor, not, shl, shr, ceq, cgt, clt, convI4, convI8, convR8, br, brtrue,
    brfalse, beq, bneUn, blt, bge, bgt, ble, switch, leave, ret, call, callvirt, newobj, ldftn,
    ldvirtftn, box, unboxAny, castclass, isinst, initobj, newarr, ldlen, ldelem, stelem, throw,
    endfinally]

/-- The number of an operation. -/
def code (op : OpCode) : Nat := all.idxOf op

/-- The mnemonic of an operation. -/
def name : OpCode → String
  | nop => "nop"
  | pop => "pop"
  | dup => "dup"
  | ldnull => "ldnull"
  | ldcI4 => "ldc.i4"
  | ldcI8 => "ldc.i8"
  | ldcR8 => "ldc.r8"
  | ldstr => "ldstr"
  | ldarg => "ldarg"
  | ldarga => "ldarga"
  | starg => "starg"
  | ldloc => "ldloc"
  | ldloca => "ldloca"
  | stloc => "stloc"
  | ldfld => "ldfld"
  | ldflda => "ldflda"
  | stfld => "stfld"
  | ldsfld => "ldsfld"
  | ldsflda => "ldsflda"
  | stsfld => "stsfld"
  | ldind => "ldind"
  | stind => "stind"
  | ldobj => "ldobj"
  | stobj => "stobj"
  | add => "add"
  | sub => "sub"
  | mul => "mul"
  | div => "div"
  | rem => "rem"
  | neg => "neg"
  | and => "and"
  | or => "or"
  | xor => "xor"
  | not => "not"
  | shl => "shl"
  | shr => "shr"
  | ceq => "ceq"
  | cgt => "cgt"
  | clt => "clt"
  | convI4 => "conv.i4"
  | convI8 => "conv.i8"
  | convR8 => "conv.r8"
  | br => "br"
  | brtrue => "brtrue"
  | brfalse => "brfalse"
  | beq => "beq"
  | bneUn => "bne.un"
  | blt => "blt"
  | bge => "bge"
  | bgt => "bgt"
  | ble => "ble"
  | switch => "switch"
  | leave => "leave"
  | ret => "ret"
  | call => "call"
  | callvirt => "callvirt"
  | newobj => "newobj"
  | ldftn => "ldftn"
  | ldvirtftn => "ldvirtftn"
  | box => "box"
  | unboxAny => "unbox.any"
  | castclass => "castclass"
  | isinst => "isinst"
  | initobj => "initobj"
  | newarr => "newarr"
  | ldlen => "ldlen"
  | ldelem => "ldelem"
  | stelem => "stelem"
  | throw => "throw"
  | endfinally => "endfinally"

/-- The operation of a mnemonic. -/
def ofName? (text : String) : Option OpCode := all.find? fun op => op.name == text

/-- The stack effect, where it does not depend on the operand or the method. -/
def fixedEffect? : OpCode → Option StackEffect
  | nop | br | leave | endfinally => some ⟨0, 0⟩
  | pop | starg | stloc | stsfld | brtrue | brfalse | switch | initobj | throw => some ⟨1, 0⟩
  | dup => some ⟨1, 2⟩
  | ldnull | ldcI4 | ldcI8 | ldcR8 | ldstr | ldarg | ldarga | ldloc | ldloca | ldsfld | ldsflda
  | ldftn => some ⟨0, 1⟩
  | ldfld | ldflda | ldind | ldobj | neg | not | convI4 | convI8 | convR8 | ldvirtftn | box
  | unboxAny | castclass | isinst | newarr | ldlen => some ⟨1, 1⟩
  | stfld | stind | stobj | beq | bneUn | blt | bge | bgt | ble => some ⟨2, 0⟩
  | add | sub | mul | div | rem | and | or | xor | shl | shr | ceq | cgt | clt | ldelem =>
    some ⟨2, 1⟩
  | stelem => some ⟨3, 0⟩
  | ret | call | callvirt | newobj => none

/-- Where control goes after the operation. -/
def flow : OpCode → FlowKind
  | br | leave => .branch
  | brtrue | brfalse | beq | bneUn | blt | bge | bgt | ble => .condBranch
  | switch => .switch
  | ret => .ret
  | throw | endfinally => .throw
  | _ => .next

/-- Whether control may go on to the instruction that follows. -/
def fallsThrough (op : OpCode) : Bool :=
  match op.flow with
  | .next | .condBranch | .switch => true
  | .branch | .ret | .throw => false

/-- Whether control may go to a target that the operand names. -/
def isBranch (op : OpCode) : Bool :=
  match op.flow with
  | .branch | .condBranch | .switch => true
  | .next | .ret | .throw => false

/-- Whether the operation calls the method that the operand names. -/
def isCall : OpCode → Bool
  | call | callvirt | newobj => true
  | _ => false

/-- Whether the operation accesses a static field. -/
def isStaticFieldAccess : OpCode → Bool
  | ldsfld | ldsflda | stsfld => true
  | _ => false

/-- Whether the operation accesses an argument. -/
def isArgAccess : OpCode → Bool
  | ldarg | ldarga | starg => true
  | _ => false

/-- Whether the operation accesses a local variable. -/
def isLocalAccess : OpCode → Bool
  | ldloc | ldloca | stloc => true
  | _ => false

/-- The access to an instance field that does what a static field access does. -/
def toInstanceAccess? : OpCode → Option OpCode
  | ldsfld => some ldfld
  | ldsflda => some ldflda
  | stsfld => some stfld
  | _ => none

end OpCode

end ContextBinding
