import ContextBinding.Id

/-!
# Call sites

One way in which a method reaches another one.
-/

namespace ContextBinding

/-- How a caller reaches a callee. -/
inductive CallMode where
  /-- A call or construction names the callee. -/
  | direct
  /-- A virtual call may be dispatched to the callee. -/
  | inheritance
  /-- The callee is made into a callable, or called through one. -/
  | capture
  deriving DecidableEq, Repr

namespace CallMode

/-- Direct calls come first, captures last. -/
def rank : CallMode → Nat
  | direct => 0
  | inheritance => 1
  | capture => 2

instance : Ord CallMode := ⟨fun a b => compare a.rank b.rank⟩

protected def toString : CallMode → String
  | direct => "direct"
  | inheritance => "inheritance"
  | capture => "capture"

instance : ToString CallMode := ⟨CallMode.toString⟩

end CallMode

/-- An instruction by which a caller reaches a callee. -/
structure CallSite where
  caller : MethodId
  instr : InstrId
  callee : MethodId
  mode : CallMode
  deriving DecidableEq, Repr

namespace CallSite

protected def toString (s : CallSite) : String :=
  s!"{s.caller} -> {s.callee} at {s.instr} ({s.mode})"

instance : ToString CallSite := ⟨CallSite.toString⟩

end CallSite

end ContextBinding
