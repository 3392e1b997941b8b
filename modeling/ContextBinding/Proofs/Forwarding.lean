import ContextBinding.Program.StackEffect
import ContextBinding.Proofs.Clone

/-! What the methods of a capture record do. Their code is straight, so that it can be run on values
that are known only by where they come from. -/

namespace ContextBinding

/-- A value of straight code, by where it comes from. -/
inductive Datum where
  | argument (index : Nat)
  /-- What a field of an object holds. -/
  | content (field : FieldId) (object : Datum)
  /-- Where a field of an object is. -/
  | address (field : FieldId) (object : Datum)
  /-- What a call returned; calls are counted from the first one. -/
  | result (call : Nat)
  deriving DecidableEq, Repr

/-- What is on the stack, the top first, and what was called with which arguments. -/
structure Activation where
  stack : List Datum
  calls : List (MethodId × List Datum)
  deriving DecidableEq, Repr

/-- What a call of the method leaves on the stack. -/
def MethodDef.results (m : MethodDef) (call : Nat) : List Datum :=
  if m.returnsValue then [.result call] else []

theorem MethodDef.results_length (m : MethodDef) (call : Nat) :
    (m.results call).length = m.resultCount := by
  unfold results resultCount
  split <;> rfl

namespace Activation

/-- Nothing is on the stack, and nothing was called. -/
def start : Activation := ⟨[], []⟩

/-- Put values on the stack, one after the other. -/
def push (a : Activation) (values : List Datum) : Activation :=
  { a with stack := values.reverse ++ a.stack }

variable (p : Program)

/-- Call a method with what is on the stack. -/
def call (callee : MethodId) (a : Activation) : Option Activation := do
  let m ← p.method? callee
  if m.argCount ≤ a.stack.length then
    some ⟨m.results a.calls.length ++ a.stack.drop m.argCount,
      a.calls ++ [(callee, (a.stack.take m.argCount).reverse)]⟩
  else none

/-- Run one instruction of a method with `arity` arguments. -/
def step (arity : Nat) (i : Instruction) (a : Activation) : Option Activation :=
  match i.opcode, i.operand, a.stack with
  | .ldarg, .arg index, _ => if index < arity then some (a.push [.argument index]) else none
  | .ldfld, .field field, object :: stack => some { a with stack := .content field object :: stack }
  | .ldflda, .field field, object :: stack =>
    some { a with stack := .address field object :: stack }
  | .call, .method callee, _ | .callvirt, .method callee, _ => a.call p callee
  | _, _, _ => none

/-- Run straight code up to its return. -/
def toReturn (arity : Nat) : List Instruction → Activation → Option Activation
  | [], _ => none
  | i :: code, a => if i.opcode = .ret then some a else (a.step p arity i).bind (toReturn arity code)

variable {p} {arity : Nat}

/-- An instruction that can be run takes and leaves as many values as its stack effect says. -/
theorem step_effect {i : Instruction} {a a' : Activation} (method : MethodId)
    (h : a.step p arity i = some a') :
    ∃ effect, p.stackEffect method i = .ok effect ∧ effect.pops ≤ a.stack.length ∧
      a'.stack.length + effect.pops = a.stack.length + effect.pushes := by
  have hCall {callee : MethodId} (hMethod : i.method? = some callee)
      (hFixed : i.opcode.fixedEffect? = none) (hRet : i.opcode ≠ .ret) (hNew : i.opcode ≠ .newobj)
      (hRun : a.call p callee = some a') : ∃ effect, p.stackEffect method i = .ok effect ∧
        effect.pops ≤ a.stack.length ∧
        a'.stack.length + effect.pops = a.stack.length + effect.pushes := by
    obtain ⟨m, hCallee, hRun⟩ := Option.bind_eq_some_iff.mp hRun
    rw [Option.ite_none_right_eq_some] at hRun
    obtain ⟨hEnough, hAfter⟩ := hRun
    refine ⟨m.callEffect, by simp [Program.stackEffect, hFixed, hMethod, hCallee], hEnough, ?_⟩
    obtain rfl := Option.some_inj.mp hAfter
    simp only [List.length_append, MethodDef.results_length, List.length_drop,
      MethodDef.callEffect]
    omega
  unfold step at h
  split at h
  · rename_i hOp hOperand
    rw [Option.ite_none_right_eq_some] at h
    obtain rfl := Option.some_inj.mp h.2
    exact ⟨⟨0, 1⟩, by simp [Program.stackEffect, hOp, OpCode.fixedEffect?], Nat.zero_le _,
      by simp [push]⟩
  · rename_i hOp hOperand hStack
    obtain rfl := Option.some_inj.mp h
    exact ⟨⟨1, 1⟩, by simp [Program.stackEffect, hOp, OpCode.fixedEffect?], by simp [hStack],
      by simp [hStack]⟩
  · rename_i hOp hOperand hStack
    obtain rfl := Option.some_inj.mp h
    exact ⟨⟨1, 1⟩, by simp [Program.stackEffect, hOp, OpCode.fixedEffect?], by simp [hStack],
      by simp [hStack]⟩
  · rename_i hOp hOperand
    exact hCall (by simp [Instruction.method?, hOperand]) (by rw [hOp]; rfl) (by simp [hOp])
      (by simp [hOp]) h
  · rename_i hOp hOperand
    exact hCall (by simp [Instruction.method?, hOperand]) (by rw [hOp]; rfl) (by simp [hOp])
      (by simp [hOp]) h
  · cases h

theorem push_append (a : Activation) (values values' : List Datum) :
    a.push (values ++ values') = (a.push values).push values' := by
  simp [push]

/-- A call takes what was put on the stack for it. -/
theorem call_push {callee : MethodId} {m : MethodDef} {values : List Datum}
    (hCallee : p.method? callee = some m) (hCount : values.length = m.argCount) (a : Activation) :
    (a.push values).call p callee
      = some ⟨m.results a.calls.length ++ a.stack, a.calls ++ [(callee, values)]⟩ := by
  have hTake : ((a.push values).stack.take m.argCount).reverse = values := by
    rw [← hCount, ← List.length_reverse]
    exact (congrArg List.reverse List.take_left).trans (List.reverse_reverse _)
  have hDrop : (a.push values).stack.drop m.argCount = a.stack := by
    rw [← hCount, ← List.length_reverse]
    exact List.drop_left
  have hEnough : m.argCount ≤ (a.push values).stack.length := by simp [push, hCount]
  unfold call
  rw [hCallee]
  change (if _ then _ else _) = _
  rw [if_pos hEnough, hTake, hDrop]
  rfl

/-- Code after which the given values are on the stack, in the order in which they came there. -/
def Puts (p : Program) (arity : Nat) (code : List Instruction) (values : List Datum) : Prop :=
  ∀ rest a, toReturn p arity (code ++ rest) a = toReturn p arity rest (a.push values)

theorem Puts.nil : Puts p arity [] [] := fun _ _ => rfl

theorem Puts.append {code code' : List Instruction} {values values' : List Datum}
    (h : Puts p arity code values) (h' : Puts p arity code' values') :
    Puts p arity (code ++ code') (values ++ values') := by
  intro rest a
  rw [List.append_assoc, h, h', push_append]

theorem Puts.argument {index : Nat} (h : index < arity) :
    Puts p arity [.onArg .ldarg index] [.argument index] := by
  intro rest a
  change (if index < arity then some (a.push [.argument index]) else none).bind _ = _
  rw [if_pos h]
  rfl

/-- A field of the object that a method was called on. -/
theorem Puts.content (field : FieldId) (h : 0 < arity) :
    Puts p arity [.onArg .ldarg 0, .onField .ldfld field] [.content field (.argument 0)] := by
  intro rest a
  exact Puts.argument h _ a

/-- The address of a field of the object that a method was called on. -/
theorem Puts.address (field : FieldId) (h : 0 < arity) :
    Puts p arity [.onArg .ldarg 0, .onField .ldflda field] [.address field (.argument 0)] := by
  intro rest a
  exact Puts.argument h _ a

/-- The arguments after the first one, in their order. -/
theorem Puts.arguments (count : Nat) (h : count < arity) :
    Puts p arity ((List.range count).map fun k => Instruction.onArg .ldarg (k + 1))
      ((List.range count).map fun k => .argument (k + 1)) := by
  induction count with
  | zero => exact .nil
  | succ count ih =>
      simp only [List.range_succ, List.map_append, List.map_cons, List.map_nil]
      exact (ih (by omega)).append (.argument h)

/-- A run does not go by the numbers of the instructions. -/
theorem toReturn_number (first : Nat) (code : List Instruction) (a : Activation) :
    toReturn p arity (MethodBody.number first code) a = toReturn p arity code a := by
  induction code generalizing first a with
  | nil => rfl
  | cons i code ih =>
      rw [MethodBody.number, toReturn, toReturn, funext (ih (first + 1))]
      rfl

end Activation

namespace CaptureRecord

open Activation (Puts toReturn start)

/-- The stored receiver as a method of the record finds it: by its address if it is a value. -/
def receiver? (r : CaptureRecord) (p : Program) : Option Datum :=
  match r.receiverField, r.key.receiver with
  | some field, some type =>
    if p.isValueType (.named type) then some (.address field (.argument 0))
    else some (.content field (.argument 0))
  | _, _ => none

/-- The stored root and the parameters of a method of the record, in their order. -/
def rootAndParams (r : CaptureRecord) (count : Nat) : List Datum :=
  .content r.rootField (.argument 0) :: (List.range count).map fun k => .argument (k + 1)

/-- What a forwarding method with `count` parameters hands on. -/
def handed (r : CaptureRecord) (p : Program) (count : Nat) : List Datum :=
  (r.receiver? p).toList ++ r.rootAndParams count

/-- What the stand-in of a method should be handed: the stored receiver if the method is called on
one, the stored root, and the parameters. -/
def due? (r : CaptureRecord) (p : Program) (source : MethodDef) (count : Nat) :
    Option (List Datum) :=
  if source.isStatic then some (r.rootAndParams count)
  else (r.receiver? p).map (· :: r.rootAndParams count)

/-- The method `forward` of the record hands to `replacement` all that it takes, and nothing else:
what stands in for `original` should be handed. In the end there is on the stack what `replacement`
returned. -/
def Forwards (r : CaptureRecord) (p : Program) (original replacement forward : MethodId) : Prop :=
  ∃ source ∈ p.method? original, ∃ target ∈ p.method? replacement, ∃ m ∈ p.method? forward,
    ∃ b ∈ m.body, ∃ values ∈ r.due? p source m.params.length, values.length = target.argCount ∧
      toReturn p m.argCount b.instructions start
        = some ⟨target.results 0, [(replacement, values)]⟩

instance (r : CaptureRecord) (p : Program) (original replacement forward : MethodId) :
    Decidable (r.Forwards p original replacement forward) := by
  unfold Forwards
  infer_instance

variable {r : CaptureRecord} {p q : Program} {arity : Nat}

theorem puts_loadReceiver (h : 0 < arity) :
    Puts p arity (r.loadReceiver q) (r.receiver? q).toList := by
  unfold loadReceiver receiver?
  cases r.receiverField with
  | none => exact .nil
  | some field =>
      cases r.key.receiver with
      | none => exact .nil
      | some type =>
          cases hValue : q.isValueType (.named type) with
          | false => simpa [hValue] using Puts.content field h
          | true => simpa [hValue] using Puts.address field h

/-- Forwarding code comes to its call with what is stored and the parameters on the stack, in this
order. -/
theorem toReturn_forwardingCode {target : MethodDef} {replacement : MethodId} {count : Nat}
    (h : count < arity) :
    toReturn p arity (r.forwardingCode q target replacement count) start
      = (start.push (r.handed q count)).call p replacement := by
  have hPuts : Puts p arity _ (r.handed q count) :=
    (puts_loadReceiver (Nat.zero_lt_of_lt h)).append
      ((Puts.content r.rootField (Nat.zero_lt_of_lt h)).append (.arguments count h))
  unfold forwardingCode
  rw [List.append_assoc (r.loadReceiver q), hPuts]
  cases target.isVirtual <;> exact Option.bind_fun_some _

theorem rootAndParams_length (r : CaptureRecord) (count : Nat) :
    (r.rootAndParams count).length = count + 1 := by
  simp [rootAndParams]

theorem Shaped.receiver? (h : r.Shaped) (p : Program) :
    (r.receiver? p).isSome = r.key.receiver.isSome := by
  unfold Shaped at h
  unfold CaptureRecord.receiver?
  cases hField : r.receiverField <;> cases hType : r.key.receiver <;> rw [hField, hType] at h
  · rfl
  · cases h
  · cases h
  · dsimp only
    split <;> rfl

/-- Forwarding is right where the record stores a receiver for a method that is called on one, and
none for a static method. A receiver that is stored for a static method is left on the stack, under
what the stand-in returned; one that is missing is missing in the call. -/
theorem forwards_iff {original replacement forward : MethodId}
    {source target called m : MethodDef} (hShaped : r.Shaped)
    (hSource : p.method? original = some source) (hTarget : p.method? replacement = some target)
    (hForward : p.method? forward = some m) (hInstance : m.isStatic = false)
    (hBody : m.body = some (.fresh (r.forwardingCode q called replacement m.params.length)))
    (hReceiver : r.receiver? q = r.receiver? p)
    (hLength : target.params.length = m.params.length + 1)
    (hStatic : target.isStatic = source.isStatic) :
    r.Forwards p original replacement forward ↔
      (r.key.receiver.isSome = true ↔ source.isStatic = false) := by
  let values := r.rootAndParams m.params.length
  have hRun : toReturn p m.argCount (MethodBody.fresh
      (r.forwardingCode q called replacement m.params.length)).instructions start
        = ((start.push (r.receiver? p).toList).push values).call p replacement := by
    have hCode (code : List Instruction) :
        (MethodBody.fresh code).instructions = MethodBody.number 0 code := by
      simp [MethodBody.fresh, MethodBody.splice, MethodBody.empty]
    have hArity : m.params.length < m.argCount := by
      simp [MethodDef.argCount, MethodDef.thisOffset, hInstance]
    rw [hCode, Activation.toReturn_number, toReturn_forwardingCode hArity, handed, hReceiver,
      Activation.push_append]
  have hForwards : r.Forwards p original replacement forward ↔
      ∃ due ∈ r.due? p source m.params.length, due.length = target.argCount ∧
        ((start.push (r.receiver? p).toList).push values).call p replacement
          = some ⟨target.results 0, [(replacement, due)]⟩ := by
    unfold Forwards
    simp [hSource, hTarget, hForward, hBody, hRun]
  have hValues : values.length = m.params.length + 1 := rootAndParams_length r _
  rw [hForwards, ← hShaped.receiver? p]
  cases hKind : source.isStatic with
  | true =>
      have hCount : values.length = target.argCount := by
        rw [hKind] at hStatic
        simp [MethodDef.argCount, MethodDef.thisOffset, hStatic, hLength, hValues]
      rw [due?, hKind, if_pos rfl, Activation.call_push hTarget hCount]
      cases r.receiver? p with
      | none => simpa [values, start, Activation.push] using hCount
      | some receiver => simp [start, Activation.push]
  | false =>
      rw [due?, hKind, if_neg Bool.false_ne_true]
      cases r.receiver? p with
      | none => simp
      | some receiver =>
          have hCount : (receiver :: values).length = target.argCount := by
            rw [hKind] at hStatic
            simp [MethodDef.argCount, MethodDef.thisOffset, hStatic, hLength, hValues]
          rw [← Activation.push_append, Option.toList_some, List.singleton_append,
            Activation.call_push hTarget hCount]
          simpa [values, start] using hCount

end CaptureRecord

end ContextBinding
