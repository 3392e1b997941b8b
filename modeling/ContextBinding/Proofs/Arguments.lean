import ContextBinding.Proofs.Clone

/-! Which argument an index denotes in a method and in a copy of it. A copy may have a receiver and
a parameter that the method does not have. Its code is renumbered, so that what denoted an argument
of the method denotes the same one in the copy, and nothing denotes what was added. -/

namespace ContextBinding

/-- An argument of a method, by the part that it plays. -/
inductive ArgSlot where
  | receiver
  | param (k : Nat)
  deriving DecidableEq, Repr

/-- The argument index that an instruction accesses. -/
def Instruction.argAccess? (i : Instruction) : Option Nat :=
  if i.opcode.isArgAccess then i.arg? else none

namespace MethodDef

/-- The arguments in the order of their indexes. -/
def slots (m : MethodDef) : List ArgSlot :=
  (if m.isStatic then [] else [.receiver]) ++ (List.range m.params.length).map .param

/-- The argument that an index denotes. -/
def slot? (m : MethodDef) (index : Nat) : Option ArgSlot := m.slots[index]?

/-- The parameter that an argument is. -/
def slotParam? (m : MethodDef) : ArgSlot → Option Param
  | .receiver => none
  | .param k => m.params[k]?

theorem slot?_eq (m : MethodDef) (index : Nat) : m.slot? index =
    if index < m.thisOffset then some .receiver
    else if index < m.argCount then some (.param (index - m.thisOffset)) else none := by
  have hRange (k : Nat) : ((List.range m.params.length).map ArgSlot.param)[k]?
      = if k < m.params.length then some (.param k) else none := by
    by_cases h : k < m.params.length <;> simp [h]
  unfold slot? slots argCount thisOffset
  cases m.isStatic with
  | true => simpa using hRange index
  | false =>
      cases index with
      | zero => simp
      | succ k => simpa using hRange k

/-- The type of an argument is that of the receiver or of the parameter that its index denotes. -/
theorem argType?_eq (m : MethodDef) (index : Nat) (receiver : TypeRef) :
    m.argType? index receiver = (m.slot? index).bind fun slot =>
      if slot = .receiver then some receiver else (m.slotParam? slot).map (·.type) := by
  rw [slot?_eq]
  unfold argType? argCount thisOffset paramTypes
  cases m.isStatic with
  | true => by_cases h : index < m.params.length <;> simp [slotParam?, h]
  | false =>
      cases index with
      | zero => simp
      | succ k => by_cases h : k < m.params.length <;> simp [slotParam?, h]

end MethodDef

namespace MethodShape

variable {shape : MethodShape} {m : MethodDef} {owner : TypeId} {name : String}

/-- A copy of `m` in this shape. -/
def copy (shape : MethodShape) (m : MethodDef) (owner : TypeId) (name : String) : MethodDef :=
  ⟨owner, name, shape.copyParams m, m.returnType, shape.copyFlags m, m.overrides, shape.copyBody m⟩

/-- What an argument of a method is among the arguments of a copy. -/
def place (shape : MethodShape) : ArgSlot → ArgSlot
  | .receiver => .receiver
  | .param k => .param (k + shape.leading.toList.length)

/-- A copy of `m` has the argument, and `m` does not. -/
def Adds (shape : MethodShape) (m : MethodDef) : ArgSlot → Prop
  | .receiver => shape.addsReceiver m = true
  | .param k => k < shape.leading.toList.length

/-- What an argument index of `m` becomes in a copy. -/
def renumber (shape : MethodShape) (m : MethodDef) (index : Nat) : Nat :=
  if m.thisOffset ≤ index then index + shape.addedArgs m else index

theorem copy_isStatic :
    (shape.copy m owner name).isStatic = (m.isStatic && !shape.makeInstance) := by
  have hRetired : (m.flags.erase .retired).has .static = m.flags.has .static := by
    have hBit : Flag.bit MethodFlag.retired ≠ Flag.bit MethodFlag.static := by decide
    simp [FlagSet.has_erase, hBit]
  unfold MethodDef.isStatic copy copyFlags addsReceiver MethodDef.isStatic
  dsimp only
  split
  · rename_i hAdds
    simp only [Bool.and_eq_true] at hAdds
    simp [FlagSet.has_erase, hAdds.1]
  · rename_i hKept
    cases hMake : shape.makeInstance <;> simp_all

/-- A static method gains a receiver if it becomes an instance method. -/
theorem copy_thisOffset : (shape.copy m owner name).thisOffset
    = m.thisOffset + if shape.addsReceiver m then 1 else 0 := by
  unfold MethodDef.thisOffset addsReceiver
  rw [copy_isStatic]
  cases m.isStatic <;> cases shape.makeInstance <;> rfl

theorem copy_argCount :
    (shape.copy m owner name).argCount = m.argCount + shape.addedArgs m := by
  unfold MethodDef.argCount addedArgs
  rw [copy_thisOffset]
  simp only [copy, copyParams, List.length_append]
  omega

/-- Parameters move with their names and types. -/
theorem copy_slotParam? (slot : ArgSlot) :
    (shape.copy m owner name).slotParam? (shape.place slot) = m.slotParam? slot := by
  cases slot with
  | receiver => rfl
  | param k =>
      change (shape.leading.toList ++ m.params)[k + shape.leading.toList.length]? = m.params[k]?
      rw [List.getElem?_append_right (Nat.le_add_left ..), Nat.add_sub_cancel]

/-- A renumbered index denotes in the copy what the index denotes in the method. -/
theorem copy_slot? (index : Nat) : (shape.copy m owner name).slot? (shape.renumber m index)
    = (m.slot? index).map shape.place := by
  rw [MethodDef.slot?_eq, MethodDef.slot?_eq, copy_thisOffset, copy_argCount, renumber]
  by_cases hParam : m.thisOffset ≤ index
  · have hAhead : ¬ index + shape.addedArgs m
        < m.thisOffset + if shape.addsReceiver m then 1 else 0 := by
      unfold addedArgs
      omega
    have hPlace : index + shape.addedArgs m - (m.thisOffset + if shape.addsReceiver m then 1 else 0)
        = index - m.thisOffset + shape.leading.toList.length := by
      unfold addedArgs
      omega
    rw [if_pos hParam, if_neg hAhead, if_neg (Nat.not_lt.mpr hParam), hPlace]
    simp only [Nat.add_lt_add_iff_right]
    split <;> rfl
  · -- Only the receiver of an instance method stands ahead of the parameters.
    have hReceiver : index < m.thisOffset := Nat.lt_of_not_le hParam
    rw [if_neg hParam, if_pos hReceiver, if_pos (Nat.lt_add_right _ hReceiver)]
    rfl

/-- A renumbered index has the type that the index has in the method. -/
theorem copy_argType? (index : Nat) (receiver : TypeRef) :
    (shape.copy m owner name).argType? (shape.renumber m index) receiver
      = m.argType? index receiver := by
  rw [MethodDef.argType?_eq, MethodDef.argType?_eq, copy_slot?]
  cases m.slot? index with
  | none => rfl
  | some slot =>
      simp only [Option.map_some, Option.bind_some, copy_slotParam?]
      cases slot <;> simp [place]

/-- What an argument of the method becomes was not added. -/
theorem not_adds_place {index : Nat} {slot : ArgSlot} (h : m.slot? index = some slot) :
    ¬ shape.Adds m (shape.place slot) := by
  cases slot with
  | receiver =>
      have hInstance : m.isStatic = false := by
        by_contra hStatic
        rw [MethodDef.slot?_eq] at h
        simp [MethodDef.thisOffset, hStatic] at h
      simp [Adds, place, addsReceiver, hInstance]
  | param k => exact Nat.not_lt.mpr (Nat.le_add_left ..)

/-- An instruction of a method `m` and the one in its place in a copy `m'`. They differ at most in
the index of an argument, and this denotes the same argument, of the same type. -/
structure KeepsAccess (shape : MethodShape) (m m' : MethodDef) (i i' : Instruction) : Prop where
  id : i'.id = i.id
  opcode : i'.opcode = i.opcode
  operand : i.argAccess? = none → i'.operand = i.operand
  access : ∀ index, i.argAccess? = some index →
    ∃ index', i'.operand = .arg index' ∧ m'.slot? index' = (m.slot? index).map shape.place ∧
      ∀ receiver, m'.argType? index' receiver = m.argType? index receiver

/-- The code of a method `m` and that of a copy `m'`, which accesses no argument that was added. -/
structure KeepsCode (shape : MethodShape) (m m' : MethodDef) (b b' : MethodBody) : Prop where
  locals : b'.locals = b.locals
  handlers : b'.handlers = b.handlers
  instructions : List.Forall₂ (shape.KeepsAccess m m') b.instructions b'.instructions
  spares : ∀ i ∈ b'.instructions, ∀ index slot,
    i.argAccess? = some index → m'.slot? index = some slot → ¬ shape.Adds m slot

end MethodShape

namespace MethodBody

variable {first amount index : Nat} {i : Instruction}

theorem shiftArgument_of_none (h : i.argAccess? = none) : shiftArgument first amount i = i := by
  unfold shiftArgument
  split
  · rename_i hOperand
    have hOther : i.opcode.isArgAccess = false := by
      simpa [Instruction.argAccess?, Instruction.arg?, hOperand] using h
    simp [hOther]
  · rfl

theorem shiftArgument_of_access (h : i.argAccess? = some index) : shiftArgument first amount i
    = { i with operand := .arg (if first ≤ index then index + amount else index) } := by
  obtain ⟨hOpcode, hArg⟩ := Option.ite_none_right_eq_some.mp h
  obtain ⟨id, opcode, operand⟩ := i
  unfold Instruction.arg? at hArg
  split at hArg
  · rename_i hOperand
    obtain rfl : operand = .arg index := hOperand.trans (congrArg _ (Option.some_inj.mp hArg))
    unfold shiftArgument
    simp only [hOpcode, Bool.true_and, decide_eq_true_eq]
    split <;> rfl
  · cases hArg

theorem shiftArgument_zero (first : Nat) : shiftArgument first 0 = id := by
  funext i
  unfold shiftArgument
  split
  · rename_i hOperand
    simp [← hOperand]
  · rfl

theorem shiftArguments_instructions (b : MethodBody) (first amount : Nat) :
    (b.shiftArguments first amount).instructions
      = b.instructions.map (shiftArgument first amount) := by
  unfold shiftArguments
  split
  · rename_i hNone
    rw [hNone, shiftArgument_zero, List.map_id]
  · rfl

end MethodBody

namespace MethodShape

variable {shape : MethodShape} {m : MethodDef} {owner : TypeId} {name : String}

/-- One instruction is copied. -/
theorem keepsAccess_shiftArgument (i : Instruction) :
    shape.KeepsAccess m (shape.copy m owner name) i
      (MethodBody.shiftArgument m.thisOffset (shape.addedArgs m) i) := by
  cases h : i.argAccess? with
  | none =>
      rw [MethodBody.shiftArgument_of_none h]
      exact ⟨rfl, rfl, fun _ => rfl, fun _ hAccess => (nomatch h.symm.trans hAccess)⟩
  | some index =>
      rw [MethodBody.shiftArgument_of_access h]
      refine ⟨rfl, rfl, fun hNone => (nomatch h.symm.trans hNone), fun other hAccess => ?_⟩
      obtain rfl := Option.some_inj.mp (h.symm.trans hAccess)
      exact ⟨shape.renumber m index, rfl, copy_slot? index, copy_argType? index⟩

/-- An access of the copy goes back to one of the method, so it denotes nothing that was added. -/
theorem KeepsAccess.spares {m' : MethodDef} {i i' : Instruction}
    (h : shape.KeepsAccess m m' i i') {index : Nat} {slot : ArgSlot}
    (hAccess : i'.argAccess? = some index) (hSlot : m'.slot? index = some slot) :
    ¬ shape.Adds m slot := by
  have hBefore : ∃ before, i.argAccess? = some before := by
    refine Option.ne_none_iff_exists'.mp fun hNone => ?_
    have hSame : i'.argAccess? = i.argAccess? := by
      unfold Instruction.argAccess? Instruction.arg?
      rw [h.opcode, h.operand hNone]
    cases hAccess.symm.trans (hSame.trans hNone)
  obtain ⟨before, hBefore⟩ := hBefore
  obtain ⟨index', hOperand, hMoved, -⟩ := h.access before hBefore
  have hIndex : index' = index := by
    obtain ⟨-, hArg⟩ := Option.ite_none_right_eq_some.mp hAccess
    simpa [Instruction.arg?, hOperand] using hArg
  rw [hIndex, hSlot] at hMoved
  obtain ⟨old, hOld, rfl⟩ := Option.map_eq_some_iff.mp hMoved.symm
  exact not_adds_place hOld

theorem keepsCode_shiftArguments (b : MethodBody) : shape.KeepsCode m (shape.copy m owner name) b
    (b.shiftArguments m.thisOffset (shape.addedArgs m)) := by
  have hInstructions : List.Forall₂ (shape.KeepsAccess m (shape.copy m owner name)) b.instructions
      (b.shiftArguments m.thisOffset (shape.addedArgs m)).instructions := by
    rw [MethodBody.shiftArguments_instructions, List.forall₂_map_right_iff]
    exact List.forall₂_same.mpr fun i _ => keepsAccess_shiftArgument i
  refine ⟨?_, ?_, hInstructions, fun i' hMem index slot hAccess hSlot => ?_⟩
  · unfold MethodBody.shiftArguments
    split <;> rfl
  · unfold MethodBody.shiftArguments
    split <;> rfl
  · obtain ⟨n, hLess, rfl⟩ := List.getElem_of_mem hMem
    have hThere : n < b.instructions.length := hInstructions.length_eq ▸ hLess
    exact (hInstructions.get hThere hLess).spares hAccess hSlot

end MethodShape

namespace Program

/-- A copy of a method accesses its own receiver and the same parameters where the method does, and
nothing that was added. Else its code is that of the method. -/
theorem cloneMethod_accesses {p q : Program} {id copy : MethodId} {owner : TypeId} {name : String}
    {shape : MethodShape} (h : cloneMethod id owner name shape p = .ok copy q) :
    ∃ m m', p.method? id = some m ∧ q.method? copy = some m' ∧ m'.owner = owner ∧
      m'.isStatic = (m.isStatic && !shape.makeInstance) ∧
      m'.params = shape.leading.toList ++ m.params ∧ m'.returnType = m.returnType ∧
      m'.overrides = m.overrides ∧
      (∀ slot, m'.slotParam? (shape.place slot) = m.slotParam? slot) ∧
      Option.Rel (shape.KeepsCode m m') m.body m'.body := by
  obtain ⟨m, hMethod, rfl, -, -, hMethods⟩ := cloneMethod_ok h
  have hCopy : q.method? ⟨p.methods.length⟩ = some (shape.copy m owner name) := by
    rw [method?, hMethods]
    exact List.getElem?_concat_length
  refine ⟨m, shape.copy m owner name, hMethod, hCopy, rfl, MethodShape.copy_isStatic, rfl, rfl, rfl,
    MethodShape.copy_slotParam?, ?_⟩
  change Option.Rel _ m.body (shape.copyBody m)
  unfold MethodShape.copyBody
  cases m.body with
  | none => exact .none
  | some b => exact .some (MethodShape.keepsCode_shiftArguments b)

end Program

section Examples

open Program

/-- A static method that loads its first parameter and stores it in the second one. -/
def assigning : Edit ContextPlan := do
  let root ← addType "G" "Root" none ⟨0⟩
  let holder ← addType "G" "H" none ⟨0⟩
  let _ ← addType "G" "H_Ctx" none ⟨0⟩
  let set ← addMethod holder "Set" [⟨"a", .int32⟩, ⟨"b", .int32⟩] .void (.ofList [.static])
  setBody set (.fresh [.onArg .ldarg 0, .onArg .starg 1, .plain .ret])
  pure (.bare root set)

/-- The copy has a receiver and the root ahead of the parameters. -/
theorem assigning_accesses :
    ∃ q, cloneMethod ⟨0⟩ ⟨2⟩ "Set" ⟨true, some ⟨"root", .named ⟨0⟩⟩⟩ (built assigning).1
        = .ok ⟨1⟩ q ∧
      (∃ m m', (built assigning).1.method? ⟨0⟩ = some m ∧ q.method? ⟨1⟩ = some m' ∧
        m'.owner = ⟨2⟩ ∧ m'.isStatic = (m.isStatic && !true) ∧
        m'.params = [⟨"root", .named ⟨0⟩⟩] ++ m.params ∧ m'.returnType = m.returnType ∧
        m'.overrides = m.overrides ∧
        (∀ slot, m'.slotParam? (MethodShape.place ⟨true, some ⟨"root", .named ⟨0⟩⟩⟩ slot)
          = m.slotParam? slot) ∧
        Option.Rel (MethodShape.KeepsCode ⟨true, some ⟨"root", .named ⟨0⟩⟩⟩ m m') m.body m'.body) ∧
      ∃ m' ∈ q.method? ⟨1⟩, m'.slots = [.receiver, .param 0, .param 1, .param 2] ∧
        ∃ b ∈ m'.body, b.instructions.map (·.operand) = [.arg 2, .arg 3, .none] := by
  have hCheck : Step.yields
      (cloneMethod ⟨0⟩ ⟨2⟩ "Set" ⟨true, some ⟨"root", .named ⟨0⟩⟩⟩ (built assigning).1)
      (fun copy q => decide (copy = ⟨1⟩ ∧ ∃ m' ∈ q.method? ⟨1⟩,
        m'.slots = [.receiver, .param 0, .param 1, .param 2] ∧
        ∃ b ∈ m'.body, b.instructions.map (·.operand) = [.arg 2, .arg 3, .none])) = true := by
    decide +kernel
  obtain ⟨copy, q, hClone, hCheck⟩ := Step.ok_of_yields hCheck
  obtain ⟨rfl, hCode⟩ := of_decide_eq_true hCheck
  exact ⟨q, hClone, cloneMethod_accesses hClone, hCode⟩

end Examples

end ContextBinding
