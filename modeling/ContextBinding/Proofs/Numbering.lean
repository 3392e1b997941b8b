import ContextBinding.Code.Body
import ContextBinding.Proofs.Step
import Mathlib.Data.List.Nodup
import Mathlib.Data.List.Perm.Basic

/-! What edits do to the instructions of a body. Numbers stay distinct, and each
 instruction after an edit either was there before or has one of the contents that
 the edit puts in. -/

namespace ContextBinding

/-- What an instruction does, up to constants, positions and jump targets. -/
def Instruction.gist (i : Instruction) : OpCode × Option FieldId × Option MethodId :=
  (i.opcode, i.field?, i.method?)

theorem Instruction.gist_retarget (i : Instruction) (source target : InstrId) :
    (i.retarget source target).gist = i.gist := by
  unfold retarget gist field? method? Operand.mapTargets
  cases i.operand <;> rfl

namespace MethodBody

/-- The numbers of the instructions are distinct, and below that of the next one. -/
structure Numbered (b : MethodBody) : Prop where
  distinct : (b.instructions.map (·.id)).Nodup
  below : ∀ i ∈ b.instructions, i.id.index < b.nextId

instance : DecidablePred Numbered := fun b =>
  decidable_of_iff ((b.instructions.map (·.id)).Nodup ∧ ∀ i ∈ b.instructions, i.id.index < b.nextId)
    ⟨fun h => ⟨h.1, h.2⟩, fun h => ⟨h.distinct, h.below⟩⟩

theorem mem_returns {b : MethodBody} {id : InstrId} :
    id ∈ b.returns ↔ ∃ i ∈ b.instructions, i.opcode = .ret ∧ i.id = id := by
  simp [returns, and_assoc]

section Number

variable {first : Nat} {seq : List Instruction}

theorem number_ids (first : Nat) (seq : List Instruction) :
    (number first seq).map (·.id) = (List.range' first seq.length).map InstrId.mk := by
  induction seq generalizing first with
  | nil => rfl
  | cons i seq ih => simp [number, ih, List.range'_succ]

theorem mem_number {i' : Instruction} (h : i' ∈ number first seq) :
    (∃ i ∈ seq, i'.gist = i.gist) ∧ first ≤ i'.id.index ∧ i'.id.index < first + seq.length := by
  induction seq generalizing first with
  | nil => exact (List.not_mem_nil h).elim
  | cons i seq ih =>
      rw [number, List.mem_cons] at h
      rw [List.length_cons]
      rcases h with rfl | h
      · exact ⟨⟨i, List.mem_cons_self .., rfl⟩, by simp, by simp⟩
      · obtain ⟨⟨j, hMem, hGist⟩, hFirst, hLast⟩ := ih h
        exact ⟨⟨j, List.mem_cons_of_mem _ hMem, hGist⟩, by omega, by omega⟩

/-- Numbered code is the same but for the numbers. -/
theorem mem_number_same {j : Instruction} (h : j ∈ number first seq) :
    ∃ i ∈ seq, j = { i with id := j.id } := by
  induction seq generalizing first with
  | nil => cases h
  | cons i seq ih =>
      rw [number, List.mem_cons] at h
      rcases h with rfl | h
      · exact ⟨i, List.mem_cons_self .., rfl⟩
      · obtain ⟨k, hk, hSame⟩ := ih h
        exact ⟨k, List.mem_cons_of_mem _ hk, hSame⟩

theorem exists_number (first : Nat) {i : Instruction} (h : i ∈ seq) :
    ∃ i' ∈ number first seq, i'.gist = i.gist := by
  induction seq generalizing first with
  | nil => exact (List.not_mem_nil h).elim
  | cons j seq ih =>
      rw [number]
      rcases List.mem_cons.mp h with rfl | h
      · exact ⟨_, List.mem_cons_self .., rfl⟩
      · obtain ⟨i', hMem, hGist⟩ := ih (first + 1) h
        exact ⟨i', List.mem_cons_of_mem _ hMem, hGist⟩

end Number

namespace Numbered

variable {b : MethodBody}

/-- Only the numbers of the instructions matter. -/
theorem of_ids {b' : MethodBody} (h : b.Numbered)
    (hIds : b'.instructions.map (·.id) = b.instructions.map (·.id)) (hNext : b.nextId ≤ b'.nextId) :
    b'.Numbered := by
  refine ⟨hIds ▸ h.distinct, fun i' hMem' => ?_⟩
  have hId : i'.id ∈ b.instructions.map (·.id) := hIds ▸ List.mem_map_of_mem hMem'
  obtain ⟨i, hMem, hSame⟩ := List.mem_map.mp hId
  rw [← hSame]
  exact Nat.lt_of_lt_of_le (h.below i hMem) hNext

theorem splice (h : b.Numbered) (position : Nat) (seq : List Instruction) :
    (b.splice position seq).Numbered := by
  have hPerm : (b.splice position seq).instructions.Perm (number b.nextId seq ++ b.instructions) := by
    change (b.instructions.take position ++ number b.nextId seq ++ b.instructions.drop position).Perm _
    rw [List.append_assoc]
    apply List.perm_append_comm_assoc .. |>.trans
    rw [List.take_append_drop]
  constructor
  · rw [(hPerm.map _).nodup_iff, List.map_append, List.nodup_append]
    refine ⟨?_, h.distinct, fun id hNew id' hOld => ?_⟩
    · rw [number_ids]
      exact (List.nodup_range' ..).map fun _ _ h => InstrId.mk.inj h
    · obtain ⟨i, hMem, rfl⟩ := List.mem_map.mp hNew
      obtain ⟨j, hMem', rfl⟩ := List.mem_map.mp hOld
      intro hSame
      have hBelow := h.below j hMem'
      have hAbove := (mem_number hMem).2.1
      rw [hSame] at hAbove
      omega
  · intro i hMem
    change i.id.index < b.nextId + seq.length
    rcases List.mem_append.mp (hPerm.mem_iff.mp hMem) with hNew | hOld
    · exact (mem_number hNew).2.2
    · exact Nat.lt_of_lt_of_le (h.below i hOld) (Nat.le_add_right ..)

/-- Two instructions of one body with the same number are the same. -/
theorem eq_of_id (h : b.Numbered) {i j : Instruction} (hi : i ∈ b.instructions)
    (hj : j ∈ b.instructions) (hId : i.id = j.id) : i = j :=
  List.inj_on_of_nodup_map h.distinct hi hj hId

end Numbered

theorem mem_of_get? {b : MethodBody} {id : InstrId} {i : Instruction} (h : b.get? id = some i) :
    i ∈ b.instructions ∧ i.id = id :=
  ⟨List.mem_of_find?_eq_some h, by simpa using List.find?_some h⟩

/-- In a numbered body, the number of an instruction leads to it. -/
theorem Numbered.get?_id {b : MethodBody} (h : b.Numbered) {i : Instruction}
    (hMem : i ∈ b.instructions) : b.get? i.id = some i := by
  cases hGet : b.get? i.id with
  | none => exact absurd (List.find?_eq_none.mp hGet i hMem) (by simp)
  | some j =>
      obtain ⟨hMem', hId⟩ := mem_of_get? hGet
      rw [h.eq_of_id hMem' hMem hId]

/-- A version of a body has a later revision if it is another one. -/
def Later (b b' : MethodBody) : Prop := b' = b ∨ b.revision < b'.revision

instance : IsPreorder MethodBody Later where
  refl _ := Or.inl rfl
  trans b b' b'' h h' := by
    rcases h' with rfl | h'
    · exact h
    · right
      rcases h with rfl | h
      · exact h'
      · exact Nat.lt_trans h h'

/-- A later body consists of instructions of the earlier one whose numbers are not
in `D`, and of instructions with contents in `N` under numbers in `D` or new ones. -/
structure Reworked (D : InstrId → Prop) (N : OpCode × Option FieldId × Option MethodId → Prop)
    (b b' : MethodBody) : Prop where
  numbered : b'.Numbered
  next : b.nextId ≤ b'.nextId
  code : ∀ i' ∈ b'.instructions,
    (∃ i ∈ b.instructions, i.id = i'.id ∧ i.gist = i'.gist ∧ ¬ D i.id) ∨
      N i'.gist ∧ (D i'.id ∨ b.nextId ≤ i'.id.index)

/-- Numbered code is reworked. -/
def Reworks (D : InstrId → Prop) (N : OpCode × Option FieldId × Option MethodId → Prop)
    (b b' : MethodBody) : Prop :=
  b.Numbered → Reworked D N b b' ∧ b.Later b'

/-- Numbered code stays so, and its revision tells whether it was changed. -/
def Revises (b b' : MethodBody) : Prop := b.Numbered → b'.Numbered ∧ b.Later b'

instance : IsPreorder MethodBody Revises where
  refl b h := ⟨h, refl b⟩
  trans _ _ _ h h' hNumbered := by
    obtain ⟨hBefore, hFirst⟩ := h hNumbered
    obtain ⟨hAfter, hSecond⟩ := h' hBefore
    exact ⟨hAfter, IsTrans.trans _ _ _ hFirst hSecond⟩

variable {D : InstrId → Prop} {N : OpCode × Option FieldId × Option MethodId → Prop}
  {b b' b'' : MethodBody}

theorem Reworks.revises (h : Reworks D N b b') : Revises b b' :=
  fun hNumbered => (h hNumbered).imp_left (·.numbered)

/-- Reworking twice puts in what either does. -/
theorem Reworked.trans {D' : InstrId → Prop} (h : Reworked D N b b') (h' : Reworked D' N b' b'') :
    Reworked (fun id => D id ∨ D' id) N b b'' := by
  refine ⟨h'.numbered, Nat.le_trans h.next h'.next, fun i'' hMem'' => ?_⟩
  rcases h'.code i'' hMem'' with ⟨i', hMem', hId', hGist', hKept'⟩ | ⟨hNew, hPlace⟩
  · rcases h.code i' hMem' with ⟨i, hMem, hId, hGist, hKept⟩ | ⟨hNew, hPlace⟩
    · refine Or.inl ⟨i, hMem, hId.trans hId', hGist.trans hGist', fun hDropped => ?_⟩
      exact hDropped.elim hKept fun hDropped => hKept' (hId ▸ hDropped)
    · rw [hGist', hId'] at *
      exact Or.inr ⟨hNew, hPlace.imp_left Or.inl⟩
  · exact Or.inr ⟨hNew, hPlace.imp Or.inr (Nat.le_trans h.next)⟩

theorem Reworked.mono {D' : InstrId → Prop}
    {N' : OpCode × Option FieldId × Option MethodId → Prop} (hD : ∀ id, D id ↔ D' id)
    (hN : ∀ gist, N gist → N' gist) (h : Reworked D N b b') : Reworked D' N' b b' := by
  refine ⟨h.numbered, h.next, fun i' hMem' => ?_⟩
  refine (h.code i' hMem').imp ?_ (And.imp (hN _) (Or.imp_left (hD _).mp))
  rintro ⟨i, hMem, hId, hGist, hKept⟩
  exact ⟨i, hMem, hId, hGist, fun hDropped => hKept ((hD _).mpr hDropped)⟩

/-- What drops nothing may come first. -/
theorem Reworks.after (h : Reworks (fun _ => False) N b b') (h' : Reworks D N b' b'') :
    Reworks D N b b'' := by
  intro hNumbered
  obtain ⟨hFirst, hLater⟩ := h hNumbered
  obtain ⟨hSecond, hLater'⟩ := h' hFirst.numbered
  exact ⟨(hFirst.trans hSecond).mono (by simp) fun _ => id, IsTrans.trans _ _ _ hLater hLater'⟩

instance : IsPreorder MethodBody (Reworks (fun _ => False) N) where
  refl b h := ⟨⟨h, Nat.le_refl _, fun i hMem => Or.inl ⟨i, hMem, rfl, rfl, id⟩⟩, refl b⟩
  trans _ _ _ := Reworks.after

section Positions

variable {position : Nat} {id : InstrId}

theorem mem_splice {seq : List Instruction} {i' : Instruction}
    (h : i' ∈ (b.splice position seq).instructions) :
    i' ∈ b.instructions ∨ (∃ i ∈ seq, i'.gist = i.gist) ∧ b.nextId ≤ i'.id.index := by
  simp only [splice, List.mem_append] at h
  rcases h with (hBefore | hNew) | hAfter
  · exact Or.inl (List.mem_of_mem_take hBefore)
  · exact Or.inr ⟨(mem_number hNew).1, (mem_number hNew).2.1⟩
  · exact Or.inl (List.mem_of_mem_drop hAfter)

/-- Putting in new instructions is reworking. -/
theorem Reworked.splice {seq : List Instruction} (h : b.Numbered) (hN : ∀ i ∈ seq, N i.gist) :
    Reworked (fun _ => False) N b (b.splice position seq) := by
  refine ⟨h.splice position seq, Nat.le_add_right .., fun i' hMem' => ?_⟩
  rcases mem_splice hMem' with hOld | ⟨⟨i, hMem, hGist⟩, hNew⟩
  · exact Or.inl ⟨i', hOld, rfl, rfl, fun h => h⟩
  · exact Or.inr ⟨hGist ▸ hN i hMem, Or.inr hNew⟩

theorem retarget_ids (b : MethodBody) (source target : InstrId) :
    (b.retarget source target).instructions.map (·.id) = b.instructions.map (·.id) := by
  simp [retarget, Function.comp_def, Instruction.retarget]

/-- Redirecting jumps changes no contents. -/
theorem Reworked.retarget (h : b.Numbered) (source target : InstrId) :
    Reworked (fun _ => False) N b (b.retarget source target) := by
  refine ⟨h.of_ids (retarget_ids ..) (Nat.le_refl _), Nat.le_refl _, fun i' hMem' => ?_⟩
  obtain ⟨i, hMem, rfl⟩ := List.mem_map.mp hMem'
  exact Or.inl ⟨i, hMem, rfl, (i.gist_retarget source target).symm, fun h => h⟩

theorem getElem?_of_position (h : b.position? id = some position) :
    ∃ i, b.instructions[position]? = some i ∧ i.id = id := by
  obtain ⟨hBound, hId, -⟩ := List.findIdx?_eq_some_iff_getElem.mp h
  exact ⟨_, List.getElem?_eq_getElem hBound, by simpa using hId⟩

/-- An instruction changed under its number leaves the numbers as they were. -/
theorem modify_ids {f : Instruction → Instruction} (hPosition : b.position? id = some position)
    (hId : ∀ i, i.id = id → (f i).id = id) :
    (b.instructions.modify position f).map (·.id) = b.instructions.map (·.id) := by
  obtain ⟨i, hAt, hSame⟩ := getElem?_of_position hPosition
  apply List.ext_getElem?
  intro j
  simp only [List.getElem?_map, List.getElem?_modify]
  by_cases hj : position = j
  · rw [← hj, hAt]
    simp [hId i hSame, hSame]
  · simp [hj]

/-- Changing one instruction under its number is reworking. -/
theorem Reworked.set {f : Instruction → Instruction} {code : List Instruction} (h : b.Numbered)
    (hPosition : b.position? id = some position)
    (hCode : code = b.instructions.modify position f) (hId : ∀ i, i.id = id → (f i).id = id)
    (hN : ∀ i ∈ b.instructions, N (f i).gist) {revision : Nat} :
    Reworked (· = id) N b { b with instructions := code, revision := revision } := by
  obtain ⟨i, hAt, hSame⟩ := getElem?_of_position hPosition
  have hMem : i ∈ b.instructions := List.mem_of_getElem? hAt
  have hIds : code.map (·.id) = b.instructions.map (·.id) := hCode ▸ modify_ids hPosition hId
  refine ⟨h.of_ids hIds (Nat.le_refl _), Nat.le_refl _, fun i' hMem' => ?_⟩
  obtain ⟨j, hj⟩ := List.mem_iff_getElem?.mp hMem'
  simp only [hCode, List.getElem?_modify] at hj
  by_cases hPlace : position = j
  · rw [← hPlace, hAt] at hj
    obtain rfl : f i = i' := by simpa using hj
    exact Or.inr ⟨hN i hMem, Or.inl (hId i hSame)⟩
  · have hj : b.instructions[j]? = some i' := by simpa [hPlace] using hj
    have hMem' := List.mem_of_getElem? hj
    refine Or.inl ⟨i', hMem', rfl, rfl, fun hDropped => hPlace ?_⟩
    obtain rfl := h.eq_of_id hMem hMem' (hSame.trans hDropped.symm)
    have hBound : position < b.instructions.length := (List.getElem?_eq_some_iff.mp hAt).1
    exact (List.getElem?_inj hBound h.distinct.of_map).mp (hAt.trans hj.symm)

end Positions

section Edits

variable {id : InstrId} {seq : List Instruction}

theorem require_ok {position : Nat} :
    require id b = .ok position b' ↔ b.position? id = some position ∧ b = b' := by
  unfold require
  simp only [Step.bind_ok, Step.get_ok]
  constructor
  · rintro ⟨_, _, ⟨rfl, rfl⟩, h⟩
    cases hPosition : b.position? id with
    | some position' =>
        simp only [hPosition] at h
        obtain ⟨rfl, rfl⟩ := Step.pure_ok.mp h
        exact ⟨rfl, rfl⟩
    | none =>
        simp only [hPosition] at h
        exact (Step.throw_ok.mp h).elim
  · rintro ⟨hPosition, rfl⟩
    refine ⟨b, b, ⟨rfl, rfl⟩, ?_⟩
    simp only [hPosition]
    exact Step.pure_ok.mpr ⟨rfl, rfl⟩

/-- Code put in ahead of an instruction drops nothing. -/
theorem reworks_insertBefore (hN : ∀ i ∈ seq, N i.gist) :
    Keeps (Reworks (fun _ => False) N) (insertBefore id seq) := by
  intro b ids b' h hNumbered
  obtain ⟨position, _, hRequire, h⟩ := Step.bind_ok.mp h
  obtain ⟨-, rfl⟩ := require_ok.mp hRequire
  split at h
  · obtain ⟨-, rfl⟩ := Step.pure_ok.mp h
    exact refl (r := Reworks (fun _ => False) N) b hNumbered
  · obtain ⟨_, _, hGet, h⟩ := Step.bind_ok.mp h
    obtain ⟨rfl, rfl⟩ := Step.get_ok.mp hGet
    obtain ⟨_, _, hSet, h⟩ := Step.bind_ok.mp h
    obtain rfl := Step.set_ok.mp hSet
    obtain ⟨-, rfl⟩ := Step.pure_ok.mp h
    have hRetargeted : Reworked (fun _ => False) N b _ := .retarget hNumbered id ⟨b.nextId⟩
    refine ⟨?_, Or.inr (Nat.lt_succ_self _)⟩
    exact (hRetargeted.trans (.splice hRetargeted.numbered hN)).mono (by simp) fun _ h => h

theorem reworks_insertAfter (hN : ∀ i ∈ seq, N i.gist) :
    Keeps (Reworks (fun _ => False) N) (insertAfter id seq) := by
  intro b ids b' h hNumbered
  obtain ⟨position, _, hRequire, h⟩ := Step.bind_ok.mp h
  obtain ⟨-, rfl⟩ := require_ok.mp hRequire
  obtain ⟨_, _, hGet, h⟩ := Step.bind_ok.mp h
  obtain ⟨rfl, rfl⟩ := Step.get_ok.mp hGet
  obtain ⟨_, _, hSet, h⟩ := Step.bind_ok.mp h
  obtain rfl := Step.set_ok.mp hSet
  obtain ⟨-, rfl⟩ := Step.pure_ok.mp h
  exact ⟨.splice hNumbered hN, Or.inr (Nat.lt_succ_self _)⟩

theorem insertAfter_revision {ids : List InstrId} (h : insertAfter id seq b = .ok ids b') :
    b.revision < b'.revision := by
  obtain ⟨position, _, hRequire, h⟩ := Step.bind_ok.mp h
  obtain ⟨-, rfl⟩ := require_ok.mp hRequire
  obtain ⟨_, _, hGet, h⟩ := Step.bind_ok.mp h
  obtain ⟨rfl, rfl⟩ := Step.get_ok.mp hGet
  obtain ⟨_, _, hSet, h⟩ := Step.bind_ok.mp h
  obtain rfl := Step.set_ok.mp hSet
  obtain ⟨-, rfl⟩ := Step.pure_ok.mp h
  exact Nat.lt_succ_self _

theorem reworks_push (hN : ∀ i ∈ seq, N i.gist) :
    Keeps (Reworks (fun _ => False) N) (push seq) := by
  intro b ids b' h hNumbered
  obtain ⟨_, _, hGet, h⟩ := Step.bind_ok.mp h
  obtain ⟨rfl, rfl⟩ := Step.get_ok.mp hGet
  obtain ⟨_, _, hSet, h⟩ := Step.bind_ok.mp h
  obtain rfl := Step.set_ok.mp hSet
  obtain ⟨-, rfl⟩ := Step.pure_ok.mp h
  exact ⟨.splice hNumbered hN, Or.inr (Nat.lt_succ_self _)⟩

theorem reworks_insertBefore_then {α : Type} {e : BodyEdit α} (hN : ∀ i ∈ seq, N i.gist)
    (he : Keeps (Reworks D N) e) : Keeps (Reworks D N) (insertBefore id seq >>= fun _ => e) :=
  Keeps.bind_trans (reworks_insertBefore hN) (fun _ => he) fun _ _ _ => Reworks.after

/-- Putting an instruction in the place of another one drops that one only. -/
theorem reworks_replace {i : Instruction} (hN : N i.gist) :
    Keeps (Reworks (· = id) N) (replace id i) := by
  intro b u b' h hNumbered
  obtain ⟨position, _, hRequire, h⟩ := Step.bind_ok.mp h
  obtain ⟨hPosition, rfl⟩ := require_ok.mp hRequire
  obtain rfl := Step.modify_ok.mp h
  refine ⟨?_, Or.inr (Nat.lt_succ_self _)⟩
  exact .set (f := fun _ => { i with id := id }) hNumbered hPosition rfl (fun _ _ => rfl)
    fun _ _ => hN

theorem reworks_setOperand {operand : Operand}
    (hN : ∀ i : Instruction, N { i with operand := operand }.gist) :
    Keeps (Reworks (· = id) N) (setOperand id operand) := by
  intro b u b' h hNumbered
  obtain ⟨position, _, hRequire, h⟩ := Step.bind_ok.mp h
  obtain ⟨hPosition, rfl⟩ := require_ok.mp hRequire
  obtain rfl := Step.modify_ok.mp h
  refine ⟨?_, Or.inr (Nat.lt_succ_self _)⟩
  exact .set (f := fun i => { i with operand := operand }) hNumbered hPosition rfl (fun _ h => h)
    fun i _ => hN i

/-- Taking an instruction out puts nothing in. -/
theorem reworks_remove (hD : ∀ other, D other → other = id) :
    Keeps (Reworks D N) (remove id) := by
  have hCut (b : MethodBody) (hNumbered : b.Numbered) {position : Nat} {i : Instruction}
      (hAt : b.instructions[position]? = some i) (hId : D i.id ∨ ∀ other, ¬ D other) :
      Reworked D N b { b with
        instructions := b.instructions.eraseIdx position
        revision := b.revision + 1 } := by
    have hKept : ∀ j ∈ b.instructions.eraseIdx position, ¬ D j.id := by
      intro j hMem hDropped
      have hSame : j = i := by
        rcases hId with hId | hNone
        · apply hNumbered.eq_of_id (List.mem_of_mem_eraseIdx hMem) (List.mem_of_getElem? hAt)
          rw [hD _ hDropped, hD _ hId]
        · exact (hNone _ hDropped).elim
      obtain ⟨k, hOther, hk⟩ := List.mem_eraseIdx_iff_getElem?.mp hMem
      have hBound : k < b.instructions.length := (List.getElem?_eq_some_iff.mp hk).1
      apply hOther
      apply (List.getElem?_inj hBound hNumbered.distinct.of_map).mp
      rw [hk, hAt, hSame]
    refine ⟨⟨?_, fun i hMem => hNumbered.below i (List.mem_of_mem_eraseIdx hMem)⟩,
      Nat.le_refl _, fun i hMem => ?_⟩
    · exact hNumbered.distinct.sublist (List.Sublist.map _ (List.eraseIdx_sublist ..))
    · exact Or.inl ⟨i, List.mem_of_mem_eraseIdx hMem, rfl, rfl, hKept i hMem⟩
  intro b i b' h hNumbered
  unfold remove at h
  obtain ⟨position, _, hRequire, h⟩ := Step.bind_ok.mp h
  obtain ⟨hPosition, rfl⟩ := require_ok.mp hRequire
  obtain ⟨found, hAt, rfl⟩ := getElem?_of_position hPosition
  have hFound : D found.id ∨ ∀ other, ¬ D other := by
    by_cases hAny : ∃ other, D other
    · obtain ⟨other, hOther⟩ := hAny
      exact Or.inl (hD other hOther ▸ hOther)
    · exact Or.inr fun other hOther => hAny ⟨other, hOther⟩
  obtain ⟨_, _, hGet, h⟩ := Step.bind_ok.mp h
  obtain ⟨rfl, rfl⟩ := Step.get_ok.mp hGet
  cases hNext : b.at? (position + 1) with
  | some next =>
      simp only [hNext, Step.bind_ok, Step.set_ok, Step.pure_ok] at h
      obtain ⟨_, _, rfl, -, rfl⟩ := h
      have hRetargeted : Reworked (fun _ => False) N b _ := .retarget hNumbered found.id next.id
      have hAt' : (b.retarget found.id next.id).instructions[position]?
          = some (found.retarget found.id next.id) := by
        simp [MethodBody.retarget, hAt]
      refine ⟨?_, Or.inr (Nat.lt_succ_self _)⟩
      exact (hRetargeted.trans (hCut _ hRetargeted.numbered hAt' hFound)).mono (by simp) fun _ h => h
  | none =>
      simp only [hNext] at h
      split at h
      · exact (Step.throw_ok.mp h).elim
      · simp only [Step.bind_ok, Step.set_ok, Step.pure_ok] at h
        obtain ⟨_, _, rfl, -, rfl⟩ := h
        exact ⟨hCut b hNumbered hAt hFound, Or.inr (Nat.lt_succ_self _)⟩

/-- Putting code in the place of an instruction drops that one only. -/
theorem reworks_replaceWith (hN : ∀ i ∈ seq, N i.gist) :
    Keeps (Reworks (· = id) N) (replaceWith id seq) := by
  intro b ids b' h hNumbered
  obtain ⟨position, _, hRequire, h⟩ := Step.bind_ok.mp h
  obtain ⟨hPosition, rfl⟩ := require_ok.mp hRequire
  cases seq with
  | nil =>
      obtain ⟨i, _, hRemove, h⟩ := Step.bind_ok.mp h
      obtain ⟨-, rfl⟩ := Step.pure_ok.mp h
      exact reworks_remove (fun _ h => h) hRemove hNumbered
  | cons first rest =>
      simp only [Step.bind_ok, Step.get_ok, Step.set_ok, Step.pure_ok] at h
      obtain ⟨_, _, ⟨rfl, rfl⟩, _, _, rfl, -, rfl⟩ := h
      have hSet : Reworked (· = id) N b
          { b with instructions := b.instructions.set position { first with id := id } } :=
        .set (f := fun _ => { first with id := id }) hNumbered hPosition
          (List.modify_eq_set ..).symm (fun _ _ => rfl) fun _ _ => hN first (List.mem_cons_self ..)
      have hSplice : Reworked (fun _ => False) N _ (splice _ (position + 1) rest) :=
        .splice hSet.numbered fun i hMem => hN i (List.mem_cons_of_mem _ hMem)
      exact ⟨(hSet.trans hSplice).mono (by simp) fun _ h => h, Or.inr (Nat.lt_succ_self _)⟩

theorem reworks_addLocal {type : TypeRef} :
    Keeps (Reworks (fun _ => False) N) (addLocal type) := by
  intro b index b' h hNumbered
  obtain ⟨_, _, hGet, h⟩ := Step.bind_ok.mp h
  obtain ⟨rfl, rfl⟩ := Step.get_ok.mp hGet
  obtain ⟨_, _, hSet, h⟩ := Step.bind_ok.mp h
  obtain rfl := Step.set_ok.mp hSet
  obtain ⟨-, rfl⟩ := Step.pure_ok.mp h
  refine ⟨⟨⟨hNumbered.distinct, hNumbered.below⟩, Nat.le_refl _, fun i hMem => ?_⟩,
    Or.inr (Nat.lt_succ_self _)⟩
  exact Or.inl ⟨i, hMem, rfl, rfl, fun h => h⟩

end Edits

section Numbers

variable {id : InstrId} {seq : List Instruction}

/-- Edits that rework code revise it. -/
theorem revises_of_reworks {α : Type} {e : BodyEdit α} (h : Keeps (Reworks D fun _ => True) e) :
    Keeps Revises e :=
  h.mono fun _ _ h => h.revises

theorem revises_insertBefore : Keeps Revises (insertBefore id seq) :=
  revises_of_reworks (reworks_insertBefore fun _ _ => trivial)

theorem revises_insertBeforeEach {ids : List InstrId} :
    Keeps Revises (ids.forM fun id => do
      let _ ← insertBefore id seq) :=
  Keeps.forM fun _ _ => Keeps.bind revises_insertBefore fun _ => Keeps.pure _

theorem revises_insertAfter : Keeps Revises (insertAfter id seq) :=
  revises_of_reworks (reworks_insertAfter fun _ _ => trivial)

theorem revises_push : Keeps Revises (push seq) :=
  revises_of_reworks (reworks_push fun _ _ => trivial)

theorem revises_replace {i : Instruction} : Keeps Revises (replace id i) :=
  revises_of_reworks (reworks_replace trivial)

theorem revises_setOperand {operand : Operand} : Keeps Revises (setOperand id operand) :=
  revises_of_reworks (reworks_setOperand fun _ => trivial)

theorem revises_remove : Keeps Revises (remove id) :=
  revises_of_reworks (reworks_remove fun _ h => h)

theorem revises_removeEach {ids : List InstrId} :
    Keeps Revises (ids.forM fun id => do
      let _ ← remove id) :=
  Keeps.forM fun _ _ => Keeps.bind revises_remove fun _ => Keeps.pure _

theorem revises_replaceWith : Keeps Revises (replaceWith id seq) :=
  revises_of_reworks (reworks_replaceWith fun _ _ => trivial)

end Numbers

theorem numbered_fresh (code : List Instruction) : (fresh code).Numbered := by
  apply Numbered.splice
  exact ⟨List.nodup_nil, fun _ h => (List.not_mem_nil h).elim⟩

theorem shiftArgument_id (first amount : Nat) (i : Instruction) :
    (shiftArgument first amount i).id = i.id := by
  unfold shiftArgument
  split
  · split <;> rfl
  · rfl

theorem shiftArguments_ids (b : MethodBody) (first amount : Nat) :
    (b.shiftArguments first amount).instructions.map (·.id) = b.instructions.map (·.id) := by
  unfold shiftArguments
  split
  · rfl
  · rw [List.map_map]
    apply List.map_congr_left
    intro i _
    exact shiftArgument_id first amount i

theorem Numbered.shiftArguments (h : b.Numbered) (first amount : Nat) :
    (b.shiftArguments first amount).Numbered := by
  apply h.of_ids (shiftArguments_ids b first amount)
  unfold MethodBody.shiftArguments
  split <;> exact Nat.le_refl _

end MethodBody

end ContextBinding
