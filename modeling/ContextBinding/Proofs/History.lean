import ContextBinding.Proofs.Numbering
import ContextBinding.Proofs.Outcome

/-! Bodies over a history of edits. An edit hands out new numbers only, moves references along
with what they name, and leaves the body as it was where it fails; so every body that edits lead
to is well formed. -/

namespace ContextBinding

namespace MethodBody

/-- The numbers of the instructions, in the order of the code. -/
def ids (b : MethodBody) : List InstrId := b.instructions.map (·.id)

/-- The instructions that jumps and the boundaries of handlers name. -/
def references (b : MethodBody) : List InstrId :=
  b.instructions.flatMap (·.targetIds) ++ b.handlers.flatMap (·.boundaries)

/-- The bodies that code starts out with. -/
inductive Initial : MethodBody → Prop where
  | empty : Initial empty
  | ofParts {code : List Instruction} (locals : List TypeRef) (handlers : List Handler)
      (distinct : (code.map (·.id)).Nodup) : Initial (ofParts code locals handlers)

end MethodBody

/-- An edit of a body, with what it is given. -/
inductive BodyChange where
  | insertBefore (anchor : InstrId) (seq : List Instruction)
  | insertAfter (anchor : InstrId) (seq : List Instruction)
  | push (seq : List Instruction)
  | replace (id : InstrId) (i : Instruction)
  | replaceWith (id : InstrId) (seq : List Instruction)
  | remove (id : InstrId)
  | setOperand (id : InstrId) (operand : Operand)
  | addLocal (type : TypeRef)
  | shiftArguments (first amount : Nat)
  | addHandler (h : Handler)
  deriving DecidableEq, Repr

namespace BodyChange

/-- Make the edit. The outcome is the numbers it hands out; where code takes the place of an
instruction, the number of that one is kept and not handed out again. -/
def run : BodyChange → BodyEdit (List InstrId)
  | insertBefore anchor seq => MethodBody.insertBefore anchor seq
  | insertAfter anchor seq => MethodBody.insertAfter anchor seq
  | push seq => MethodBody.push seq
  | replace id i => do
    MethodBody.replace id i
    pure []
  | replaceWith id seq => do
    let ids ← MethodBody.replaceWith id seq
    pure ids.tail
  | remove id => do
    let _ ← MethodBody.remove id
    pure []
  | setOperand id operand => do
    MethodBody.setOperand id operand
    pure []
  | addLocal type => do
    let _ ← MethodBody.addLocal type
    pure []
  | shiftArguments first amount => do
    modify fun b => b.shiftArguments first amount
    pure []
  | addHandler h => do
    MethodBody.addHandler h
    pure []

/-- The references that the edit is given. -/
def given : BodyChange → List InstrId
  | insertBefore _ seq | insertAfter _ seq | push seq | replaceWith _ seq =>
    seq.flatMap (·.targetIds)
  | replace _ i => i.targetIds
  | setOperand _ operand => operand.targetIds
  | addHandler h => h.boundaries
  | remove _ | addLocal _ | shiftArguments .. => []

end BodyChange

namespace MethodBody

/-- The body after an edit, whether it succeeds or not. -/
def after (b : MethodBody) (c : BodyChange) : MethodBody := endState c.run b

/-- The body after several edits. -/
def evolve (b : MethodBody) (changes : List BodyChange) : MethodBody := changes.foldl after b

variable {b b' c : MethodBody} {id source target : InstrId} {position : Nat}
  {seq : List Instruction}

section Parts

/-- An instruction that is there is found. -/
theorem require_succeeds (h : id ∈ b.ids) : ∃ position, require id b = .ok position b := by
  obtain ⟨i, hMem, rfl⟩ := List.mem_map.mp h
  have hFound : (b.position? i.id).isSome := by
    unfold position?
    rw [List.findIdx?_isSome, List.any_eq_true]
    exact ⟨i, hMem, beq_self_eq_true _⟩
  obtain ⟨position, hPosition⟩ := Option.isSome_iff_exists.mp hFound
  exact ⟨position, require_ok.mpr ⟨hPosition, rfl⟩⟩

theorem ids_retarget : (b.retarget source target).ids = b.ids := retarget_ids ..

theorem mem_ids_splice : id ∈ (b.splice position seq).ids ↔ id ∈ b.ids ∨ id ∈ b.freshIds seq := by
  have hCode : id ∈ b.ids ↔ id ∈ (b.instructions.take position).map (·.id) ∨
      id ∈ (b.instructions.drop position).map (·.id) := by
    rw [← List.mem_append, ← List.map_append, List.take_append_drop, ids]
  simp only [ids, splice, freshIds, List.map_append, List.mem_append] at hCode ⊢
  rw [hCode]
  tauto

theorem freshIds_nodup : (b.freshIds seq).Nodup := by
  unfold freshIds
  rw [number_ids]
  exact (List.nodup_range' ..).map fun _ _ h => InstrId.mk.inj h

theorem le_of_mem_freshIds (h : id ∈ b.freshIds seq) : b.nextId ≤ id.index := by
  obtain ⟨i, hMem, rfl⟩ := List.mem_map.mp h
  exact (mem_number hMem).2.1

theorem Numbered.below_ids (h : b.Numbered) (hMem : id ∈ b.ids) : id.index < b.nextId := by
  obtain ⟨i, hThere, rfl⟩ := List.mem_map.mp hMem
  exact h.below i hThere

theorem mem_references : id ∈ b.references ↔
    (∃ i ∈ b.instructions, id ∈ i.targetIds) ∨ ∃ h ∈ b.handlers, id ∈ h.boundaries := by
  simp [references]

theorem isReferenced_iff : b.isReferenced id = true ↔ id ∈ b.references := by
  simp [isReferenced, mem_references]

theorem number_targets (first : Nat) (seq : List Instruction) :
    (number first seq).flatMap (·.targetIds) = seq.flatMap (·.targetIds) := by
  induction seq generalizing first with
  | nil => rfl
  | cons i seq ih =>
      rw [number, List.flatMap_cons, List.flatMap_cons, ih]
      rfl

theorem mem_references_splice : id ∈ (b.splice position seq).references ↔
    id ∈ b.references ∨ id ∈ seq.flatMap (·.targetIds) := by
  have hCode : id ∈ b.instructions.flatMap (·.targetIds) ↔
      id ∈ (b.instructions.take position).flatMap (·.targetIds) ∨
        id ∈ (b.instructions.drop position).flatMap (·.targetIds) := by
    rw [← List.mem_append, ← List.flatMap_append, List.take_append_drop]
  simp only [references, splice, List.flatMap_append, number_targets, List.mem_append]
  rw [hCode]
  tauto

/-- A renaming of one name yields the new name, or another one that was there. -/
theorem mem_rename {names : List InstrId}
    (h : id ∈ names.map fun name => if name = source then target else name) :
    id = target ∨ id ∈ names ∧ id ≠ source := by
  obtain ⟨name, hMem, rfl⟩ := List.mem_map.mp h
  by_cases hSource : name = source
  · exact Or.inl (if_pos hSource)
  · rw [if_neg hSource]
    exact Or.inr ⟨hMem, hSource⟩

theorem targetIds_retarget (i : Instruction) : (i.retarget source target).targetIds =
    i.targetIds.map fun name => if name = source then target else name := by
  unfold Instruction.retarget Instruction.targetIds Operand.mapTargets Operand.targetIds
  cases i.operand <;> rfl

/-- Redirected references name the new instruction, or what they named before. -/
theorem mem_references_retarget (h : id ∈ (b.retarget source target).references) :
    id = target ∨ id ∈ b.references ∧ id ≠ source := by
  rw [mem_references] at h
  rcases h with ⟨i', hMem', hTarget⟩ | ⟨h', hMem', hBoundary⟩
  · obtain ⟨i, hMem, rfl⟩ := List.mem_map.mp hMem'
    rw [targetIds_retarget] at hTarget
    exact (mem_rename hTarget).imp_right
      (And.imp_left fun hNamed => mem_references.mpr (Or.inl ⟨i, hMem, hNamed⟩))
  · obtain ⟨handler, hMem, rfl⟩ := List.mem_map.mp hMem'
    exact (mem_rename hBoundary).imp_right
      (And.imp_left fun hNamed => mem_references.mpr (Or.inr ⟨handler, hMem, hNamed⟩))

theorem modify_references {f : Instruction → Instruction} {given : List InstrId}
    {revision : Nat} (hTargets : ∀ i, (f i).targetIds = given) :
    { b with instructions := b.instructions.modify position f, revision := revision }.references
      ⊆ b.references ++ given := by
  intro name h
  rw [List.mem_append]
  rcases mem_references.mp h with ⟨i', hMem', hTarget⟩ | hBoundary
  · obtain ⟨j, hAt⟩ := List.mem_iff_getElem?.mp hMem'
    simp only [List.getElem?_modify] at hAt
    obtain ⟨i, hFound, rfl⟩ := Option.map_eq_some_iff.mp hAt
    by_cases hPlace : position = j
    · rw [if_pos hPlace, hTargets] at hTarget
      exact Or.inr hTarget
    · rw [if_neg hPlace] at hTarget
      exact Or.inl (mem_references.mpr (Or.inl ⟨i, List.mem_of_getElem? hFound, hTarget⟩))
  · exact Or.inl (mem_references.mpr (Or.inr hBoundary))

/-- The numbers are distinct, so that a number goes with its place. -/
theorem mem_eraseIdx_ids (hNumbered : b.Numbered) (hPosition : b.position? source = some position) :
    id ∈ b.ids.eraseIdx position ↔ id ∈ b.ids ∧ id ≠ source := by
  obtain ⟨i, hAt, rfl⟩ := getElem?_of_position hPosition
  have hId : b.ids[position]? = some i.id := by simp [ids, hAt]
  obtain ⟨hBound, hId⟩ := List.getElem?_eq_some_iff.mp hId
  have hDistinct : b.ids.Nodup := hNumbered.distinct
  rw [← hId, ← hDistinct.erase_getElem, hDistinct.mem_erase_iff, and_comm]

end Parts

/-- What an edit that is given the references `given` and hands out `fresh` does to a body. -/
structure Effect (b : MethodBody) (given fresh : List InstrId) (b' : MethodBody) : Prop where
  later : b.Later b'
  next : b.nextId ≤ b'.nextId
  distinct : fresh.Nodup
  above : ∀ id ∈ fresh, b.nextId ≤ id.index
  present : fresh ⊆ b'.ids
  ids : b'.ids ⊆ b.ids ++ fresh
  numbered : b.Numbered → b'.Numbered
  closed : b.Numbered → b.references ⊆ b.ids → given ⊆ b.ids → b'.references ⊆ b'.ids

namespace Effect

variable {given : List InstrId}

/-- An edit of what stands under the numbers, or beside the code. -/
theorem of_ids (hIds : b'.ids = b.ids) (hNext : b'.nextId = b.nextId) (hLater : b.Later b')
    (hReferences : b'.references ⊆ b.references ++ given) : Effect b given [] b' where
  later := hLater
  next := Nat.le_of_eq hNext.symm
  distinct := List.nodup_nil
  above _ h := (List.not_mem_nil h).elim
  present := List.nil_subset _
  ids := by simp [hIds]
  numbered h := h.of_ids hIds (Nat.le_of_eq hNext.symm)
  closed _ hClosed hGiven id h := by
    rw [hIds]
    exact (List.mem_append.mp (hReferences h)).elim (@hClosed id) (@hGiven id)

/-- An edit that numbers new code and puts it in, after a change that may name the new numbers. -/
theorem of_splice (given : List InstrId) (hIds : c.ids = b.ids) (hNext : c.nextId = b.nextId)
    (hRevision : c.revision = b.revision)
    (hReferences : c.references ⊆ b.references ++ given ++ b.freshIds seq) :
    Effect b (given ++ seq.flatMap (·.targetIds)) (b.freshIds seq) (c.splice position seq) where
  later := Or.inr (by simp [MethodBody.splice, hRevision])
  next := by
    rw [← hNext]
    exact Nat.le_add_right ..
  distinct := freshIds_nodup
  above _ h := le_of_mem_freshIds h
  present id h := by
    rw [mem_ids_splice, freshIds, hNext]
    exact Or.inr h
  ids id h := by
    rw [mem_ids_splice, freshIds, hNext, hIds] at h
    exact List.mem_append.mpr h
  numbered h := (h.of_ids hIds (Nat.le_of_eq hNext.symm)).splice position seq
  closed _ hClosed hGiven id h := by
    rw [mem_ids_splice, freshIds, hNext, hIds]
    rw [List.append_subset] at hGiven
    rcases mem_references_splice.mp h with h | h
    · rcases List.mem_append.mp (hReferences h) with h | h
      · exact Or.inl ((List.mem_append.mp h).elim (@hClosed id) (@hGiven.1 id))
      · exact Or.inr h
    · exact Or.inl (hGiven.2 h)

/-- Code put in without redirecting anything. -/
theorem splice : Effect b (seq.flatMap (·.targetIds)) (b.freshIds seq) (b.splice position seq) :=
  of_splice [] rfl rfl rfl (by simp)

/-- An edit of one instruction under its number. -/
theorem of_modify {f : Instruction → Instruction} (hPosition : b.position? id = some position)
    (hId : ∀ i, i.id = id → (f i).id = id) (hTargets : ∀ i, (f i).targetIds = given) :
    Effect b given [] (b.modifyAt position f) :=
  of_ids (modify_ids hPosition hId) rfl (Or.inr (Nat.lt_succ_self _)) (modify_references hTargets)

/-- An edit that takes out an instruction which nothing names any longer. -/
theorem of_cut (hPosition : b.position? source = some position) (hIds : c.ids = b.ids)
    (hNext : c.nextId = b.nextId) (hRevision : c.revision = b.revision)
    (hReferences : b.Numbered → b.references ⊆ b.ids →
      ∀ id ∈ c.references, id ∈ b.ids ∧ id ≠ source) :
    Effect b [] [] { c with
      instructions := c.instructions.eraseIdx position
      revision := c.revision + 1 } := by
  have hCut : (c.instructions.eraseIdx position).map (·.id) = b.ids.eraseIdx position := by
    rw [← List.eraseIdx_map, ← hIds]
    rfl
  refine ⟨Or.inr (by simp [hRevision]), Nat.le_of_eq hNext.symm, List.nodup_nil, by simp, by simp,
    fun id h => ?_, fun hNumbered => ⟨?_, fun i hMem => ?_⟩, fun hNumbered hClosed _ id h => ?_⟩
  · change id ∈ (c.instructions.eraseIdx position).map (·.id) at h
    rw [hCut] at h
    exact List.mem_append_left _ (List.mem_of_mem_eraseIdx h)
  · have hDistinct : b.ids.Nodup := hNumbered.distinct
    rw [hCut]
    exact hDistinct.sublist (List.eraseIdx_sublist ..)
  · have hBefore : c.Numbered := hNumbered.of_ids hIds (Nat.le_of_eq hNext.symm)
    exact hBefore.below i (List.mem_of_mem_eraseIdx hMem)
  · have hBefore : id ∈ c.references := by
      rw [mem_references] at h ⊢
      refine h.imp_left ?_
      rintro ⟨i, hMem, hTarget⟩
      exact ⟨i, List.mem_of_mem_eraseIdx hMem, hTarget⟩
    change id ∈ (c.instructions.eraseIdx position).map (·.id)
    rw [hCut, mem_eraseIdx_ids hNumbered hPosition]
    exact hReferences hNumbered hClosed id hBefore

/-- What named a removed instruction names the one after it; the last one goes only while nothing
names it. -/
theorem of_remove {i : Instruction} (h : remove id b = .ok i b') : Effect b [] [] b' := by
  unfold remove at h
  obtain ⟨position, _, hRequire, h⟩ := Step.bind_ok.mp h
  obtain ⟨hPosition, rfl⟩ := require_ok.mp hRequire
  obtain ⟨_, _, hGet, h⟩ := Step.bind_ok.mp h
  obtain ⟨rfl, rfl⟩ := Step.get_ok.mp hGet
  cases hNext : b.at? (position + 1) with
  | some next =>
      simp only [hNext, Step.bind_ok, Step.set_ok, Step.pure_ok] at h
      obtain ⟨_, _, rfl, -, rfl⟩ := h
      apply of_cut hPosition ids_retarget rfl rfl
      intro hNumbered hClosed name hName
      rcases mem_references_retarget hName with rfl | ⟨hBefore, hOther⟩
      · -- the successor stands at another place, and numbers are distinct
        have hMem : next ∈ b.instructions := List.mem_of_getElem? hNext
        refine ⟨List.mem_map_of_mem hMem, fun hSame => ?_⟩
        obtain ⟨found, hAt, hId⟩ := getElem?_of_position hPosition
        have hFound : found ∈ b.instructions := List.mem_of_getElem? hAt
        obtain rfl := hNumbered.eq_of_id hFound hMem (hId.trans hSame.symm)
        have hBound : position < b.instructions.length := (List.getElem?_eq_some_iff.mp hAt).1
        have hPlace := (List.getElem?_inj hBound hNumbered.distinct.of_map).mp (hAt.trans hNext.symm)
        omega
      · exact ⟨hClosed hBefore, hOther⟩
  | none =>
      simp only [hNext] at h
      split at h
      · exact (Step.throw_ok.mp h).elim
      · rename_i hUnnamed
        simp only [Step.bind_ok, Step.set_ok, Step.pure_ok] at h
        obtain ⟨_, _, rfl, -, rfl⟩ := h
        apply of_cut hPosition rfl rfl rfl
        intro _ hClosed name hName
        refine ⟨hClosed hName, ?_⟩
        rintro rfl
        exact hUnnamed (isReferenced_iff.mpr hName)

end Effect

theorem targetIds_shiftArgument (first amount : Nat) (i : Instruction) :
    (shiftArgument first amount i).targetIds = i.targetIds := by
  obtain ⟨_, _, operand⟩ := i
  unfold shiftArgument
  cases operand with
  | arg index => dsimp only; split <;> rfl
  | _ => rfl

theorem shiftArguments_references (b : MethodBody) (first amount : Nat) :
    (b.shiftArguments first amount).references = b.references := by
  unfold shiftArguments
  split
  · rfl
  · simp [references, List.flatMap_map, targetIds_shiftArgument]

/-- Where code takes the place of an instruction, the number of that one stays. -/
theorem effect_replaceWith {ids : List InstrId} (h : replaceWith id seq b = .ok ids b') :
    Effect b (seq.flatMap (·.targetIds)) ids.tail b' := by
  obtain ⟨position, _, hRequire, h⟩ := Step.bind_ok.mp h
  obtain ⟨hPosition, rfl⟩ := require_ok.mp hRequire
  cases seq with
  | nil =>
      obtain ⟨_, _, hRemove, h⟩ := Step.bind_ok.mp h
      obtain ⟨rfl, rfl⟩ := Step.pure_ok.mp h
      exact .of_remove hRemove
  | cons first rest =>
      simp only [Step.bind_ok, Step.get_ok, Step.set_ok, Step.pure_ok] at h
      obtain ⟨_, _, ⟨rfl, rfl⟩, _, _, rfl, rfl, rfl⟩ := h
      have hCode : b.instructions.set position { first with id := id }
          = b.instructions.modify position fun _ => { first with id := id } :=
        (List.modify_eq_set (f := fun _ => { first with id := id }) ..).symm
      rw [hCode]
      change Effect b (first.targetIds ++ rest.flatMap (·.targetIds)) (b.freshIds rest) _
      refine .of_splice first.targetIds ?_ rfl rfl ?_
      · exact modify_ids hPosition fun _ _ => rfl
      · apply List.subset_append_of_subset_left
        exact modify_references fun _ => rfl

/-- What an edit that succeeds has done. -/
theorem effect_run {c : BodyChange} {fresh : List InstrId} (h : c.run b = .ok fresh b') :
    Effect b c.given fresh b' := by
  cases c with
  | insertBefore anchor seq =>
      obtain ⟨position, _, hRequire, h⟩ := Step.bind_ok.mp h
      obtain ⟨-, rfl⟩ := require_ok.mp hRequire
      split at h
      · obtain ⟨rfl, rfl⟩ := Step.pure_ok.mp h
        exact .of_ids rfl rfl (Or.inl rfl) (by simp)
      · rename_i hSome
        simp only [Step.bind_ok, Step.get_ok, Step.set_ok, Step.pure_ok] at h
        obtain ⟨_, _, ⟨rfl, rfl⟩, _, _, rfl, rfl, rfl⟩ := h
        apply Effect.of_splice [] ids_retarget rfl rfl
        intro name hName
        rw [List.append_nil, List.mem_append]
        rcases mem_references_retarget hName with rfl | ⟨hBefore, -⟩
        · -- what named the anchor names the first new instruction
          cases seq with
          | nil => exact absurd rfl hSome
          | cons i seq => exact Or.inr (List.mem_cons_self ..)
        · exact Or.inl hBefore
  | insertAfter anchor seq =>
      obtain ⟨position, _, hRequire, h⟩ := Step.bind_ok.mp h
      obtain ⟨-, rfl⟩ := require_ok.mp hRequire
      simp only [Step.bind_ok, Step.get_ok, Step.set_ok, Step.pure_ok] at h
      obtain ⟨_, _, ⟨rfl, rfl⟩, _, _, rfl, rfl, rfl⟩ := h
      exact .splice
  | push seq =>
      simp only [BodyChange.run, push, Step.bind_ok, Step.get_ok, Step.set_ok, Step.pure_ok] at h
      obtain ⟨_, _, ⟨rfl, rfl⟩, _, _, rfl, rfl, rfl⟩ := h
      exact .splice
  | replace id i =>
      obtain ⟨_, _, hEdit, hEnd⟩ := Step.bind_ok.mp h
      obtain ⟨rfl, rfl⟩ := Step.pure_ok.mp hEnd
      obtain ⟨position, _, hRequire, hEdit⟩ := Step.bind_ok.mp hEdit
      obtain ⟨hPosition, rfl⟩ := require_ok.mp hRequire
      obtain rfl := Step.modify_ok.mp hEdit
      exact .of_modify hPosition (fun _ _ => rfl) fun _ => rfl
  | replaceWith id seq =>
      obtain ⟨_, _, hEdit, hEnd⟩ := Step.bind_ok.mp h
      obtain ⟨rfl, rfl⟩ := Step.pure_ok.mp hEnd
      exact effect_replaceWith hEdit
  | remove id =>
      obtain ⟨_, _, hEdit, hEnd⟩ := Step.bind_ok.mp h
      obtain ⟨rfl, rfl⟩ := Step.pure_ok.mp hEnd
      exact .of_remove hEdit
  | setOperand id operand =>
      obtain ⟨_, _, hEdit, hEnd⟩ := Step.bind_ok.mp h
      obtain ⟨rfl, rfl⟩ := Step.pure_ok.mp hEnd
      obtain ⟨position, _, hRequire, hEdit⟩ := Step.bind_ok.mp hEdit
      obtain ⟨hPosition, rfl⟩ := require_ok.mp hRequire
      obtain rfl := Step.modify_ok.mp hEdit
      exact .of_modify hPosition (fun _ h => h) fun _ => rfl
  | addLocal type =>
      obtain ⟨_, _, hEdit, hEnd⟩ := Step.bind_ok.mp h
      obtain ⟨rfl, rfl⟩ := Step.pure_ok.mp hEnd
      simp only [addLocal, Step.bind_ok, Step.get_ok, Step.set_ok, Step.pure_ok] at hEdit
      obtain ⟨_, _, ⟨rfl, rfl⟩, _, _, rfl, -, rfl⟩ := hEdit
      exact .of_ids rfl rfl (Or.inr (Nat.lt_succ_self _)) (List.subset_append_left ..)
  | shiftArguments first amount =>
      obtain ⟨_, _, hEdit, hEnd⟩ := Step.bind_ok.mp h
      obtain ⟨rfl, rfl⟩ := Step.pure_ok.mp hEnd
      obtain rfl := Step.modify_ok.mp hEdit
      apply Effect.of_ids (shiftArguments_ids ..)
      · unfold shiftArguments
        split <;> rfl
      · unfold shiftArguments
        split
        · exact Or.inl rfl
        · exact Or.inr (Nat.lt_succ_self _)
      · rw [shiftArguments_references]
        exact List.subset_append_left ..
  | addHandler handler =>
      obtain ⟨_, _, hEdit, hEnd⟩ := Step.bind_ok.mp h
      obtain ⟨rfl, rfl⟩ := Step.pure_ok.mp hEnd
      obtain rfl := Step.modify_ok.mp hEdit
      refine .of_ids rfl rfl (Or.inr (Nat.lt_succ_self _)) ?_
      simp [references, BodyChange.given]

section Failure

theorem looks_require : Keeps Eq (require id) := fun _ _ _ h => (require_ok.mp h).2

theorem atomic_require : Atomic (require id) := by
  apply Atomic.bind (.of_succeeds fun s => ⟨s, s, rfl⟩) Keeps.get
  intro b
  split
  · exact .of_succeeds fun s => ⟨_, s, rfl⟩
  · exact .throw _

theorem atomic_modify {f : Nat → MethodBody → MethodBody} :
    Atomic (require id >>= fun position => modify (f position)) :=
  atomic_require.bind_succeeds fun position s => ⟨_, f position s, rfl⟩

theorem atomic_remove : Atomic (remove id) := by
  apply atomic_require.bind looks_require
  intro position
  apply Atomic.bind (.of_succeeds fun s => ⟨s, s, rfl⟩) Keeps.get
  intro b
  dsimp only
  split
  · exact .of_succeeds fun s => ⟨_, _, rfl⟩
  · split
    · exact .throw _
    · exact .of_succeeds fun s => ⟨_, _, rfl⟩

/-- An edit checks all it has to before it changes anything. -/
theorem atomic_run (c : BodyChange) : Atomic c.run := by
  cases c with
  | insertBefore anchor seq =>
      apply atomic_require.bind_succeeds
      intro position b
      split
      · exact ⟨_, _, rfl⟩
      · exact ⟨_, _, rfl⟩
  | insertAfter anchor seq => exact atomic_require.bind_succeeds fun _ _ => ⟨_, _, rfl⟩
  | push seq => exact .of_succeeds fun _ => ⟨_, _, rfl⟩
  | replace id i => exact atomic_modify.bind_succeeds fun _ b => ⟨[], b, rfl⟩
  | replaceWith id seq =>
      apply Atomic.bind_succeeds
      · apply atomic_require.bind looks_require
        intro position
        cases seq with
        | nil => exact atomic_remove.bind_succeeds fun _ b => ⟨[], b, rfl⟩
        | cons first rest => exact .of_succeeds fun _ => ⟨_, _, rfl⟩
      · exact fun ids b => ⟨ids.tail, b, rfl⟩
  | remove id => exact atomic_remove.bind_succeeds fun _ b => ⟨[], b, rfl⟩
  | setOperand id operand => exact atomic_modify.bind_succeeds fun _ b => ⟨[], b, rfl⟩
  | addLocal type => exact .of_succeeds fun _ => ⟨_, _, rfl⟩
  | shiftArguments first amount => exact .of_succeeds fun _ => ⟨_, _, rfl⟩
  | addHandler handler => exact .of_succeeds fun _ => ⟨_, _, rfl⟩

end Failure

section Evolution

variable {c : BodyChange} {changes : List BodyChange}

/-- An edit succeeds, or fails and leaves the body as it was. -/
theorem after_cases (b : MethodBody) (c : BodyChange) :
    (∃ fresh, c.run b = .ok fresh (b.after c)) ∨ b.after c = b := by
  rcases ends_endState c.run b with ⟨fresh, hRun⟩ | ⟨e, hRun⟩
  · exact Or.inl ⟨fresh, hRun⟩
  · exact Or.inr (atomic_run c hRun)

theorem effect_after (b : MethodBody) (c : BodyChange) :
    ∃ fresh, Effect b c.given fresh (b.after c) := by
  rcases after_cases b c with ⟨fresh, hRun⟩ | hSame
  · exact ⟨fresh, effect_run hRun⟩
  · rw [hSame]
    exact ⟨[], .of_ids rfl rfl (Or.inl rfl) (List.subset_append_left ..)⟩

/-- Each edit that changes a body advances its revision. -/
theorem later_of_ends (h : Ends c.run b b') : b.Later b' := by
  rcases h with ⟨fresh, hRun⟩ | ⟨e, hRun⟩
  · exact (effect_run hRun).later
  · exact Or.inl (atomic_run c hRun)

theorem later_after (b : MethodBody) (c : BodyChange) : b.Later (b.after c) :=
  later_of_ends (ends_endState c.run b)

theorem Numbered.after (h : b.Numbered) (c : BodyChange) : (b.after c).Numbered := by
  obtain ⟨fresh, hEffect⟩ := effect_after b c
  exact hEffect.numbered h

theorem lt_freshAfter {code : List Instruction} {i : Instruction} (h : i ∈ code) :
    i.id.index < freshAfter code := by
  let rise (next : Nat) (i : Instruction) : Nat := max next (i.id.index + 1)
  have hRises (code : List Instruction) (next : Nat) : next ≤ code.foldl rise next := by
    induction code generalizing next with
    | nil => exact Nat.le_refl _
    | cons j code ih => exact Nat.le_trans (Nat.le_max_left ..) (ih (rise next j))
  obtain ⟨earlier, later, rfl⟩ := List.append_of_mem h
  unfold freshAfter
  rw [List.foldl_append, List.foldl_cons]
  exact Nat.lt_of_lt_of_le (Nat.le_max_right ..) (hRises later _)

theorem Initial.numbered (h : b.Initial) : b.Numbered := by
  cases h with
  | empty => exact ⟨List.nodup_nil, fun _ h => (List.not_mem_nil h).elim⟩
  | ofParts locals handlers distinct => exact ⟨distinct, fun _ h => lt_freshAfter h⟩

theorem Numbered.evolve (h : b.Numbered) (changes : List BodyChange) :
    (b.evolve changes).Numbered := by
  induction changes generalizing b with
  | nil => exact h
  | cons c changes ih => exact ih (h.after c)

theorem later_evolve (b : MethodBody) (changes : List BodyChange) :
    b.Later (b.evolve changes) := by
  induction changes generalizing b with
  | nil => exact Or.inl rfl
  | cons c changes ih => exact IsTrans.trans _ _ _ (later_after b c) (ih (b.after c))

/-- Numbers that were handed out stay below the next one, also where their instructions went. -/
theorem nextId_le_evolve (b : MethodBody) (changes : List BodyChange) :
    b.nextId ≤ (b.evolve changes).nextId := by
  induction changes generalizing b with
  | nil => exact Nat.le_refl _
  | cons c changes ih =>
      obtain ⟨fresh, hEffect⟩ := effect_after b c
      exact Nat.le_trans hEffect.next (ih (b.after c))

theorem evolve_append (b : MethodBody) (earlier later : List BodyChange) :
    b.evolve (earlier ++ later) = (b.evolve earlier).evolve later :=
  List.foldl_append ..

/-- A number that is not below the next one is in no body of the past. -/
theorem Numbered.unused (h : b.Numbered) {earlier : List BodyChange} (hEarlier : earlier <+: changes)
    (hId : (b.evolve changes).nextId ≤ id.index) : id ∉ (b.evolve earlier).ids := by
  obtain ⟨later, rfl⟩ := hEarlier
  intro hMem
  obtain ⟨i, hPresent, rfl⟩ := List.mem_map.mp hMem
  have hBelow : i.id.index < (b.evolve earlier).nextId := (h.evolve earlier).below i hPresent
  have hNext : (b.evolve earlier).nextId ≤ ((b.evolve earlier).evolve later).nextId :=
    nextId_le_evolve (b.evolve earlier) later
  rw [evolve_append] at hId
  omega

/-- Each edit is given references to instructions that are there at the time. -/
def Supplied (b : MethodBody) (changes : List BodyChange) : Prop :=
  ∀ earlier c, earlier ++ [c] <+: changes → c.given ⊆ (b.evolve earlier).ids

theorem supplied_nil : b.Supplied [] := by
  intro earlier c hPrefix
  have hLength := hPrefix.length_le
  simp at hLength

theorem supplied_cons : b.Supplied (c :: changes) ↔
    c.given ⊆ b.ids ∧ (b.after c).Supplied changes := by
  constructor
  · intro h
    refine ⟨h [] c (List.prefix_append [c] changes), fun earlier d hPrefix => ?_⟩
    exact h (c :: earlier) d (List.cons_prefix_cons.mpr ⟨rfl, hPrefix⟩)
  · rintro ⟨hGiven, hRest⟩ earlier d hPrefix
    cases earlier with
    | nil =>
        obtain ⟨rfl, -⟩ := List.cons_prefix_cons.mp hPrefix
        exact hGiven
    | cons e earlier =>
        obtain ⟨rfl, hEarlier⟩ := List.cons_prefix_cons.mp hPrefix
        exact hRest earlier d hEarlier

/-- No edit lets a reference dangle. -/
theorem Numbered.closed_evolve (h : b.Numbered) (hClosed : b.references ⊆ b.ids)
    (hSupplied : b.Supplied changes) :
    (b.evolve changes).references ⊆ (b.evolve changes).ids := by
  induction changes generalizing b with
  | nil => exact hClosed
  | cons c changes ih =>
      obtain ⟨hGiven, hRest⟩ := supplied_cons.mp hSupplied
      obtain ⟨fresh, hEffect⟩ := effect_after b c
      exact ih (h.after c) (hEffect.closed h hClosed hGiven) hRest

end Evolution

/-- A loop inside a protected region. -/
def guardedLoop : MethodBody :=
  ofParts [⟨⟨0⟩, .nop, .none⟩, ⟨⟨1⟩, .br, .target ⟨0⟩⟩, ⟨⟨2⟩, .ret, .none⟩] []
    [⟨none, ⟨0⟩, ⟨1⟩, ⟨1⟩, ⟨2⟩⟩]

/-- Edits that move the references of the loop along. The last instruction is named by the region,
so that it cannot be taken out; the fourth edit fails. -/
def loopChanges : List BodyChange :=
  [.insertBefore ⟨0⟩ [.plain .nop], .remove ⟨0⟩, .replaceWith ⟨1⟩ [], .remove ⟨2⟩,
    .push [.unplaced .br (.target ⟨2⟩)]]

end MethodBody

end ContextBinding
