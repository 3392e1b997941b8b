import ContextBinding.Proofs.Patching
import ContextBinding.Proofs.TypeCopy

/-! What code names. Adapting code puts in names of what may be named only, declares more locals
behind those that were there, and lets every handler catch what it caught. -/

namespace ContextBinding

/-- An operand that names a member or a type. -/
def Operand.IsName : Operand → Prop
  | field _ | method _ | type _ => True
  | _ => False

/-- An operand that names what may be named. -/
def Scope.Mentions (S : Scope) : Operand → Prop
  | .field field => S.field field
  | .method method => S.call method ∨ S.target method
  | _ => False

theorem Operand.mapTargets_of_isName {operand : Operand} {f : InstrId → InstrId}
    (h : (operand.mapTargets f).IsName) : operand.mapTargets f = operand := by
  cases operand <;> first | rfl | exact h.elim

variable {S : Scope} {O O' : Operand → Prop}

theorem Instruction.Loads.mentions {i : Instruction} (h : i.Loads S) (hName : i.operand.IsName) :
    S.Mentions i.operand := by
  cases h with
  | plain _ hOperand | argument _ _ hOperand | slot _ _ hOperand =>
      rw [hOperand] at hName
      exact hName.elim
  | field _ field hField hOperand => exact hOperand ▸ hField
  | call _ method hCall hOperand => exact hOperand ▸ Or.inl hCall
  | target _ method hTarget hOperand => exact hOperand ▸ Or.inr hTarget

namespace MethodBody

/-- Code has the locals that other code has, maybe more, and handlers for the same exceptions. -/
structure Follows (b b' : MethodBody) : Prop where
  locals : b.locals <+: b'.locals
  caught : b'.handlers.map (·.caught) = b.handlers.map (·.caught)

instance : IsPreorder MethodBody Follows where
  refl _ := ⟨List.prefix_refl _, rfl⟩
  trans _ _ _ h h' := ⟨h.locals.trans h'.locals, h'.caught.trans h.caught⟩

theorem Shares.follows {b b' : MethodBody} (h : b.Shares b') : b.Follows b' :=
  ⟨h.locals ▸ List.prefix_refl _, by rw [h.handlers]⟩

/-- Later code follows the earlier code, and names what it named, and what is in `O`. -/
structure Augments (O : Operand → Prop) (b b' : MethodBody) : Prop extends b.Follows b' where
  names : ∀ i' ∈ b'.instructions, i'.operand.IsName →
    (∃ i ∈ b.instructions, i.operand = i'.operand) ∨ O i'.operand

instance : IsPreorder MethodBody (Augments O) where
  refl b := ⟨refl b, fun i hMem _ => Or.inl ⟨i, hMem, rfl⟩⟩
  trans _ _ _ h h' := by
    refine ⟨IsTrans.trans _ _ _ h.toFollows h'.toFollows, fun i hMem hName => ?_⟩
    rcases h'.names i hMem hName with ⟨j, hThere, hSame⟩ | hNew
    · exact hSame ▸ h.names j hThere (hSame ▸ hName)
    · exact Or.inr hNew

variable {b b' : MethodBody} {id : InstrId} {seq : List Instruction}

theorem Augments.mono (hO : ∀ operand, O operand → O' operand) (h : b.Augments O b') :
    b.Augments O' b' :=
  ⟨h.toFollows, fun i hMem hName => (h.names i hMem hName).imp_right (hO _)⟩

/-- An edit of the instructions alone. -/
theorem Augments.of_code (hLocals : b'.locals = b.locals)
    (hCaught : b'.handlers.map (·.caught) = b.handlers.map (·.caught))
    (h : ∀ i' ∈ b'.instructions, i'.operand.IsName →
      (∃ i ∈ b.instructions, i.operand = i'.operand) ∨ O i'.operand) : b.Augments O b' :=
  ⟨⟨hLocals ▸ List.prefix_refl _, hCaught⟩, h⟩

/-- Naming other instructions changes no name. -/
theorem augments_retarget (source target : InstrId) : b.Augments O (b.retarget source target) := by
  refine .of_code rfl (by simp [retarget, Handler.mapBoundaries]) fun i hMem hName => Or.inl ?_
  obtain ⟨j, hThere, rfl⟩ := List.mem_map.mp hMem
  exact ⟨j, hThere, (Operand.mapTargets_of_isName hName).symm⟩

theorem augments_splice {position : Nat} (hSeq : ∀ i ∈ seq, i.operand.IsName → O i.operand) :
    b.Augments O (b.splice position seq) := by
  refine .of_code rfl rfl fun i hMem hName => ?_
  rcases List.mem_append.mp hMem with hMem | hOld
  · rcases List.mem_append.mp hMem with hOld | hNew
    · exact Or.inl ⟨i, List.mem_of_mem_take hOld, rfl⟩
    · obtain ⟨j, hThere, hSame⟩ := mem_number_same hNew
      have hSame : i.operand = j.operand := by
        simpa using congrArg Instruction.operand hSame
      rw [hSame] at hName ⊢
      exact Or.inr (hSeq j hThere hName)
  · exact Or.inl ⟨i, List.mem_of_mem_drop hOld, rfl⟩

theorem augments_modify {position revision : Nat} {f : Instruction → Instruction}
    (hf : ∀ i : Instruction, (f i).operand.IsName → O (f i).operand) :
    b.Augments O { b with instructions := b.instructions.modify position f, revision } := by
  refine .of_code rfl rfl fun i hMem hName => ?_
  obtain ⟨k, hk, rfl⟩ := List.mem_iff_getElem.mp hMem
  simp only [List.getElem_modify] at hName ⊢
  split at hName
  · rename_i hHere
    simp only [hHere, if_true]
    exact Or.inr (hf _ hName)
  · rename_i hOther
    simp only [hOther, if_false]
    exact Or.inl ⟨_, List.getElem_mem _, rfl⟩

theorem augments_insertBefore (hSeq : ∀ i ∈ seq, i.operand.IsName → O i.operand) :
    Keeps (Augments O) (insertBefore id seq) := by
  intro b ids b' h
  obtain ⟨position, _, hRequire, h⟩ := Step.bind_ok.mp h
  obtain ⟨-, rfl⟩ := require_ok.mp hRequire
  split at h
  · exact (Step.pure_ok.mp h).2 ▸ refl b
  · simp only [Step.bind_ok, Step.get_ok, Step.set_ok, Step.pure_ok] at h
    obtain ⟨_, _, ⟨rfl, rfl⟩, _, _, rfl, -, rfl⟩ := h
    exact IsTrans.trans _ _ _ (augments_retarget ..) (augments_splice hSeq)

theorem augments_insertAfter (hSeq : ∀ i ∈ seq, i.operand.IsName → O i.operand) :
    Keeps (Augments O) (insertAfter id seq) := by
  intro b ids b' h
  obtain ⟨position, _, hRequire, h⟩ := Step.bind_ok.mp h
  obtain ⟨-, rfl⟩ := require_ok.mp hRequire
  simp only [Step.bind_ok, Step.get_ok, Step.set_ok, Step.pure_ok] at h
  obtain ⟨_, _, ⟨rfl, rfl⟩, _, _, rfl, -, rfl⟩ := h
  exact augments_splice hSeq

theorem augments_addLocal {type : TypeRef} : Keeps (Augments O) (addLocal type) := by
  intro b index b' h
  simp only [addLocal, Step.bind_ok, Step.get_ok, Step.set_ok, Step.pure_ok] at h
  obtain ⟨_, _, ⟨rfl, rfl⟩, _, _, rfl, -, rfl⟩ := h
  exact ⟨⟨List.prefix_append .., rfl⟩, fun i hMem _ => Or.inl ⟨i, hMem, rfl⟩⟩

theorem augments_replace {i : Instruction} (hNew : i.operand.IsName → O i.operand) :
    Keeps (Augments O) (replace id i) := by
  intro b u b' h
  obtain ⟨position, _, hRequire, h⟩ := Step.bind_ok.mp h
  obtain ⟨-, rfl⟩ := require_ok.mp hRequire
  obtain rfl := Step.modify_ok.mp h
  exact augments_modify fun _ => hNew

theorem augments_setOperand {operand : Operand} (hNew : operand.IsName → O operand) :
    Keeps (Augments O) (setOperand id operand) := by
  intro b u b' h
  obtain ⟨position, -, rfl⟩ := setOperand_ok.mp h
  exact augments_modify fun _ => hNew

theorem augments_remove : Keeps (Augments O) (remove id) := by
  have hCut {b : MethodBody} {position revision : Nat} : b.Augments O { b with
      instructions := b.instructions.eraseIdx position, revision } :=
    .of_code rfl rfl fun i hMem _ => Or.inl ⟨i, List.mem_of_mem_eraseIdx hMem, rfl⟩
  intro b i b' h
  unfold remove at h
  obtain ⟨position, _, hRequire, h⟩ := Step.bind_ok.mp h
  obtain ⟨-, rfl⟩ := require_ok.mp hRequire
  obtain ⟨_, _, hGet, h⟩ := Step.bind_ok.mp h
  obtain ⟨rfl, rfl⟩ := Step.get_ok.mp hGet
  cases hNext : b.at? (position + 1) with
  | some next =>
      simp only [hNext, Step.bind_ok, Step.set_ok, Step.pure_ok] at h
      obtain ⟨_, _, rfl, -, rfl⟩ := h
      exact IsTrans.trans _ _ _ (augments_retarget ..) hCut
  | none =>
      simp only [hNext] at h
      split at h
      · exact (Step.throw_ok.mp h).elim
      · simp only [Step.bind_ok, Step.set_ok, Step.pure_ok] at h
        obtain ⟨_, _, rfl, -, rfl⟩ := h
        exact hCut

theorem augments_replaceWith (hSeq : ∀ i ∈ seq, i.operand.IsName → O i.operand) :
    Keeps (Augments O) (replaceWith id seq) := by
  intro b ids b' h
  obtain ⟨position, _, hRequire, h⟩ := Step.bind_ok.mp h
  obtain ⟨-, rfl⟩ := require_ok.mp hRequire
  cases seq with
  | nil =>
      obtain ⟨i, _, hRemove, h⟩ := Step.bind_ok.mp h
      obtain ⟨-, rfl⟩ := Step.pure_ok.mp h
      exact augments_remove hRemove
  | cons first rest =>
      simp only [Step.bind_ok, Step.get_ok, Step.set_ok, Step.pure_ok] at h
      obtain ⟨_, _, ⟨rfl, rfl⟩, _, _, rfl, -, rfl⟩ := h
      have hSet : b.Augments O
          { b with instructions := b.instructions.set position { first with id := id } } := by
        have hModify : b.Augments O { b with
            instructions := b.instructions.modify position fun _ => { first with id := id } } :=
          augments_modify fun _ => hSeq first (List.mem_cons_self ..)
        rwa [List.modify_eq_set] at hModify
      exact IsTrans.trans _ _ _ hSet
        (augments_splice fun i hMem => hSeq i (List.mem_cons_of_mem _ hMem))

theorem augments_shiftArguments (first amount : Nat) :
    b.Augments O (b.shiftArguments first amount) := by
  unfold MethodBody.shiftArguments
  split
  · exact refl b
  · refine .of_code rfl rfl fun i hMem hName => Or.inl ?_
    obtain ⟨j, hThere, rfl⟩ := List.mem_map.mp hMem
    refine ⟨j, hThere, ?_⟩
    unfold shiftArgument at hName ⊢
    split
    · split
      · rename_i hOperand hShift
        rw [hOperand] at hName
        simp only [hShift, if_true] at hName
        exact hName.elim
      · rfl
    · rfl

/-- Adapting code augments it with what may be named. -/
theorem Patch.augments (h : Patch S b b') : b.Augments S.Mentions b' := by
  obtain ⟨c, fresh, hAdapts, hRun⟩ := h
  have hLoads {seq : List Instruction} (hSeq : ∀ i ∈ seq, i.Loads S) :
      ∀ i ∈ seq, i.operand.IsName → S.Mentions i.operand := fun i hMem => (hSeq i hMem).mentions
  cases hAdapts with
  | insertBefore anchor hSeq => exact augments_insertBefore (hLoads hSeq) hRun
  | insertAfter anchor hSeq => exact augments_insertAfter (hLoads hSeq) hRun
  | addLocal type => exact Keeps.bind augments_addLocal (fun _ => Keeps.pure _) hRun
  | replace _ hNew => exact Keeps.bind (augments_replace hNew.mentions) (fun _ => Keeps.pure _) hRun
  | replaceWith _ hSeq =>
      exact Keeps.bind (augments_replaceWith (hLoads hSeq)) (fun _ => Keeps.pure _) hRun
  | setOperand _ hCall =>
      exact Keeps.bind (augments_setOperand fun _ => Or.inl hCall) (fun _ => Keeps.pure _) hRun
  | redirect _ hTarget =>
      exact Keeps.bind (augments_setOperand fun _ => Or.inr hTarget) (fun _ => Keeps.pure _) hRun
  | repoint _ hTarget =>
      exact Keeps.bind (augments_replace fun _ => Or.inr hTarget) (fun _ => Keeps.pure _) hRun
  | remove _ => exact Keeps.bind augments_remove (fun _ => Keeps.pure _) hRun

theorem Patches.augments (h : Patches S b b') : b.Augments S.Mentions b' := by
  induction h with
  | refl => exact refl b
  | tail _ hPatch ih => exact IsTrans.trans _ _ _ ih hPatch.augments

end MethodBody

end ContextBinding
