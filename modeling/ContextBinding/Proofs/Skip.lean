import ContextBinding.Proofs.Closure
import ContextBinding.Proofs.Graph

/-! Captures that are left alone. Looking for the cache of a callable may take
 instructions out of the code before the capture turns out to have no known
 shape; what is left reaches nothing new. -/

namespace ContextBinding

namespace MethodBody

/-- All that the later code reaches was reached before. -/
def NamesWithin (b b' : MethodBody) : Prop :=
  ∀ i' ∈ b'.instructions, ∃ i ∈ b.instructions, ∀ o, i.reached o = i'.reached o

instance : IsPreorder MethodBody NamesWithin where
  refl _ i hMem := ⟨i, hMem, fun _ => rfl⟩
  trans _ _ _ h h' i'' hMem'' := by
    obtain ⟨i', hMem', hSame'⟩ := h' i'' hMem''
    obtain ⟨i, hMem, hSame⟩ := h i' hMem'
    exact ⟨i, hMem, fun o => (hSame o).trans (hSame' o)⟩

theorem reached_retarget (i : Instruction) (source target : InstrId) (o : OverrideGraph) :
    (i.retarget source target).reached o = i.reached o := by
  have hName : (i.retarget source target).reference? = i.reference? := by
    unfold Instruction.retarget Instruction.reference? Instruction.method? Operand.mapTargets
    cases i.opcode <;> cases i.operand <;> rfl
  unfold Instruction.reached
  rw [hName]
  rfl

/-- Taking an instruction out reaches nothing new. -/
theorem keeps_remove {id : InstrId} : Keeps NamesWithin (remove id) := by
  intro b i b' h
  unfold remove at h
  obtain ⟨position, _, hRequire, h⟩ := Step.bind_ok.mp h
  obtain ⟨-, rfl⟩ := require_ok.mp hRequire
  obtain ⟨_, _, hGet, h⟩ := Step.bind_ok.mp h
  obtain ⟨rfl, rfl⟩ := Step.get_ok.mp hGet
  cases hNext : b.at? (position + 1) with
  | some next =>
      simp only [hNext, Step.bind_ok, Step.set_ok, Step.pure_ok] at h
      obtain ⟨_, _, rfl, -, rfl⟩ := h
      intro j' hMem'
      obtain ⟨j, hMem, rfl⟩ := List.mem_map.mp (List.mem_of_mem_eraseIdx hMem')
      exact ⟨j, hMem, fun o => (reached_retarget j id next.id o).symm⟩
  | none =>
      simp only [hNext] at h
      split at h
      · exact (Step.throw_ok.mp h).elim
      · simp only [Step.bind_ok, Step.set_ok, Step.pure_ok] at h
        obtain ⟨_, _, rfl, -, rfl⟩ := h
        exact fun j hMem => ⟨j, List.mem_of_mem_eraseIdx hMem, fun _ => rfl⟩

end MethodBody

namespace Program

/-- Code that reaches nothing new leaves what a program reaches as it is. -/
theorem Names.of_editBody {α : Type} {id : MethodId} {e : BodyEdit α} {a : α} {p q : Program}
    {o : OverrideGraph} (he : Keeps MethodBody.NamesWithin e) (h : editBody id e p = .ok a q)
    {caller callee : MethodId} (hNames : q.Names o caller callee) : p.Names o caller callee := by
  obtain ⟨m, b, b', hMethod, hBody, hEdit, rfl⟩ := editBody_ok h
  obtain ⟨c, i', hLive, hMem, hName⟩ := hNames
  obtain ⟨m', hMethod', hUsed, hBody'⟩ := liveBody?_eq_some.mp hLive
  rw [putBody, method?_modify] at hMethod'
  obtain ⟨m₀, hMethod₀, rfl⟩ := Option.map_eq_some_iff.mp hMethod'
  have hMethod₀ : p.method? caller = some m₀ := hMethod₀
  by_cases hSame : id = caller
  · subst hSame
    obtain rfl : m = m₀ := Option.some_inj.mp (hMethod.symm.trans hMethod₀)
    simp only [if_true] at hUsed hBody'
    obtain rfl : b' = c := Option.some_inj.mp hBody'
    obtain ⟨i, hMem, hSame⟩ := he hEdit i' hMem
    exact ⟨b, i, liveBody?_eq_some.mpr ⟨m, hMethod, hUsed, hBody⟩, hMem, hSame o ▸ hName⟩
  · simp only [if_neg hSame] at hUsed hBody'
    exact ⟨c, i', liveBody?_eq_some.mpr ⟨m₀, hMethod₀, hUsed, hBody'⟩, hMem, hName⟩

end Program

namespace ClosureEdit

/-- Only the methods that are the run's own reach something new. -/
structure NamesOwn (s t : Closures × Workspace) : Prop where
  keyed : t.1.Keyed
  owned : ∀ type, s.1.Owns type → t.1.Owns type
  grows : s.2.program.Grows t.2.program
  names : ∀ o caller callee, t.2.program.Names o caller callee →
    s.2.program.Names o caller callee ∨
      ∃ m, t.2.program.method? caller = some m ∧ t.1.Owns m.owner

/-- The change lets no other code reach something new. -/
def NamesWithin (s t : Closures × Workspace) : Prop := s.1.Keyed → NamesOwn s t

instance : IsPreorder (Closures × Workspace) NamesWithin where
  refl _ h := ⟨h, fun _ => id, .refl _, fun _ _ _ => Or.inl⟩
  trans _ _ _ h h' hKeyed := by
    have h := h hKeyed
    have h' := h' h.keyed
    refine ⟨h'.keyed, fun type hType => h'.owned type (h.owned type hType),
      h.grows.trans h'.grows, fun o caller callee hNames => ?_⟩
    rcases h'.names o caller callee hNames with hNames | hOwn
    · rcases h.names o caller callee hNames with hNames | ⟨m, hMethod, hOwn⟩
      · exact Or.inl hNames
      · obtain ⟨m', hMethod', hStep⟩ := h'.grows.method hMethod
        exact Or.inr ⟨m', hMethod', hStep.owner ▸ h'.owned _ hOwn⟩
    · exact Or.inr hOwn

/-- An edit of no code. -/
theorem Confined.namesWithin {s t : Closures × Workspace} (h : Confined (fun _ => False) s t) :
    NamesWithin s t := by
  intro hKeyed
  obtain ⟨hKeyed', hLearns, -, -, hProgram⟩ := h.adapted hKeyed
  refine ⟨hKeyed', hLearns.owned, hProgram.grows, ?_⟩
  rintro o caller callee ⟨b, i, hLive, hMem, hName⟩
  obtain ⟨m', hMethod', hUsed', hBody'⟩ := Program.liveBody?_eq_some.mp hLive
  rcases hProgram.code caller m' hMethod' with ⟨m, hMethod, hBody | hFalse⟩ | ⟨-, hOwn⟩
  · have hStep := hProgram.grows.method_persists hMethod hMethod'
    have hUsed := hStep.used hUsed'
    refine Or.inl ⟨b, i, Program.liveBody?_eq_some.mpr ⟨m, hMethod, hUsed, ?_⟩, hMem, hName⟩
    exact hBody ▸ hBody'
  · exact hFalse.elim
  · exact Or.inr ⟨m', hMethod', hOwn⟩

/-- A step that edits no code lets no code reach something new. -/
theorem keeps_namesWithin {α : Type} {x : ClosureEdit α}
    (h : Keeps (Confined fun _ => False) x) : Keeps NamesWithin x :=
  h.mono fun _ _ h => h.namesWithin

/-- Taking out a cache reaches nothing new. -/
theorem keeps_expandCache_names {method : MethodId} {construct : InstrId} :
    Keeps NamesWithin (expandCache method construct) := by
  refine Keeps.bind (keeps_namesWithin keeps_receiverPaths) fun paths => ?_
  split
  · refine Keeps.bind (keeps_namesWithin (keeps_work fun N => CodeEdit.keeps_model)) fun b => ?_
    split
    · intro s u t h hKeyed
      obtain ⟨p, hEdit, rfl⟩ := edit_ok.mp h
      refine ⟨hKeyed, fun _ h => h, ?_, fun o caller callee hNames => Or.inl ?_⟩
      · exact (Program.keeps_editBody (S := fun _ => True) (N := fun _ => True) trivial
          MethodBody.revises_removeEach hEdit).grows
      · refine hNames.of_editBody (Keeps.forM fun id _ => ?_) hEdit
        exact Keeps.bind MethodBody.keeps_remove fun _ => Keeps.pure _
    · exact Keeps.pure _
  · exact Keeps.pure _

/-- A capture that is left alone reaches nothing new. -/
theorem adaptCapture_skipped {plan : ContextPlan} {site : RootedMethod} {pointer : InstrId}
    {b : Binding} : KeepsOn NamesWithin (· = .skipped) (adaptCapture plan site pointer b) := by
  have hRedirect (seq : List Instruction) (target : MethodId) :
      KeepsOn NamesWithin (· = .skipped) (redirect site.method pointer seq target) :=
    KeepsOn.bind_of_any fun _ _ _ _ h hSkipped => by
      rw [← (Step.pure_ok.mp h).1] at hSkipped
      cases hSkipped
  refine KeepsOn.bind (keeps_namesWithin (keeps_work fun N => CodeEdit.keeps_instruction))
    fun i => ?_
  refine KeepsOn.bind (keeps_namesWithin keeps_constructionOf?) fun construct => ?_
  cases construct with
  | none => exact .of_keeps (keeps_namesWithin keeps_unrecognized)
  | some construct =>
    refine KeepsOn.bind keeps_expandCache_names fun _ => ?_
    refine KeepsOn.bind (keeps_namesWithin keeps_receiverPaths) fun receiver => ?_
    refine KeepsOn.bind (keeps_namesWithin (keeps_work fun N => CodeEdit.keeps_model))
      fun body => ?_
    dsimp only
    split
    · refine KeepsOn.bind (keeps_namesWithin (keeps_work fun N => CodeEdit.keeps_bound))
        fun code => hRedirect _ _
    · exact KeepsOn.bind (keeps_namesWithin keeps_constructRecord) fun made => hRedirect _ _
    · refine KeepsOn.bind (keeps_namesWithin keeps_ownerOf) fun owner => ?_
      exact KeepsOn.bind (keeps_namesWithin keeps_constructRecord) fun made => hRedirect _ _
    · refine KeepsOn.bind (keeps_namesWithin keeps_ownerOf) fun owner => ?_
      refine KeepsOn.bind (keeps_namesWithin keeps_constructRecord) fun made => ?_
      refine KeepsOn.bind_of_any fun _ _ _ _ h hSkipped => ?_
      rw [← (Step.pure_ok.mp h).1] at hSkipped
      cases hSkipped
    · exact .of_keeps (keeps_namesWithin keeps_unrecognized)
    · exact .of_keeps (keeps_namesWithin keeps_unrecognized)

end ClosureEdit

end ContextBinding
