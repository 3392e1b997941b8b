import ContextBinding.Proofs.Advance
import ContextBinding.Proofs.Rederivation
import ContextBinding.Proofs.Skip

/-! The reference graph of a run covers the code. Whatever the code of a method
 reaches is listed at each point of the run, except for methods that were changed
 and not derived anew yet, and for methods that came with a capture record or
 with the copy of a display class. -/

namespace ContextBinding

namespace Propagation

variable {o : OverrideGraph}

/-- A method that came with a capture record or with the copy of a display class. -/
def Own (s : Propagation) (id : MethodId) : Prop :=
  ∃ m, s.program.method? id = some m ∧ s.closures.Owns m.owner

/-- Nothing was bound that a virtual call may be dispatched to, or such calls do
not matter. -/
def Dormant (o : OverrideGraph) (s : Propagation) : Prop :=
  o = .empty ∨ ∀ method b m, s.bindings.get? method = some b →
    s.program.method? method = some m → m.isVirtual = false

theorem Dormant.of_advances {s t : Propagation} (h : t.Dormant o) (hAdvances : s.Advances t) :
    s.Dormant o := by
  refine h.imp_right fun h method b m hBound hMethod => ?_
  obtain ⟨m', hMethod', hStep⟩ := hAdvances.grows.method hMethod
  exact hStep.isVirtual.symm.trans (h method b m' (hAdvances.bindings method b hBound) hMethod')

/-- Outside of the methods in `S`, and of those that are the run's own, the graph
lists what the code reaches, with the caller and with what is reached alike. Virtual
calls are followed as far as `o` tells. -/
structure Covered (o : OverrideGraph) (S : MethodId → Prop) (s : Propagation) : Prop where
  keyed : s.closures.Keyed
  agrees : s.graph.Agrees
  within : o.Within s.graph.overrides
  lists : ∀ caller callee, s.program.Names o caller callee →
    S caller ∨ s.Own caller ∨ s.graph.Lists caller callee

namespace Covered

variable {S S' : MethodId → Prop} {s t : Propagation}

theorem mono (hS : ∀ id, S id → S' id) (h : s.Covered o S) : s.Covered o S' :=
  { h with lists := fun caller callee hNames => (h.lists caller callee hNames).imp_left (hS caller) }

/-- A change of the program that keeps the graph, of code in `S'` and of methods
that are the run's own. -/
theorem change (h : s.Covered o S) (hKeyed : t.closures.Keyed)
    (hOwned : ∀ type, s.closures.Owns type → t.closures.Owns type)
    (hGrows : s.program.Grows t.program) (hGraph : t.graph = s.graph)
    (hCode : ∀ id m', t.program.method? id = some m' → S' id ∨ t.closures.Owns m'.owner ∨
      ∃ m, s.program.method? id = some m ∧ m'.body = m.body) :
    t.Covered o fun id => S id ∨ S' id := by
  refine ⟨hKeyed, hGraph ▸ h.agrees, hGraph ▸ h.within, ?_⟩
  rintro caller callee ⟨b, i, hLive, hMem, hName⟩
  obtain ⟨m', hMethod', hUsed', hBody'⟩ := Program.liveBody?_eq_some.mp hLive
  rcases hCode caller m' hMethod' with hIn | hOwn | ⟨m, hMethod, hBody⟩
  · exact Or.inl (Or.inr hIn)
  · exact Or.inr (Or.inl ⟨m', hMethod', hOwn⟩)
  · have hStep := hGrows.method_persists hMethod hMethod'
    have hUsed := hStep.used hUsed'
    have hBefore : s.program.Names o caller callee :=
      ⟨b, i, Program.liveBody?_eq_some.mpr ⟨m, hMethod, hUsed, hBody ▸ hBody'⟩, hMem, hName⟩
    rcases h.lists caller callee hBefore with hIn | ⟨m₀, hMethod₀, hOwn⟩ | hListed
    · exact Or.inl (Or.inl hIn)
    · obtain rfl : m = m₀ := Option.some_inj.mp (hMethod.symm.trans hMethod₀)
      exact Or.inr (Or.inl ⟨m', hMethod', hStep.owner ▸ hOwned _ hOwn⟩)
    · exact Or.inr (Or.inr (hGraph ▸ hListed))

theorem changed (h : s.Covered o S) (hEdited : s.Changed S' t) : t.Covered o fun id => S id ∨ S' id := by
  obtain ⟨hKeyed, hLearns, -, -, hProgram⟩ := hEdited.code h.keyed
  refine h.change hKeyed hLearns.owned hProgram.grows hEdited.graph fun id m' hMethod' => ?_
  rcases hProgram.code id m' hMethod' with ⟨m, hMethod, hBody | hIn⟩ | ⟨-, hOwn⟩
  · exact Or.inr (Or.inr ⟨m, hMethod, hBody⟩)
  · exact Or.inl hIn
  · exact Or.inr (Or.inl hOwn)

/-- An edit of no code. -/
theorem edited (h : s.Covered o S) (hEdited : s.Edited S' t) : t.Covered o fun id => S id ∨ S' id :=
  h.changed hEdited.toChanged

theorem unchanged (h : s.Covered o S) (hEdited : s.Changed (fun _ => False) t) : t.Covered o S :=
  (h.changed hEdited).mono fun _ h => h.elim id False.elim

theorem unedited (h : s.Covered o S) (hEdited : s.Edited (fun _ => False) t) : t.Covered o S :=
  h.unchanged hEdited.toChanged

end Covered

/-- Code that is covered outside of `S` stays so. -/
def Carries (o : OverrideGraph) (S : MethodId → Prop) (s t : Propagation) : Prop :=
  s.Covered o S → t.Covered o S

instance {S : MethodId → Prop} : IsPreorder Propagation (Carries o S) where
  refl _ := id
  trans _ _ _ h h' hCovered := h' (h hCovered)

/-- The run advances, and the code stays covered outside of `S`. -/
def StaysCovered (o : OverrideGraph) (S : MethodId → Prop) (s t : Propagation) : Prop :=
  s.closures.Keyed → s.Advances t ∧ (t.Dormant o → s.Carries o S t)

instance {S : MethodId → Prop} : IsPreorder Propagation (StaysCovered o S) where
  refl _ hKeyed := ⟨.refl hKeyed, fun _ => id⟩
  trans _ _ _ h h' hKeyed := by
    obtain ⟨hAdvances, hCovered⟩ := h hKeyed
    obtain ⟨hAdvances', hCovered'⟩ := h' hAdvances.keyed
    exact ⟨hAdvances.trans hAdvances', fun hDormant hStart =>
      hCovered' hDormant (hCovered (hDormant.of_advances hAdvances') hStart)⟩

end Propagation

namespace Propagate

open Propagation (Advanced Changed Edited Covered Carries StaysCovered)

variable {α : Type} {o : OverrideGraph} {S : MethodId → Prop} {s t : Propagation}

/-- A step that advances and leaves the code covered. -/
theorem stays {x : Propagate α} (hAdvances : Keeps Advanced x) (hCarries : Keeps (Carries o S) x) :
    Keeps (StaysCovered o S) x :=
  fun _ _ _ h hKeyed => ⟨hAdvances h hKeyed, fun _ => hCarries h⟩

/-- A step that edits no code leaves it covered. -/
theorem carries_unedited {x : Propagate α} (h : Keeps (Edited fun _ => False) x) :
    Keeps (Carries o S) x :=
  fun _ _ _ hRun hCovered => hCovered.unchanged (h hRun).toChanged

theorem stays_unedited {x : Propagate α} (h : Keeps (Edited fun _ => False) x) :
    Keeps (StaysCovered o S) x :=
  stays (advances_edited h) (carries_unedited h)

/-- Neither a binding nor a field of a display class changes any code. -/
theorem carries_bindMethod {b : Binding} : Keeps (Carries o S) (bindMethod b) := by
  intro s u t hRun h
  obtain ⟨m, -, rfl⟩ := bindMethod_ok hRun
  exact { h with lists := h.lists }

theorem carries_displayHandle? {method : MethodId} :
    Keeps (Carries o S) (displayHandle? method) := by
  intro s handle t hRun h
  rcases displayHandle?_ok hRun with rfl | ⟨m, field, p, -, -, -, -, -, hField, hEnd⟩
  · exact h
  · obtain ⟨-, hGrows, -, hMethods, -⟩ := Program.addField_ok hField
    have hProgram : t.program = p := by rw [hEnd]; rfl
    have hOwned : ∀ type, s.closures.Owns type → t.closures.Owns type := by
      rw [hEnd]
      exact fun _ h => h
    have hGraph : t.graph = s.graph := by rw [hEnd]; rfl
    have hKeyed := (advances_displayHandle? hRun h.keyed).keyed
    have hCode : ∀ id m', t.program.method? id = some m' → False ∨ t.closures.Owns m'.owner ∨
        ∃ m, s.program.method? id = some m ∧ m'.body = m.body := by
      intro id m' hMethod'
      rw [hProgram, Program.method?, hMethods] at hMethod'
      exact Or.inr (Or.inr ⟨m', hMethod', rfl⟩)
    exact (h.change hKeyed hOwned (hProgram ▸ hGrows) hGraph hCode).mono fun _ hIn => by simpa using hIn

/-- Deriving a caller anew covers it, and uncovers no other caller. -/
theorem rederive_covered {caller : MethodId} {u : Unit} (h : s.Covered o S)
    (hRun : graph (fun p => GraphEdit.rederive p caller) s = .ok u t) :
    t.Covered o fun id => S id ∧ id ≠ caller := by
  obtain ⟨v, hDerive, rfl⟩ := graph_ok.mp hRun
  obtain ⟨hOverrides, hOthers, hCaller⟩ := GraphEdit.rederive_lists (o := o) h.within hDerive
  refine ⟨h.keyed, GraphEdit.agrees_rederive (Or.inl ⟨_, hDerive⟩) h.agrees, fun target => ?_,
    fun other callee hNames => ?_⟩
  · change o.implementations target ⊆ v.1.overrides.implementations target
    rw [hOverrides]
    exact h.within target
  by_cases hSame : other = caller
  · subst hSame
    exact Or.inr (Or.inr (hCaller callee hNames))
  · rcases h.lists other callee hNames with hIn | hOwn | hListed
    · exact Or.inl ⟨hIn, hSame⟩
    · exact Or.inr (Or.inl hOwn)
    · exact Or.inr (Or.inr ((hOthers other callee hSame).mpr hListed))

/-- A change of one method that is derived anew right after it. -/
theorem edited_rederive_covered {caller : MethodId} {u : Unit} {v : Propagation}
    (h : s.Covered o S) (hEdited : Edited (· = caller) s t)
    (hRun : graph (fun p => GraphEdit.rederive p caller) t = .ok u v) : v.Covered o S := by
  refine (rederive_covered (h.changed hEdited.toChanged) hRun).mono fun id hIn => ?_
  exact hIn.1.resolve_right hIn.2

/-- Taking the override relation anew lists what was listed, if virtual calls do
not matter. -/
theorem rebuildOverrides_covered {u : Unit} (h : s.Covered o S) (hEmpty : o = .empty)
    (hRun : graph (fun p => GraphEdit.update fun g => g.rebuildOverrides p) s = .ok u t) :
    t.Covered o S := by
  obtain ⟨v, hUpdate, rfl⟩ := graph_ok.mp hRun
  obtain rfl := GraphEdit.update_ok.mp hUpdate
  exact ⟨h.keyed, h.agrees.of_same rfl rfl, hEmpty ▸ .empty _, h.lists⟩

/-- A place that is left as it is reaches nothing new. -/
theorem adaptSite_unchanged {site : RootedMethod} {place : NeedySite} :
    KeepsOn (Carries o S) (· = false) (adaptSite site place) := by
  have hChanged {β : Type} (x : Propagate β) :
      KeepsOn (Carries o S) (· = false) (do
        let _ ← x
        pure true) :=
    KeepsOn.bind_of_any fun _ _ _ _ h hFalse => by
      rw [← (Step.pure_ok.mp h).1] at hFalse
      cases hFalse
  unfold adaptSite
  cases place.need with
  | capture b =>
      refine KeepsOn.bind (carries_unedited keeps_count) fun _ => ?_
      refine KeepsOn.bind Keeps.get fun s => ?_
      intro s a t hRun hFalse h
      obtain ⟨outcome, s₁, hClosures, hRun⟩ := Step.bind_ok.mp hRun
      obtain ⟨u, hAdapt, rfl⟩ := Step.focus_ok.mp hClosures
      cases outcome with
      | redirected =>
          rw [← (Step.pure_ok.mp hRun).1] at hFalse
          cases hFalse
      | skipped =>
          obtain ⟨-, rfl⟩ := Step.pure_ok.mp hRun
          have hNames := ClosureEdit.adaptCapture_skipped hAdapt rfl h.keyed
          refine ⟨hNames.keyed, h.agrees, h.within, fun caller callee hNew => ?_⟩
          rcases hNames.names o caller callee hNew with hOld | hOwn
          · rcases h.lists caller callee hOld with hIn | ⟨m, hMethod, hOwn⟩ | hListed
            · exact Or.inl hIn
            · obtain ⟨m', hMethod', hStep⟩ := hNames.grows.method hMethod
              exact Or.inr (Or.inl ⟨m', hMethod', hStep.owner ▸ hNames.owned _ hOwn⟩)
            · exact Or.inr (Or.inr hListed)
          · exact Or.inr (Or.inl hOwn)
  | staticField context moved => exact hChanged _
  | singleton context => exact hChanged _
  | boundCall b => exact hChanged _
  | displayStore field => exact hChanged _

/-- Adapting a method leaves the code covered. -/
theorem carries_adaptInPlace {site : RootedMethod} {places : List NeedySite} :
    Keeps (Carries o S) (adaptInPlace site places) := by
  intro s u t hRun h
  unfold adaptInPlace at hRun
  obtain ⟨outcomes, s₁, hSites, hRun⟩ := Step.bind_ok.mp hRun
  split at hRun
  · obtain ⟨_, s₂, hCount, hRun⟩ := Step.bind_ok.mp hRun
    have hEdited : Edited (· = site.method) s s₁ :=
      Keeps.mapM (fun place _ => keeps_adaptSite (S := (· = site.method)) rfl) hSites
    have hCounted : Edited (· = site.method) s₁ s₂ := keeps_count hCount
    exact edited_rederive_covered h (IsTrans.trans _ _ _ hEdited hCounted) hRun
  · rename_i hNone
    obtain ⟨-, rfl⟩ := Step.pure_ok.mp hRun
    refine KeepsOn.mapM (fun place _ => adaptSite_unchanged) hSites (fun b hb => ?_) h
    have hCount : outcomes.countP id = 0 := by omega
    simpa using List.countP_eq_zero.mp hCount b hb

/-- All code but that of a new copy stays covered. -/
theorem makeCopy_covered {source copy : MethodId} {owner : TypeId} {name : String}
    {params : List TypeRef} {shape : MethodShape} (h : s.Covered o S)
    (hRun : makeCopy source owner name params shape s = .ok copy t) :
    t.Covered o fun id => S id ∨ id = copy := by
  unfold makeCopy at hRun
  obtain ⟨p, _, hProgram, hRun⟩ := Step.bind_ok.mp hRun
  obtain ⟨rfl, rfl⟩ := program_ok.mp hProgram
  obtain ⟨new, s₁, hClone, hRun⟩ := Step.bind_ok.mp hRun
  obtain ⟨q, hCloned, rfl⟩ := edit_ok.mp hClone
  obtain ⟨_, s₂, hMark, hRun⟩ := Step.bind_ok.mp hRun
  obtain ⟨rfl, rfl⟩ := Step.pure_ok.mp hRun
  obtain ⟨original, -, rfl, hGrows, -, hMethods⟩ := Program.cloneMethod_ok hCloned
  refine Covered.unchanged ?_ (changes_edit (fun N => keeps_markReplacement) hMark)
  refine h.change h.keyed (fun _ h => h) hGrows rfl fun id m' hMethod' => ?_
  have hMethod' : q.method? id = some m' := hMethod'
  rw [Program.method?, hMethods] at hMethod'
  rcases Nat.lt_trichotomy id.index s.program.methods.length with hOld | hNew | hOut
  · rw [List.getElem?_append_left hOld] at hMethod'
    exact Or.inr (Or.inr ⟨m', hMethod', rfl⟩)
  · exact Or.inl (by rw [← hNew])
  · rw [List.getElem?_eq_none (by rw [List.length_append]; exact hOut)] at hMethod'
    simp at hMethod'

/-- Retiring bound methods reports which of them are virtual. -/
theorem retireBound_ok {bound : List (MethodId × MethodId)} {virtuals : List Bool}
    (hRun : (bound.mapM fun e => do
      let m ← model fun p => p.methodDef e.1
      if (← get).options.retireReplaced && !m.isRetired then edit (Program.retireMethod e.1)
      pure m.isVirtual : Propagate (List Bool)) s = .ok virtuals t) (hKeyed : s.closures.Keyed) :
    virtuals.any id = true →
      ∃ e ∈ bound, ∃ m, t.program.method? e.1 = some m ∧ m.isVirtual = true := by
  let I (done : List Bool) (s : Propagation) : Prop := s.closures.Keyed ∧
    (true ∈ done → ∃ e ∈ bound, ∃ m, s.program.method? e.1 = some m ∧ m.isVirtual = true)
  suffices hEnd : I virtuals t from fun hAny => hEnd.2 (by simpa using hAny)
  have hStart : I [] s := ⟨hKeyed, fun h => (List.not_mem_nil h).elim⟩
  refine Step.mapM_induct (I := I) (fun e hMem done found s t h hRun => ?_) hStart hRun
  have hAdvances := advances_changed (S := fun _ => False) changes_retireBound hRun h.1
  refine ⟨hAdvances.keyed, fun hFound => ?_⟩
  rcases List.mem_append.mp hFound with hFound | hFound
  · obtain ⟨e', hMem', m, hMethod, hVirtual⟩ := h.2 hFound
    obtain ⟨m', hMethod', hStep⟩ := hAdvances.grows.method hMethod
    exact ⟨e', hMem', m', hMethod', hStep.isVirtual.trans hVirtual⟩
  · obtain rfl := List.mem_singleton.mp hFound
    obtain ⟨m, _, hModel, hRun⟩ := Step.bind_ok.mp hRun
    obtain ⟨hMethod, rfl⟩ := model_ok.mp hModel
    obtain ⟨m', hMethod', hStep⟩ := hAdvances.grows.method (Program.methodDef_ok.mp hMethod)
    refine ⟨e, hMem, m', hMethod', hStep.isVirtual.trans ?_⟩
    obtain ⟨_, _, hGet, hRun⟩ := Step.bind_ok.mp hRun
    obtain ⟨rfl, rfl⟩ := Step.get_ok.mp hGet
    split at hRun
    · obtain ⟨_, _, -, hRun⟩ := Step.bind_ok.mp hRun
      exact (Step.pure_ok.mp hRun).1
    · exact (Step.pure_ok.mp hRun).1

/-- Deriving the graph anew around bound methods covers those that stand in for
others. -/
theorem deriveBound_covered {bound : List (MethodId × MethodId)} {callers : List MethodId}
    {u : Unit} (h : s.Covered o fun id => S id ∨ ∃ e ∈ bound, e.2 = id)
    (hRun : (do
      bound.forM fun e => do
        graph fun p => GraphEdit.rederive p e.1
        graph fun p => GraphEdit.rederive p e.2
        if (← model fun p => p.methodDef e.2).body.isSome then modify (.enqueue [e.2])
        modify (.count fun n => { n with transitions := n.transitions + 1 })
      modify (.enqueue callers) : Propagate Unit) s = .ok u t) : t.Covered o S := by
  let I (rest : List (MethodId × MethodId)) (s : Propagation) : Prop :=
    s.Covered o fun id => S id ∨ ∃ e ∈ rest, e.2 = id
  obtain ⟨_, s₁, hAll, hRun⟩ := Step.bind_ok.mp hRun
  have hEnd : I [] s₁ := by
    refine Step.forM_induct (I := I) (fun e rest s u t h hRun => ?_) h hAll
    obtain ⟨_, s₂, hFirst, hRun⟩ := Step.bind_ok.mp hRun
    obtain ⟨_, s₃, hSecond, hRun⟩ := Step.bind_ok.mp hRun
    have h₃ := rederive_covered (rederive_covered h hFirst) hSecond
    refine (h₃.unedited ?_).mono fun id hIn => ?_
    · refine Keeps.bind keeps_model (fun m => ?_) hRun
      exact Keeps.ite (Keeps.bind keeps_enqueue fun _ => keeps_count) keeps_count
    · obtain ⟨⟨hIn, -⟩, hOther⟩ := hIn
      refine hIn.imp_right ?_
      rintro ⟨e', hMem, rfl⟩
      rcases List.mem_cons.mp hMem with rfl | hMem
      · exact (hOther rfl).elim
      · exact ⟨e', hMem, rfl⟩
  refine (hEnd.unedited (keeps_enqueue hRun)).mono fun id hIn => hIn.resolve_right (by simp)

/-- Completing a transition covers the methods that stand in for others. -/
theorem complete_covered {bound : List (MethodId × MethodId)} {u : Unit}
    (h : s.Covered o fun id => S id ∨ ∃ e ∈ bound, e.2 = id)
    (hBound : ∀ e ∈ bound, ∃ b, s.bindings.get? e.1 = some b)
    (hRun : complete bound s = .ok u t) (hDormant : t.Dormant o) : t.Covered o S := by
  have hAdvances := advances_complete hRun h.keyed
  unfold complete at hRun
  split at hRun
  · obtain ⟨_, _, hGet, hRun⟩ := Step.bind_ok.mp hRun
    obtain ⟨rfl, rfl⟩ := Step.get_ok.mp hGet
    obtain ⟨virtuals, s₁, hRetire, hRun⟩ := Step.bind_ok.mp hRun
    have h₁ := h.unchanged (Keeps.mapM (fun e _ => changes_retireBound) hRetire)
    split at hRun
    · rename_i hVirtuals
      obtain ⟨_, s₂, hOverrides, hRun⟩ := Step.bind_ok.mp hRun
      have hRest : s₁.Advances t :=
        (Keeps.bind advances_graph fun _ => advances_deriveBound) (Step.bind_ok.mpr
          ⟨_, s₂, hOverrides, hRun⟩) h₁.keyed
      obtain ⟨e, hMem, m, hMethod, hVirtual⟩ := retireBound_ok hRetire h.keyed hVirtuals
      have hEmpty : o = .empty := by
        refine hDormant.resolve_right fun hStill => ?_
        obtain ⟨m', hMethod', hStep⟩ := hRest.grows.method hMethod
        obtain ⟨b, hGet⟩ := hBound e hMem
        have hFalse := hStill e.1 b m' (hAdvances.bindings e.1 b hGet) hMethod'
        simp [hStep.isVirtual, hVirtual] at hFalse
      exact deriveBound_covered (rebuildOverrides_covered h₁ hEmpty hOverrides) hRun
    · exact deriveBound_covered h₁ hRun
  · rename_i hEmpty
    obtain ⟨-, rfl⟩ := Step.pure_ok.mp hRun
    obtain rfl : bound = [] := by simpa using hEmpty
    exact h.mono fun id hIn => hIn.resolve_right (by simp)

/-- Calling an init unit from a constructor leaves the code covered. -/
theorem carries_inlineInitUnit {constructor replacement : MethodId} :
    Keeps (Carries o S) (inlineInitUnit constructor replacement) := by
  intro s u t hRun h
  rcases inlineInitUnit_ok hRun with rfl | ⟨_, s₁, -, -, hEdited, hDerive⟩
  · exact h
  · exact edited_rederive_covered h hEdited hDerive

theorem carries_adoptInitUnit {context : ContextId} {method replacement : MethodId} :
    Keeps (Carries o S) (adoptInitUnit context method replacement) := by
  intro s u t hRun h
  unfold adoptInitUnit at hRun
  obtain ⟨_, _, hGet, hRun⟩ := Step.bind_ok.mp hRun
  obtain ⟨rfl, rfl⟩ := Step.get_ok.mp hGet
  split at hRun
  · obtain ⟨_, s₁, hSet, hRun⟩ := Step.bind_ok.mp hRun
    obtain rfl := Step.set_ok.mp hSet
    refine Keeps.ite carries_inlineInitUnit (Keeps.pure _) hRun ?_
    exact { h with lists := h.lists }
  · obtain ⟨-, rfl⟩ := Step.pure_ok.mp hRun
    exact h

/-- A method that moves to a context leaves all code covered but that of its
replacement. -/
theorem convertedReplacement_covered {method : MethodId} {context : ContextId}
    {made : MethodId × Bool} (h : s.Covered o S)
    (hRun : convertedReplacement method context s = .ok made t) :
    t.Covered o fun id => S id ∨ id = made.1 := by
  unfold convertedReplacement at hRun
  obtain ⟨_, _, hGet, hRun⟩ := Step.bind_ok.mp hRun
  obtain ⟨rfl, rfl⟩ := Step.get_ok.mp hGet
  cases hGiven : (s.plan.context context).replacementMethods.get? method with
  | some existing =>
      simp only [hGiven] at hRun
      obtain ⟨-, rfl⟩ := Step.pure_ok.mp hRun
      exact h.mono fun _ => Or.inl
  | none =>
      simp only [hGiven] at hRun
      obtain ⟨m, _, hModel, hRun⟩ := Step.bind_ok.mp hRun
      obtain ⟨-, rfl⟩ := model_ok.mp hModel
      obtain ⟨p, _, hProgram, hRun⟩ := Step.bind_ok.mp hRun
      obtain ⟨rfl, rfl⟩ := program_ok.mp hProgram
      cases hFound : s.program.findCopy? (s.plan.context context).generated m.name m.paramTypes
          false with
      | some existing =>
          simp only [hFound] at hRun
          obtain ⟨-, rfl⟩ := Step.pure_ok.mp hRun
          exact h.mono fun _ => Or.inl
      | none =>
          simp only [hFound] at hRun
          obtain ⟨copy, s₁, hCopy, hRun⟩ := Step.bind_ok.mp hRun
          obtain ⟨rfl, rfl⟩ := Step.pure_ok.mp hRun
          exact makeCopy_covered h hCopy

/-- Moving one method leaves all code covered but that of its replacement. -/
theorem convertOne_covered {context : ContextId} {method : MethodId}
    {made : Option (MethodId × MethodId)} (h : s.Covered o S)
    (hRun : convertOne context method s = .ok made t) :
    t.Covered o fun id => S id ∨ ∃ e ∈ made, e.2 = id := by
  unfold convertOne at hRun
  obtain ⟨_, _, hGet, hRun⟩ := Step.bind_ok.mp hRun
  obtain ⟨rfl, rfl⟩ := Step.get_ok.mp hGet
  split at hRun
  · obtain ⟨-, rfl⟩ := Step.pure_ok.mp hRun
    exact h.mono fun _ => Or.inl
  · obtain ⟨⟨replacement, fresh⟩, s₁, hMade, hRun⟩ := Step.bind_ok.mp hRun
    have h₁ := convertedReplacement_covered h hMade
    obtain ⟨_, s₂, hBind, hRun⟩ := Step.bind_ok.mp hRun
    have h₂ := carries_bindMethod hBind h₁
    have hEnd {s₃ : Propagation}
        (h₃ : s₃.Covered o fun id => S id ∨ id = replacement)
        (hRun : (do
          adoptInitUnit context method replacement
          pure (some (method, replacement)) : Propagate (Option (MethodId × MethodId))) s₃
            = .ok made t) : t.Covered o fun id => S id ∨ ∃ e ∈ made, e.2 = id := by
      obtain ⟨_, s₄, hAdopt, hRun⟩ := Step.bind_ok.mp hRun
      obtain ⟨rfl, rfl⟩ := Step.pure_ok.mp hRun
      refine (carries_adoptInitUnit hAdopt h₃).mono fun id hIn => hIn.imp_right ?_
      rintro rfl
      exact ⟨(method, id), rfl, rfl⟩
    split at hRun
    · obtain ⟨copied, s₃, hRelocate, hRun⟩ := Step.bind_ok.mp hRun
      obtain ⟨_, s₄, hEnqueue, hRun⟩ := Step.bind_ok.mp hRun
      have hEdited : Edited (· = replacement) s₂ s₃ :=
        keeps_closures (ClosureEdit.keeps_relocateDisplayClasses (S := (· = replacement)) rfl) hRelocate
      have h₄ := (h₂.edited hEdited).unedited (keeps_enqueue hEnqueue)
      exact hEnd (h₄.mono fun _ hIn => hIn.elim (fun h => h) Or.inr) hRun
    · exact hEnd h₂ hRun

theorem convertOne_bound {context : ContextId} {method : MethodId}
    {made : Option (MethodId × MethodId)} (hRun : convertOne context method s = .ok made t)
    (hKeyed : s.closures.Keyed) : ∀ e ∈ made, ∃ b, t.bindings.get? e.1 = some b := by
  unfold convertOne at hRun
  obtain ⟨_, _, hGet, hRun⟩ := Step.bind_ok.mp hRun
  obtain ⟨rfl, rfl⟩ := Step.get_ok.mp hGet
  split at hRun
  · obtain ⟨rfl, -⟩ := Step.pure_ok.mp hRun
    simp
  · obtain ⟨⟨replacement, fresh⟩, s₁, hMade, hRun⟩ := Step.bind_ok.mp hRun
    obtain ⟨_, s₂, hBind, hRun⟩ := Step.bind_ok.mp hRun
    have hKeyed₁ := (advances_convertedReplacement hMade hKeyed).keyed
    have hKeyed₂ := (advances_bindMethod hBind hKeyed₁).keyed
    have hEnd {s₃ : Propagation} (hLater : s₂.Advances s₃) (hRun : (do
        adoptInitUnit context method replacement
        pure (some (method, replacement)) : Propagate (Option (MethodId × MethodId))) s₃
          = .ok made t) : ∀ e ∈ made, ∃ b, t.bindings.get? e.1 = some b := by
      obtain ⟨_, s₄, hAdopt, hRun⟩ := Step.bind_ok.mp hRun
      obtain ⟨rfl, rfl⟩ := Step.pure_ok.mp hRun
      have hAdvances := hLater.trans (advances_adoptInitUnit hAdopt hLater.keyed)
      rintro e ⟨⟩
      exact ⟨_, hAdvances.bindings _ _ (bindMethod_bound hBind)⟩
    split at hRun
    · obtain ⟨copied, s₃, hRelocate, hRun⟩ := Step.bind_ok.mp hRun
      obtain ⟨_, s₄, hEnqueue, hRun⟩ := Step.bind_ok.mp hRun
      have hEdited : Edited (· = replacement) s₂ s₃ :=
        keeps_closures (ClosureEdit.keeps_relocateDisplayClasses (S := (· = replacement)) rfl)
          hRelocate
      have hRelocated := hEdited.advanced hKeyed₂
      have hEnqueued := (keeps_enqueue (S := fun _ => False) hEnqueue).advanced hRelocated.keyed
      exact hEnd (hRelocated.trans hEnqueued) hRun
    · exact hEnd (.refl hKeyed₂) hRun

/-- Binding the methods of a group, one after the other, leaves all code covered
but that of their replacements. -/
theorem bindAll_covered {f : MethodId → Propagate (Option (MethodId × MethodId))}
    (hOne : ∀ {S : MethodId → Prop} {s t : Propagation} {method : MethodId}
      {made : Option (MethodId × MethodId)}, s.Covered o S → f method s = .ok made t →
        t.Covered o fun id => S id ∨ ∃ e ∈ made, e.2 = id)
    (hBound : ∀ {s t : Propagation} {method : MethodId} {made : Option (MethodId × MethodId)},
      f method s = .ok made t → s.closures.Keyed →
        ∀ e ∈ made, ∃ b, t.bindings.get? e.1 = some b)
    (hAdvances : ∀ method, Keeps Advanced (f method))
    {group : List MethodId} {made : List (Option (MethodId × MethodId))} (h : s.Covered o S)
    (hRun : group.mapM f s = .ok made t) :
    (t.Covered o fun m => S m ∨ ∃ e ∈ made.filterMap id, e.2 = m) ∧
      ∀ e ∈ made.filterMap id, ∃ b, t.bindings.get? e.1 = some b := by
  let I (done : List (Option (MethodId × MethodId))) (s : Propagation) : Prop :=
    (s.Covered o fun m => S m ∨ ∃ e ∈ done.filterMap id, e.2 = m) ∧
      ∀ e ∈ done.filterMap id, ∃ b, s.bindings.get? e.1 = some b
  have hStart : I [] s := ⟨h.mono fun _ => Or.inl, by simp⟩
  refine Step.mapM_induct (I := I) (fun method _ done e s t h hRun => ?_) hStart hRun
  obtain ⟨hCovered, hDone⟩ := h
  refine ⟨(hOne hCovered hRun).mono fun id hIn => ?_, fun e' hMem => ?_⟩
  · rcases hIn with (hIn | ⟨e', hMem, hId⟩) | ⟨e', hMem, hId⟩
    · exact Or.inl hIn
    · exact Or.inr ⟨e', by simpa using Or.inl (by simpa using hMem), hId⟩
    · exact Or.inr ⟨e', by simpa using Or.inr hMem.symm, hId⟩
  · rw [List.filterMap_append, List.mem_append] at hMem
    rcases hMem with hMem | hMem
    · obtain ⟨b, hGet⟩ := hDone e' hMem
      exact ⟨b, (hAdvances method hRun hCovered.keyed).bindings e'.1 b hGet⟩
    · exact hBound hRun hCovered.keyed e' (by simpa [eq_comm] using hMem)

/-- Moving a method to its context leaves the code covered. -/
theorem stays_convert {method : MethodId} {context : ContextId} :
    Keeps (StaysCovered o S) (convert method context) := by
  intro s u t hRun hKeyed
  refine ⟨advances_convert hRun hKeyed, fun hDormant h => ?_⟩
  unfold convert at hRun
  obtain ⟨_, _, hGet, hRun⟩ := Step.bind_ok.mp hRun
  obtain ⟨rfl, rfl⟩ := Step.get_ok.mp hGet
  obtain ⟨group, s₁, hGroup, hRun⟩ := Step.bind_ok.mp hRun
  obtain ⟨made, s₂, hMade, hRun⟩ := Step.bind_ok.mp hRun
  obtain ⟨_, s₃, hAlign, hRun⟩ := Step.bind_ok.mp hRun
  have h₁ := h.unedited (keeps_bindingGroup hGroup)
  obtain ⟨h₂, hBound⟩ := bindAll_covered (f := convertOne context) convertOne_covered
    convertOne_bound (fun _ => advances_convertOne) h₁ hMade
  have hChanged : Changed (fun _ => False) s₂ s₃ :=
    Keeps.forM (fun _ _ => changes_alignProperty) hAlign
  refine complete_covered (h₂.unchanged hChanged) (fun e hMem => ?_) hRun hDormant
  obtain ⟨b, hGet⟩ := hBound e hMem
  exact ⟨b, hChanged.bindings ▸ hGet⟩

/-- Giving one method the root leaves all code covered but that of its
replacement. -/
theorem addParameterTo_covered {method : MethodId} {made : Option (MethodId × MethodId)}
    (h : s.Covered o S) (hRun : addParameterTo method s = .ok made t) :
    t.Covered o fun id => S id ∨ ∃ e ∈ made, e.2 = id := by
  unfold addParameterTo at hRun
  obtain ⟨_, _, hGet, hRun⟩ := Step.bind_ok.mp hRun
  obtain ⟨rfl, rfl⟩ := Step.get_ok.mp hGet
  split at hRun
  · obtain ⟨-, rfl⟩ := Step.pure_ok.mp hRun
    exact h.mono fun _ => Or.inl
  · obtain ⟨m, _, hModel, hRun⟩ := Step.bind_ok.mp hRun
    obtain ⟨-, rfl⟩ := model_ok.mp hModel
    obtain ⟨p, _, hProgram, hRun⟩ := Step.bind_ok.mp hRun
    obtain ⟨rfl, rfl⟩ := program_ok.mp hProgram
    have hEnd {s₁ : Propagation} {replacement : MethodId}
        (h₁ : s₁.Covered o fun id => S id ∨ id = replacement)
        (hRun : (do
          bindMethod ⟨method, replacement, .addedParameter⟩
          pure (some (method, replacement)) : Propagate (Option (MethodId × MethodId))) s₁
            = .ok made t) : t.Covered o fun id => S id ∨ ∃ e ∈ made, e.2 = id := by
      obtain ⟨_, s₂, hBind, hRun⟩ := Step.bind_ok.mp hRun
      obtain ⟨rfl, rfl⟩ := Step.pure_ok.mp hRun
      refine (carries_bindMethod hBind h₁).mono fun id hIn => hIn.imp_right ?_
      rintro rfl
      exact ⟨(method, id), rfl, rfl⟩
    dsimp only at hRun
    cases hFound : s.program.findCopy? m.owner m.name (.named s.plan.root :: m.paramTypes)
        m.isStatic with
    | some existing =>
        simp only [hFound] at hRun
        obtain ⟨_, s₁, hPure, hRun⟩ := Step.bind_ok.mp hRun
        obtain ⟨rfl, rfl⟩ := Step.pure_ok.mp hPure
        exact hEnd (h.mono fun _ => Or.inl) hRun
    | none =>
        simp only [hFound] at hRun
        obtain ⟨copy, s₁, hCopy, hRun⟩ := Step.bind_ok.mp hRun
        exact hEnd (makeCopy_covered h hCopy) hRun

theorem addParameterTo_bound {method : MethodId} {made : Option (MethodId × MethodId)}
    (hRun : addParameterTo method s = .ok made t) :
    ∀ e ∈ made, ∃ b, t.bindings.get? e.1 = some b := by
  unfold addParameterTo at hRun
  obtain ⟨_, _, hGet, hRun⟩ := Step.bind_ok.mp hRun
  obtain ⟨rfl, rfl⟩ := Step.get_ok.mp hGet
  split at hRun
  · obtain ⟨rfl, -⟩ := Step.pure_ok.mp hRun
    simp
  · obtain ⟨m, _, -, hRun⟩ := Step.bind_ok.mp hRun
    obtain ⟨p, _, -, hRun⟩ := Step.bind_ok.mp hRun
    have hEnd {s₁ : Propagation} {replacement : MethodId} (hRun : (do
        bindMethod ⟨method, replacement, .addedParameter⟩
        pure (some (method, replacement)) : Propagate (Option (MethodId × MethodId))) s₁
          = .ok made t) : ∀ e ∈ made, ∃ b, t.bindings.get? e.1 = some b := by
      obtain ⟨_, s₂, hBind, hRun⟩ := Step.bind_ok.mp hRun
      obtain ⟨rfl, rfl⟩ := Step.pure_ok.mp hRun
      rintro e ⟨⟩
      exact ⟨_, bindMethod_bound hBind⟩
    dsimp only at hRun
    cases hFound : p.findCopy? m.owner m.name (.named s.plan.root :: m.paramTypes) m.isStatic with
    | some existing =>
        simp only [hFound] at hRun
        obtain ⟨_, _, -, hRun⟩ := Step.bind_ok.mp hRun
        exact hEnd hRun
    | none =>
        simp only [hFound] at hRun
        obtain ⟨_, _, -, hRun⟩ := Step.bind_ok.mp hRun
        exact hEnd hRun

/-- Giving a method the root leaves the code covered. -/
theorem stays_addParameter {method : MethodId} :
    Keeps (StaysCovered o S) (addParameter method) := by
  intro s u t hRun hKeyed
  refine ⟨advances_addParameter hRun hKeyed, fun hDormant h => ?_⟩
  unfold addParameter at hRun
  obtain ⟨group, s₁, hGroup, hRun⟩ := Step.bind_ok.mp hRun
  obtain ⟨_, s₂, hRequire, hRun⟩ := Step.bind_ok.mp hRun
  obtain ⟨made, s₃, hMade, hRun⟩ := Step.bind_ok.mp hRun
  obtain ⟨_, s₄, hOverrides, hRun⟩ := Step.bind_ok.mp hRun
  obtain ⟨_, s₅, hAlign, hRun⟩ := Step.bind_ok.mp hRun
  have h₁ := h.unedited (keeps_bindingGroup hGroup)
  have h₂ := h₁.unedited (Keeps.forM (fun _ _ => keeps_requireUnconverted) hRequire)
  obtain ⟨h₃, hBound⟩ := bindAll_covered (f := addParameterTo) addParameterTo_covered
    (fun hRun _ => addParameterTo_bound hRun) (fun _ => advances_addParameterTo) h₂ hMade
  have hMapped : Changed (fun _ => False) s₃ s₄ :=
    Keeps.forM (fun _ _ => changes_mapOverrides) hOverrides
  have hAligned : Changed (fun _ => False) s₄ s₅ :=
    Keeps.forM (fun _ _ => changes_alignProperty) hAlign
  have hChanged : Changed (fun _ => False) s₃ s₅ := IsTrans.trans _ _ _ hMapped hAligned
  refine complete_covered (h₃.unchanged hChanged) (fun e hMem => ?_) hRun hDormant
  obtain ⟨b, hGet⟩ := hBound e hMem
  exact ⟨b, hChanged.bindings ▸ hGet⟩

/-- A visit leaves the code covered. -/
theorem stays_visit {method : MethodId} : Keeps (StaysCovered o S) (visit method) := by
  have hInPlace (site : RootedMethod) (places : List NeedySite) :
      Keeps (StaysCovered o S) (adaptInPlace site places) :=
    stays advances_adaptInPlace carries_adaptInPlace
  refine Keeps.bind (stays_unedited keeps_count) fun _ => ?_
  refine Keeps.bind (stays_unedited keeps_model) fun m => Keeps.bind Keeps.get fun s => ?_
  refine Keeps.ite (Keeps.bind (stays_unedited keeps_scan) fun places => ?_) (Keeps.pure _)
  refine Keeps.ite (Keeps.bind (stays_unedited keeps_handleOf?) fun handle => ?_) (Keeps.pure _)
  cases handle with
  | some handle => exact hInPlace _ _
  | none =>
      refine Keeps.bind (stays advances_displayHandle? carries_displayHandle?) fun handle => ?_
      cases handle with
      | some handle => exact hInPlace _ _
      | none =>
          refine Keeps.bind (stays_unedited keeps_model) fun m => Keeps.bind Keeps.get fun s => ?_
          split
          · exact Keeps.ite stays_convert stays_addParameter
          · exact stays_addParameter

/-- The batches of a run leave the code covered. -/
theorem stays_visitAll : Keeps (StaysCovered o S) visitAll := by
  refine keeps_visitAll (keeps_batch (fun s hKeyed => ?_) fun _ => stays_visit)
  refine ⟨{ Propagation.Advances.refl hKeyed with }, fun _ hCovered => ?_⟩
  exact { hCovered with lists := hCovered.lists }

theorem bindReplacements_covered {u : Unit} (h : s.Covered o S)
    (hRun : bindReplacements s = .ok u t) (hDormant : t.Dormant o) : t.Covered o S := by
  unfold bindReplacements at hRun
  obtain ⟨_, _, hGet, hRun⟩ := Step.bind_ok.mp hRun
  obtain ⟨rfl, rfl⟩ := Step.get_ok.mp hGet
  obtain ⟨made, s₁, hBind, hRun⟩ := Step.bind_ok.mp hRun
  let I (done : List (Option (MethodId × MethodId))) (s : Propagation) : Prop :=
    s.Covered o S ∧ ∀ e ∈ done.filterMap id, ∃ b, s.bindings.get? e.1 = some b
  have hStart : I [] s := ⟨h, by simp⟩
  obtain ⟨h₁, hBound⟩ := Step.mapM_induct (I := I) (fun b _ done e s t h hRun => by
    obtain ⟨hCovered, hDone⟩ := h
    obtain ⟨m, _, hModel, hRun⟩ := Step.bind_ok.mp hRun
    obtain ⟨-, rfl⟩ := model_ok.mp hModel
    split at hRun
    · obtain ⟨rfl, rfl⟩ := Step.pure_ok.mp hRun
      exact ⟨hCovered, by simpa using hDone⟩
    · obtain ⟨_, _, hBind, hRun⟩ := Step.bind_ok.mp hRun
      obtain ⟨rfl, rfl⟩ := Step.pure_ok.mp hRun
      refine ⟨carries_bindMethod hBind hCovered, fun e hMem => ?_⟩
      rw [List.filterMap_append, List.mem_append] at hMem
      rcases hMem with hMem | hMem
      · obtain ⟨c, hGet⟩ := hDone e hMem
        exact ⟨c, (advances_bindMethod hBind hCovered.keyed).bindings e.1 c hGet⟩
      · obtain rfl : e = (b.method, b.replacement) := by simpa using hMem
        exact ⟨b, bindMethod_bound hBind⟩) hStart hBind
  exact complete_covered (h₁.mono fun _ => Or.inl) hBound hRun hDormant

/-- When the graph is built, it lists whatever the code reaches. -/
theorem build_covered {p : Program} {plan : ContextPlan} {options : PropagationOptions} {u : Unit}
    (h : graph GraphEdit.build (.start p plan options) = .ok u s) (hWithin : o.Within (.build p)) :
    s.Covered o fun _ => False := by
  obtain ⟨v, hBuild, rfl⟩ := graph_ok.mp h
  obtain ⟨hOverrides, hLists⟩ := GraphEdit.build_lists hBuild
  obtain ⟨_, -, -, hEntered⟩ := GraphEdit.build_entered hBuild
  refine ⟨Propagation.keyed_start p plan options, hEntered.agrees, fun target => ?_,
    fun caller callee hNames => ?_⟩
  · change o.implementations target ⊆ v.1.overrides.implementations target
    rw [hOverrides]
    exact hWithin target
  · exact Or.inr (Or.inr (hLists caller callee (hNames.mono hWithin)))

/-- At the end of a run, the graph lists whatever the code reaches, up to the
methods that came with capture records and with copies of display classes. -/
theorem run_covered {p : Program} {plan : ContextPlan} {options : PropagationOptions}
    (h : propagate p plan options = .ok () t) (hWithin : o.Within (.build p))
    (hDormant : t.Dormant o) : t.Covered o fun _ => False := by
  unfold propagate run at h
  obtain ⟨_, s₁, hGraph, h⟩ := Step.bind_ok.mp h
  obtain ⟨_, s₂, hReplacements, h⟩ := Step.bind_ok.mp h
  obtain ⟨_, s₃, hSeed, h⟩ := Step.bind_ok.mp h
  obtain ⟨_, s₄, hBatches, h⟩ := Step.bind_ok.mp h
  obtain ⟨_, s₅, hRetire, h⟩ := Step.bind_ok.mp h
  obtain rfl := Step.modify_ok.mp h
  have h₁ := build_covered hGraph hWithin
  have hReplacing := advances_bindReplacements hReplacements h₁.keyed
  have hSeeding := (keeps_seed (S := fun _ => False) hSeed).advanced hReplacing.keyed
  have hBatching := advances_visitAll hBatches hSeeding.keyed
  have hRetiring := (keeps_retireMovedFields (S := fun _ => False) hRetire).advanced hBatching.keyed
  have hDormant₄ : s₄.Dormant o := Propagation.Dormant.of_advances (t := s₅) hDormant hRetiring
  have hDormant₃ := hDormant₄.of_advances hBatching
  have h₂ := bindReplacements_covered h₁ hReplacements (hDormant₃.of_advances hSeeding)
  have h₃ := h₂.unedited (keeps_seed hSeed)
  have h₄ := (stays_visitAll hBatches h₃.keyed).2 hDormant₄ h₃
  have h₅ := h₄.unedited (keeps_retireMovedFields hRetire)
  exact { h₅ with lists := h₅.lists }

/-- The types that a run declares are new. -/
theorem run_owns {p : Program} {plan : ContextPlan} {options : PropagationOptions}
    (h : propagate p plan options = .ok () t) {type : TypeId} (hOwned : t.closures.Owns type) :
    p.types.length ≤ type.index := by
  exact ((run_advances h).fresh type hOwned).resolve_left
    (Propagation.not_owns_start p plan options type)

/-- A method of a type that was there before is listed with all that it reaches. -/
theorem run_lists {p : Program} {plan : ContextPlan} {options : PropagationOptions}
    (h : propagate p plan options = .ok () t) (hWithin : o.Within (.build p))
    (hDormant : t.Dormant o) {caller callee : MethodId} {m : MethodDef}
    (hMethod : t.program.method? caller = some m) (hOld : m.owner.index < p.types.length)
    (hNames : t.program.Names o caller callee) : t.graph.Lists caller callee := by
  rcases (run_covered h hWithin hDormant).lists caller callee hNames with
    hFalse | ⟨m', hMethod', hOwn⟩ | hListed
  · exact hFalse.elim
  · obtain rfl : m = m' := Option.some_inj.mp (hMethod.symm.trans hMethod')
    exact absurd hOld (Nat.not_lt.mpr (run_owns h hOwn))
  · exact hListed

end Propagate

end ContextBinding
