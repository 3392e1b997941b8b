import ContextBinding.Proofs.Advance
import ContextBinding.Proofs.Graph

/-! What a run takes out of use: every method that it binds, and every moved field
 that no code names any more. -/

namespace ContextBinding

/-- The bindings that contexts of instances that are there already bring along. -/
def ContextPlan.given (plan : ContextPlan) : List Binding :=
  plan.entries.flatMap fun e =>
    if e.2.isReusedSingleton then
      e.2.replacementMethods.entries.map fun pair =>
        Binding.mk pair.1 pair.2 (.instanceConverted e.1)
    else []

/-- The static fields that move, in ascending order. -/
def ContextPlan.movedFields (plan : ContextPlan) : List FieldId :=
  ascending (plan.contexts.flatMap fun c => c.fieldPairs.map (·.1))

namespace ContextPlan

theorem entries_shape (plan : ContextPlan) :
    plan.shape.entries = plan.entries.map fun e => (e.1, { e.2 with initUnits := [] }) := by
  simp [entries, shape, List.zipIdx_map, Function.comp_def]

theorem movedField?_shape (plan : ContextPlan) (field : FieldId) :
    plan.shape.movedField? field = plan.movedField? field := by
  unfold movedField?
  rw [entries_shape, List.flatMap_map]
  rfl

theorem singletonOf?_shape (plan : ContextPlan) (field : FieldId) :
    plan.shape.singletonOf? field = plan.singletonOf? field := by
  unfold singletonOf?
  rw [entries_shape, List.filter_map, List.getLast?_map, Option.map_map]
  rfl

/-- What contexts bring along moves into them. -/
theorem mode_given {plan : ContextPlan} {b : Binding} (h : b ∈ plan.given) :
    ∃ context, b.mode = .instanceConverted context := by
  obtain ⟨e, -, hb⟩ := List.mem_flatMap.mp h
  split at hb
  · obtain ⟨pair, -, rfl⟩ := List.mem_map.mp hb
    exact ⟨e.1, rfl⟩
  · exact (List.not_mem_nil hb).elim

theorem given_shape (plan : ContextPlan) : plan.shape.given = plan.given := by
  unfold given
  rw [entries_shape, List.flatMap_map]
  rfl

end ContextPlan

namespace Program

/-- The fields that code in use names. -/
def namedFields (p : Program) : List FieldId :=
  let code := p.liveMethods.flatMap fun id =>
    (((p.method? id).bind (·.body)).map (·.instructions)).getD []
  code.filterMap (·.field?)

theorem mem_namedFields {p : Program} {field : FieldId} :
    field ∈ p.namedFields ↔
      ∃ id b i, p.liveBody? id = some b ∧ i ∈ b.instructions ∧ i.field? = some field := by
  unfold namedFields
  simp only [List.mem_filterMap, List.mem_flatMap, mem_liveMethods, isLive_iff]
  constructor
  · rintro ⟨i, ⟨id, ⟨b, hLive⟩, hMem⟩, hField⟩
    obtain ⟨m, hMethod, -, hBody⟩ := liveBody?_eq_some.mp hLive
    simp only [hMethod, Option.bind_some, hBody, Option.map_some, Option.getD_some] at hMem
    exact ⟨id, b, i, hLive, hMem, hField⟩
  · rintro ⟨id, b, i, hLive, hMem, hField⟩
    obtain ⟨m, hMethod, -, hBody⟩ := liveBody?_eq_some.mp hLive
    refine ⟨i, ⟨id, ⟨b, hLive⟩, ?_⟩, hField⟩
    simpa only [hMethod, Option.bind_some, hBody, Option.map_some, Option.getD_some] using hMem

/-- What is out of use stays so. -/
theorem Retired.grows {p q : Program} {id : MethodId} (h : p.Retired id) (hGrows : p.Grows q) :
    q.Retired id := by
  obtain ⟨m, hMethod, hRetired⟩ := h
  obtain ⟨m', hMethod', hStep⟩ := hGrows.method hMethod
  exact ⟨m', hMethod', hStep.retired hRetired⟩

theorem retireMethod_ok {id : MethodId} {p q : Program} {u : Unit}
    (h : retireMethod id p = .ok u q) : q.Retired id := by
  unfold retireMethod at h
  simp only [Step.bind_ok, Step.get_ok, Step.lift_ok] at h
  obtain ⟨_, _, ⟨rfl, rfl⟩, m, _, ⟨-, rfl⟩, hash, _, ⟨-, rfl⟩, h⟩ := h
  have hEnd {p₁ : Program} (h : (do
      modifyType m.owner fun t => { t with methods := t.methods.filter (· != id) }
      modifyMethod id fun m => { m with flags := m.flags.insert .retired }) p₁ = .ok u q) :
      q.Retired id := by
    obtain ⟨_, p₂, -, h⟩ := Step.bind_ok.mp h
    obtain ⟨⟨m, hMethod⟩, rfl⟩ := modifyMethod_ok h
    refine ⟨{ m with flags := m.flags.insert .retired }, ?_, ?_⟩
    · apply (method?_modify p₂.touch _ id id).trans
      have hMethod' : p₂.touch.method? id = some m := hMethod
      rw [hMethod']
      simp
    · simp [MethodDef.isRetired, FlagSet.has_insert]
  split at h
  · obtain ⟨_, p₁, -, h⟩ := Step.bind_ok.mp h
    exact hEnd h
  · exact hEnd h

/-- The methods of a program are the same later. -/
def SameMethods (p q : Program) : Prop := q.methods = p.methods

instance : IsPreorder Program SameMethods where
  refl _ := rfl
  trans _ _ _ h h' := Eq.trans h' h

theorem keeps_modifyType_methods {id : TypeId} {f : TypeDef → TypeDef} :
    Keeps SameMethods (modifyType id f) := by
  refine Keeps.bind (Keeps.modify fun _ => rfl) fun _ => Keeps.bind Keeps.get fun p => ?_
  exact Keeps.bind (Keeps.lift _) fun _ => Keeps.modify fun _ => rfl

theorem retireField_ok {id : FieldId} {p q : Program} {u : Unit}
    (h : retireField id p = .ok u q) :
    (∃ f, q.field? id = some f ∧ f.isRetired = true) ∧ p.SameMethods q := by
  unfold retireField at h
  simp only [Step.bind_ok, Step.get_ok, Step.lift_ok] at h
  obtain ⟨_, _, ⟨rfl, rfl⟩, f, _, ⟨-, rfl⟩, hash, _, ⟨-, rfl⟩, h⟩ := h
  have hEnd (p₁ : Program) (h : (do
      modifyType f.owner fun t => { t with fields := t.fields.filter (· != id) }
      modifyField id fun f => { f with flags := f.flags.insert .retired }) p₁ = .ok u q) :
      (∃ f, q.field? id = some f ∧ f.isRetired = true) ∧ p₁.SameMethods q := by
    obtain ⟨_, p₂, hType, h⟩ := Step.bind_ok.mp h
    unfold modifyField at h
    simp only [Step.bind_ok, Step.get_ok, Step.lift_ok, Step.modify_ok] at h
    obtain ⟨_, _, rfl, _, _, ⟨rfl, rfl⟩, f, _, ⟨hField, rfl⟩, rfl⟩ := h
    have hField : p₂.fields[id.index]? = some f := fieldDef_ok.mp hField
    have hSame : p₁.SameMethods p₂ := keeps_modifyType_methods hType
    refine ⟨⟨{ f with flags := f.flags.insert .retired }, ?_, ?_⟩, hSame⟩
    · simp [field?, touch, hField]
    · simp [FieldDef.isRetired, FlagSet.has_insert]
  split at h
  · obtain ⟨_, p₁, hSet, h⟩ := Step.bind_ok.mp h
    obtain rfl := Step.set_ok.mp hSet
    exact hEnd { p with fieldTable := p.fieldTable.erase hash } h
  · exact hEnd p h

end Program

namespace Propagate

open Propagation (Advanced Edited)

variable {s t : Propagation}

/-- Binding a method ends with the method out of use. -/
theorem retireBound_retires {method : MethodId} {isVirtual : Bool} (h : (do
      let m ← model fun p => p.methodDef method
      if (← get).options.retireReplaced && !m.isRetired then edit (Program.retireMethod method)
      pure m.isVirtual : Propagate Bool) s = .ok isVirtual t)
    (hRetire : s.options.retireReplaced = true) : t.program.Retired method := by
  obtain ⟨m, _, hModel, h⟩ := Step.bind_ok.mp h
  obtain ⟨hMethod, rfl⟩ := model_ok.mp hModel
  obtain ⟨_, _, hGet, h⟩ := Step.bind_ok.mp h
  obtain ⟨rfl, rfl⟩ := Step.get_ok.mp hGet
  cases hRetired : m.isRetired with
  | true =>
      simp only [hRetire, hRetired, Bool.not_true, Bool.and_false, Bool.false_eq_true,
        if_false] at h
      obtain ⟨-, rfl⟩ := Step.pure_ok.mp h
      exact ⟨m, Program.methodDef_ok.mp hMethod, hRetired⟩
  | false =>
      simp only [hRetire, hRetired, Bool.not_false, Bool.and_true, if_true] at h
      obtain ⟨_, _, hEdit, h⟩ := Step.bind_ok.mp h
      obtain ⟨p, hStep, rfl⟩ := edit_ok.mp hEdit
      obtain ⟨-, rfl⟩ := Step.pure_ok.mp h
      exact Program.retireMethod_ok hStep

/-- Completing a binding takes the bound methods out of use. -/
theorem complete_retires {bound : List (MethodId × MethodId)} {u : Unit}
    (h : complete bound s = .ok u t) (hRetire : s.options.retireReplaced = true)
    (hKeyed : s.closures.Keyed) {e : MethodId × MethodId} (he : e ∈ bound) :
    t.program.Retired e.1 := by
  unfold complete at h
  split at h
  · obtain ⟨_, _, hGet, h⟩ := Step.bind_ok.mp h
    obtain ⟨rfl, rfl⟩ := Step.get_ok.mp hGet
    obtain ⟨virtuals, s₁, hVirtuals, h⟩ := Step.bind_ok.mp h
    obtain ⟨_, v, w, -, hBefore, hStep, hAfter⟩ :=
      Keeps.mapM_mem_ok (fun e _ => changes_retireBound (S := fun _ => False)) hVirtuals he
    have hRetired := retireBound_retires hStep (hBefore.options ▸ hRetire)
    have hWhole : Advanced s w :=
      IsTrans.trans _ _ _ hBefore.advanced (changes_retireBound (S := fun _ => False) hStep).advanced
    have hEnd : Advanced w t := by
      apply IsTrans.trans _ _ _ hAfter.advanced
      exact Keeps.ite (Keeps.bind advances_graph fun _ => advances_deriveBound) advances_deriveBound h
    exact hRetired.grows (hEnd (hWhole hKeyed).keyed).grows
  · rename_i hEmpty
    obtain rfl : bound = [] := by simpa using hEmpty
    exact (List.not_mem_nil he).elim

/-- Every method that a context brings a replacement for goes out of use. -/
theorem bindReplacements_retires {u : Unit} (h : bindReplacements s = .ok u t)
    (hRetire : s.options.retireReplaced = true) (hKeyed : s.closures.Keyed) {b : Binding}
    (hb : b ∈ s.plan.given) : t.program.Retired b.method := by
  unfold bindReplacements at h
  obtain ⟨_, _, hGet, h⟩ := Step.bind_ok.mp h
  obtain ⟨rfl, rfl⟩ := Step.get_ok.mp hGet
  obtain ⟨made, s₁, hMade, hComplete⟩ := Step.bind_ok.mp h
  have hGiven (b : Binding) : Keeps Advanced (do
      if (← model fun p => p.methodDef b.method).isRetired then pure none
      else
        bindMethod b
        pure (some (b.method, b.replacement)) : Propagate (Option (MethodId × MethodId))) :=
    Keeps.bind (advances_edited (S := fun _ => False) keeps_model) fun m =>
      Keeps.ite (Keeps.pure _) (Keeps.bind advances_bindMethod fun _ => Keeps.pure _)
  obtain ⟨r, v, w, hMem, hBefore, hStep, hAfter⟩ :=
    Keeps.mapM_mem_ok (fun b _ => hGiven b) hMade hb
  have hAll : s.Advances s₁ := Keeps.mapM (fun b _ => hGiven b) hMade hKeyed
  obtain ⟨m, _, hModel, hStep'⟩ := Step.bind_ok.mp hStep
  obtain ⟨hMethod, rfl⟩ := model_ok.mp hModel
  split at hStep'
  · rename_i hRetired
    have hThere : v.program.Retired b.method := ⟨m, Program.methodDef_ok.mp hMethod, hRetired⟩
    have hLater : Advanced v t := by
      apply IsTrans.trans _ _ _ (IsTrans.trans _ _ _ (hGiven b hStep) hAfter)
      exact advances_complete hComplete
    exact hThere.grows (hLater (hBefore hKeyed).keyed).grows
  · obtain ⟨_, _, -, hPure⟩ := Step.bind_ok.mp hStep'
    obtain ⟨rfl, -⟩ := Step.pure_ok.mp hPure
    have hBound : (b.method, b.replacement) ∈ made.filterMap id :=
      List.mem_filterMap.mpr ⟨_, hMem, rfl⟩
    exact complete_retires hComplete (hAll.options ▸ hRetire) hAll.keyed hBound

/-- A moved field that stays in use is named by code in use. -/
theorem retireMovedFields_ok {u : Unit} (h : retireMovedFields s = .ok u t)
    (hRetire : s.options.retireReplaced = true) (hKeyed : s.closures.Keyed) {field : FieldId}
    (hMoved : field ∈ s.plan.movedFields) :
    ∃ f, t.program.field? field = some f ∧
      (f.isRetired = true ∨ field ∈ s.program.namedFields) := by
  unfold retireMovedFields at h
  obtain ⟨_, _, hGet, h⟩ := Step.bind_ok.mp h
  obtain ⟨rfl, rfl⟩ := Step.get_ok.mp hGet
  rw [if_pos hRetire] at h
  have hEach (field : FieldId) : Keeps (Edited fun _ => False) (do
      if !(← model fun p => p.fieldDef field).isRetired && !s.program.namedFields.contains field then
        edit (Program.retireField field) : Propagate Unit) :=
    Keeps.bind keeps_model fun f =>
      Keeps.ite (keeps_edit fun N => Program.keeps_retireField) (Keeps.pure _)
  obtain ⟨v, w, hBefore, hStep, hAfter⟩ := Keeps.forM_mem_ok (fun field _ => hEach field) h hMoved
  have hKeyed' : w.closures.Keyed :=
    (hEach field hStep).advanced (hBefore.advanced hKeyed).keyed |>.keyed
  have hGrows : w.program.Grows t.program := (hAfter.advanced hKeyed').grows
  obtain ⟨f, _, hModel, hStep'⟩ := Step.bind_ok.mp hStep
  obtain ⟨hField, rfl⟩ := model_ok.mp hModel
  split at hStep'
  · obtain ⟨p, hEdit, rfl⟩ := edit_ok.mp hStep'
    obtain ⟨⟨f', hField', hRetired⟩, -⟩ := Program.retireField_ok hEdit
    obtain ⟨f'', hField'', hPersists⟩ := hGrows.field hField'
    exact ⟨f'', hField'', Or.inl (hPersists.retired hRetired)⟩
  · rename_i hKept
    obtain ⟨-, rfl⟩ := Step.pure_ok.mp hStep'
    obtain ⟨f', hField', hPersists⟩ := hGrows.field (Program.fieldDef_ok.mp hField)
    refine ⟨f', hField', ?_⟩
    cases hRetired : f.isRetired with
    | true => exact Or.inl (hPersists.retired hRetired)
    | false =>
        right
        simpa [hRetired] using hKept

/-- Taking fields out of use leaves the methods alone. -/
theorem retireMovedFields_methods {u : Unit} (h : retireMovedFields s = .ok u t) :
    s.program.SameMethods t.program := by
  let R (s t : Propagation) : Prop := s.program.SameMethods t.program
  have : IsPreorder Propagation R :=
    { refl := fun _ => rfl, trans := fun _ _ _ h h' => Eq.trans h' h }
  have hReads {f : Program → Except ModelError FieldDef} : Keeps R (model f) := by
    intro s a t hModel
    obtain ⟨-, rfl⟩ := model_ok.mp hModel
    exact refl (r := R) s
  have hRetire {field : FieldId} : Keeps R (edit (Program.retireField field)) := by
    intro s a t hRun
    obtain ⟨p, hEdit, rfl⟩ := edit_ok.mp hRun
    exact (Program.retireField_ok hEdit).2
  refine (?_ : Keeps R retireMovedFields) h
  refine Keeps.bind Keeps.get fun s => Keeps.ite (Keeps.forM fun field _ => ?_) (Keeps.pure _)
  exact Keeps.bind hReads fun f => Keeps.ite hRetire (Keeps.pure _)

end Propagate

end ContextBinding
