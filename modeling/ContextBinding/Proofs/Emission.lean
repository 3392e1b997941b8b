import ContextBinding.Binder
import ContextBinding.Proofs.Advance
import ContextBinding.Proofs.Graph

/-! What a run puts into the root constructor. Every statement that was missing is
 there afterwards, so that a second time nothing is missing. -/

namespace ContextBinding

namespace MethodBody

/-- All contents of a body are there later. -/
def Retains (b b' : MethodBody) : Prop := ∀ i ∈ b.instructions, ∃ i' ∈ b'.instructions, i'.gist = i.gist

instance : IsPreorder MethodBody Retains where
  refl _ i hMem := ⟨i, hMem, rfl⟩
  trans _ _ _ h h' i hMem := by
    obtain ⟨i', hMem', hGist⟩ := h i hMem
    obtain ⟨i'', hMem'', hGist'⟩ := h' i' hMem'
    exact ⟨i'', hMem'', hGist'.trans hGist⟩

variable {b b' : MethodBody} {seq : List Instruction}

/-- Splicing keeps what there is and adds the new code. -/
theorem retains_splice (b : MethodBody) (position : Nat) (seq : List Instruction) :
    Retains b (b.splice position seq) ∧
      ∀ i ∈ seq, ∃ i' ∈ (b.splice position seq).instructions, i'.gist = i.gist := by
  refine ⟨fun i hMem => ⟨i, ?_, rfl⟩, fun i hMem => ?_⟩
  · rw [← List.take_append_drop position b.instructions] at hMem
    simp only [splice, List.mem_append]
    exact (List.mem_append.mp hMem).elim (fun h => Or.inl (Or.inl h)) Or.inr
  · obtain ⟨i', hMem', hGist⟩ := exists_number b.nextId hMem
    refine ⟨i', ?_, hGist⟩
    simp only [splice, List.mem_append]
    exact Or.inl (Or.inr hMem')

theorem retains_retarget (b : MethodBody) (source target : InstrId) :
    Retains b (b.retarget source target) :=
  fun i hMem => ⟨_, List.mem_map_of_mem hMem, i.gist_retarget source target⟩

theorem insertBefore_retains {id : InstrId} {ids : List InstrId}
    (h : insertBefore id seq b = .ok ids b') :
    Retains b b' ∧ ∀ i ∈ seq, ∃ i' ∈ b'.instructions, i'.gist = i.gist := by
  obtain ⟨position, _, hRequire, h⟩ := Step.bind_ok.mp h
  obtain ⟨-, rfl⟩ := require_ok.mp hRequire
  split at h
  · rename_i hEmpty
    obtain ⟨-, rfl⟩ := Step.pure_ok.mp h
    obtain rfl : seq = [] := by simpa using hEmpty
    exact ⟨refl b, fun i hMem => (List.not_mem_nil hMem).elim⟩
  · simp only [Step.bind_ok, Step.get_ok, Step.set_ok, Step.pure_ok] at h
    obtain ⟨_, _, ⟨rfl, rfl⟩, _, _, rfl, -, rfl⟩ := h
    obtain ⟨hKept, hAdded⟩ := retains_splice (b.retarget id ⟨b.nextId⟩) position seq
    exact ⟨IsTrans.trans _ _ _ (retains_retarget b id ⟨b.nextId⟩) hKept, hAdded⟩

/-- Code that is run ahead of every return is there afterwards, with all the rest. -/
theorem insertAtReturns_retains {u : Unit} (h : insertAtReturns seq b = .ok u b') :
    Retains b b' ∧ ∀ i ∈ seq, ∃ i' ∈ b'.instructions, i'.gist = i.gist := by
  obtain ⟨_, _, hGet, h⟩ := Step.bind_ok.mp h
  obtain ⟨rfl, rfl⟩ := Step.get_ok.mp hGet
  cases hReturns : b.returns with
  | nil =>
      simp only [hReturns, push, Step.bind_ok, Step.get_ok, Step.set_ok, Step.pure_ok] at h
      obtain ⟨_, _, ⟨_, _, ⟨rfl, rfl⟩, _, _, rfl, -, rfl⟩, -, rfl⟩ := h
      obtain ⟨hKept, hAdded⟩ := retains_splice b b.size (seq ++ [.plain .ret])
      exact ⟨hKept, fun i hMem => hAdded i (List.mem_append_left _ hMem)⟩
  | cons first rest =>
      have hInsert (id : InstrId) : Keeps Retains (do
          let _ ← insertBefore id seq) := by
        refine Keeps.bind (fun b ids b' h => (insertBefore_retains h).1) fun _ => Keeps.pure _
      simp only [hReturns] at h
      obtain ⟨_, b₁, hFirst, hRest⟩ := Step.bind_ok.mp h
      obtain ⟨ids, _, hBefore, hPure⟩ := Step.bind_ok.mp hFirst
      obtain ⟨-, rfl⟩ := Step.pure_ok.mp hPure
      obtain ⟨hKept, hAdded⟩ := insertBefore_retains hBefore
      have hLater : Retains _ b' := Keeps.forM (fun id _ => hInsert id) hRest
      refine ⟨IsTrans.trans _ _ _ hKept hLater, fun i hMem => ?_⟩
      obtain ⟨i', hMem', hGist⟩ := hAdded i hMem
      obtain ⟨i'', hMem'', hGist'⟩ := hLater i' hMem'
      exact ⟨i'', hMem'', hGist'.trans hGist⟩

theorem revises_insertAtReturns : Keeps Revises (insertAtReturns seq) := by
  refine Keeps.bind Keeps.get fun b => ?_
  cases b.returns with
  | nil => exact Keeps.bind revises_push fun _ => Keeps.pure _
  | cons => exact revises_insertBeforeEach

theorem mem_storedFields {field : FieldId} :
    field ∈ b.storedFields ↔ ∃ i ∈ b.instructions, i.opcode = .stfld ∧ i.field? = some field := by
  simp [storedFields, and_assoc]

/-- What is stored stays stored. -/
theorem Retains.storedFields (h : Retains b b') {field : FieldId} (hField : field ∈ b.storedFields) :
    field ∈ b'.storedFields := by
  obtain ⟨i, hMem, hOpcode, hStored⟩ := mem_storedFields.mp hField
  obtain ⟨i', hMem', hGist⟩ := h i hMem
  simp only [Instruction.gist, Prod.mk.injEq] at hGist
  exact mem_storedFields.mpr ⟨i', hMem', hGist.1.trans hOpcode, hGist.2.1.trans hStored⟩

end MethodBody

/-- The last instruction of a statement stores its slot. -/
theorem ContextPlan.stores_stepCode {plan : ContextPlan} {p : Program} {step : InstantiationStep}
    {code : List Instruction} (h : plan.stepCode p step = .ok code) :
    .onField .stfld step.slot ∈ code := by
  obtain ⟨target, -, h⟩ := Outcome.bind_ok.mp h
  obtain ⟨value, -, h⟩ := Outcome.bind_ok.mp h
  obtain rfl := Outcome.pure_ok.mp h
  exact List.mem_append_right _ (List.mem_singleton_self _)

namespace Emit

open Program (Confined)

variable {plan : ContextPlan} {steps : List InstantiationStep} {p q : Program} {emitted : Nat}

theorem model_ok {α : Type} {f : Program → Except ModelError α} {a : α} :
    model f p = .ok a q ↔ f p = .ok a ∧ p = q := by
  unfold model edit
  simp only [Step.bind_ok, Step.get_ok, Step.focus_ok, Step.lift_ok]
  constructor
  · rintro ⟨_, _, ⟨rfl, rfl⟩, _, ⟨h, rfl⟩, rfl⟩
    exact ⟨h, rfl⟩
  · rintro ⟨h, rfl⟩
    exact ⟨p, p, ⟨rfl, rfl⟩, p, ⟨h, rfl⟩, rfl⟩

/-- The statements whose slots a body does not store. -/
def missing (b : MethodBody) (steps : List InstantiationStep) : List InstantiationStep :=
  steps.filter fun step => !b.storedFields.contains step.slot

theorem missing_eq_nil {b : MethodBody} :
    missing b steps = [] ↔ ∀ step ∈ steps, step.slot ∈ b.storedFields := by
  simp [missing, List.filter_eq_nil_iff]

/-- Filling the root constructor leaves the program alone just if no statement is
missing. -/
theorem rootConstructor_iff :
    rootConstructor plan steps p = .ok emitted q ↔
      ∃ m b code, p.method? plan.rootConstructor = some m ∧ m.body = some b ∧
        (missing b steps).mapM (plan.stepCode p) = .ok code ∧ (missing b steps).length = emitted ∧
        if missing b steps = [] then p = q
        else Program.editBody plan.rootConstructor (MethodBody.insertAtReturns code.flatten) p
          = .ok () q := by
  unfold rootConstructor
  simp only [Step.bind_ok, model_ok, Program.methodDef_ok]
  constructor
  · rintro ⟨m, _, ⟨hMethod, rfl⟩, h⟩
    cases hBody : m.body with
    | none =>
        simp only [hBody] at h
        obtain ⟨_, _, -, h⟩ := Step.bind_ok.mp h
        exact (Step.throw_ok.mp h).elim
    | some b =>
        simp only [hBody] at h
        obtain ⟨code, _, hLookUp, h⟩ := Step.bind_ok.mp h
        obtain ⟨hCode, rfl⟩ := model_ok.mp hLookUp
        refine ⟨m, b, code, hMethod, hBody, hCode, ?_⟩
        split at h
        · rename_i hSome
          obtain ⟨_, q₁, hEdit, h⟩ := Step.bind_ok.mp h
          obtain ⟨rfl, rfl⟩ := Step.pure_ok.mp h
          obtain ⟨q₂, hInsert, rfl⟩ := Step.focus_ok.mp hEdit
          rw [if_neg (by simpa [missing] using hSome)]
          exact ⟨rfl, hInsert⟩
        · rename_i hNone
          obtain ⟨rfl, rfl⟩ := Step.pure_ok.mp h
          rw [if_pos (by simpa [missing] using hNone)]
          exact ⟨rfl, rfl⟩
  · rintro ⟨m, b, code, hMethod, hBody, hCode, rfl, hEdit⟩
    refine ⟨m, p, ⟨hMethod, rfl⟩, ?_⟩
    simp only [hBody]
    apply Step.bind_ok.mpr
    refine ⟨code, p, model_ok.mpr ⟨hCode, rfl⟩, ?_⟩
    split at hEdit
    · rename_i hNone
      subst hEdit
      rw [if_neg (by simpa [missing] using hNone)]
      exact Step.pure_ok.mpr ⟨rfl, rfl⟩
    · rename_i hSome
      rw [if_pos (by simpa [missing] using hSome)]
      apply Step.bind_ok.mpr
      exact ⟨(), q, Step.focus_ok.mpr ⟨q, hEdit, rfl⟩, Step.pure_ok.mpr ⟨rfl, rfl⟩⟩

/-- Filling the root constructor edits nothing else, and nothing at all if no
statement is missing. -/
theorem rootConstructor_ok (h : rootConstructor plan steps p = .ok emitted q) :
    p.Rewrites (fun id => id = plan.rootConstructor ∧ 0 < emitted) (fun _ => False) q := by
  obtain ⟨m, b, code, -, -, -, rfl, hEdit⟩ := rootConstructor_iff.mp h
  split at hEdit
  · subst hEdit
    exact .refl p
  · rename_i hSome
    have hPositive : 0 < (missing b steps).length := List.length_pos_iff.mpr hSome
    exact Program.keeps_editBody ⟨rfl, hPositive⟩ MethodBody.revises_insertAtReturns hEdit

/-- Filling the root constructor takes nothing away from code in use. -/
theorem rootConstructor_retains (h : rootConstructor plan steps p = .ok emitted q) {id : MethodId}
    {b : MethodBody} (hLive : p.liveBody? id = some b) :
    ∃ b', q.liveBody? id = some b' ∧ b.Retains b' := by
  obtain ⟨_, _, code, -, -, -, -, hEdit⟩ := rootConstructor_iff.mp h
  split at hEdit
  · subst hEdit
    exact ⟨b, hLive, refl b⟩
  · obtain ⟨m, c, c', hMethod, hBody, hInsert, rfl⟩ := Program.editBody_ok hEdit
    obtain ⟨m', hMethod', hUsed, hBody'⟩ := Program.liveBody?_eq_some.mp hLive
    have hThere := Program.method?_modify p.touch (fun m => { m with body := some c' })
      plan.rootConstructor id
    have hTouched : p.touch.method? id = some m' := hMethod'
    rw [hTouched] at hThere
    by_cases hSame : plan.rootConstructor = id
    · subst hSame
      obtain rfl : m = m' := Option.some_inj.mp (hMethod.symm.trans hMethod')
      obtain rfl : c = b := Option.some_inj.mp (hBody.symm.trans hBody')
      rw [Option.map_some, if_pos rfl] at hThere
      have hAfter := Program.liveBody?_eq_some.mpr ⟨_, hThere, hUsed, rfl⟩
      exact ⟨c', hAfter, (MethodBody.insertAtReturns_retains hInsert).1⟩
    · rw [Option.map_some, if_neg hSame] at hThere
      exact ⟨b, Program.liveBody?_eq_some.mpr ⟨m', hThere, hUsed, hBody'⟩, refl b⟩

/-- A root constructor that was filled needs no statement any more. -/
theorem rootConstructor_again (h : rootConstructor plan steps p = .ok emitted q) :
    rootConstructor plan steps q = .ok 0 q := by
  obtain ⟨m, b, code, hMethod, hBody, hCode, -, hEdit⟩ := rootConstructor_iff.mp h
  have hAgain {m : MethodDef} {b : MethodBody} (hMethod : q.method? plan.rootConstructor = some m)
      (hBody : m.body = some b) (hStored : ∀ step ∈ steps, step.slot ∈ b.storedFields) :
      rootConstructor plan steps q = .ok 0 q := by
    have hNone := missing_eq_nil.mpr hStored
    apply rootConstructor_iff.mpr
    refine ⟨m, b, [], hMethod, hBody, ?_, ?_, ?_⟩
    · rw [hNone]
      rfl
    · rw [hNone]
      rfl
    · rw [if_pos hNone]
  split at hEdit
  · rename_i hNone
    subst hEdit
    exact hAgain hMethod hBody (missing_eq_nil.mp hNone)
  · obtain ⟨m', c, b', hMethod', hBody', hInsert, rfl⟩ := Program.editBody_ok hEdit
    obtain rfl : m = m' := Option.some_inj.mp (hMethod.symm.trans hMethod')
    obtain rfl : b = c := Option.some_inj.mp (hBody.symm.trans hBody')
    obtain ⟨hKept, hAdded⟩ := MethodBody.insertAtReturns_retains hInsert
    have hThere := Program.method?_modify p.touch (fun m => { m with body := some b' })
      plan.rootConstructor plan.rootConstructor
    have hTouched : p.touch.method? plan.rootConstructor = some m := hMethod
    rw [hTouched, Option.map_some, if_pos rfl] at hThere
    refine hAgain hThere rfl fun step hStep => ?_
    by_cases hStored : step.slot ∈ b.storedFields
    · exact hKept.storedFields hStored
    · have hMissing : step ∈ missing b steps :=
        List.mem_filter.mpr ⟨hStep, by simpa using hStored⟩
      obtain ⟨stepCode, hMem, hStepCode⟩ := Outcome.mapM_mem_ok hCode hMissing
      obtain ⟨i, hMem', hGist⟩ := hAdded _
        (List.mem_flatten.mpr ⟨stepCode, hMem, ContextPlan.stores_stepCode hStepCode⟩)
      simp only [Instruction.gist, Prod.mk.injEq] at hGist
      exact MethodBody.mem_storedFields.mpr ⟨i, hMem', hGist.1, hGist.2.1⟩

end Emit

namespace BinderConfig

variable {config : BinderConfig} {p : Program} {plan : ContextPlan} {r : BoundProgram}
  {s : Propagation}

/-- What a successful run consists of. -/
theorem run_ok : config.run p plan = .ok r ↔
    plan.validate p = .ok () ∧ ∃ s, propagate p plan config.options = .ok () s ∧
      config.finish s = .ok r := by
  unfold run
  simp only [Outcome.bind_ok, Outcome.mapError_ok]
  constructor
  · rintro ⟨_, hValid, h⟩
    cases hRun : propagate p plan config.options with
    | error e s =>
        simp only [hRun] at h
        exact (Outcome.throw_ok.mp h).elim
    | ok u s =>
        simp only [hRun] at h
        exact ⟨hValid, s, rfl, h⟩
  · rintro ⟨hValid, s, hRun, hFinish⟩
    refine ⟨(), hValid, ?_⟩
    simpa only [hRun] using hFinish

/-- What a run ends with: the order is that of the graph, and the root constructor
is filled if that is wanted. -/
theorem finish_iff : config.finish s = .ok r ↔
    ∃ order, s.plan.order s.program s.graph = .ok order ∧
      (if config.emitRootConstructor then
        Emit.rootConstructor s.plan (s.plan.stepsIn order) s.program
          = .ok r.report.emittedSteps r.program
      else 0 = r.report.emittedSteps ∧ s.program = r.program) ∧
      r.plan = s.plan ∧ r.report.bindings = s.bindings ∧
      r.report.records = s.closures.records.values ∧ r.report.order = order ∧
      r.report.steps = s.plan.stepsIn order ∧ r.report.stats = s.stats := by
  rcases r with ⟨q, plan, bindings, records, order, steps, emitted, stats⟩
  unfold finish
  simp only [Outcome.bind_ok, Outcome.mapError_ok]
  refine exists_congr fun order => and_congr_right fun _ => ?_
  split
  · cases Emit.rootConstructor s.plan (s.plan.stepsIn order) s.program with
    | error e q => simp [Outcome.throw_ok]
    | ok emitted q =>
        simp only [Outcome.pure_ok, BoundProgram.mk.injEq, BindReport.mk.injEq,
          EStateM.Result.ok.injEq]
        grind
  · simp only [Outcome.pure_ok, BoundProgram.mk.injEq, BindReport.mk.injEq]
    grind

/-- The last part of a run changes nothing but the root constructor. -/
theorem finish_ok (h : config.finish s = .ok r) :
    r.plan = s.plan ∧ s.plan.order s.program s.graph = .ok r.report.order ∧
      r.report.bindings = s.bindings ∧
      s.program.Rewrites (fun id => id = s.plan.rootConstructor ∧ 0 < r.report.emittedSteps)
        (fun _ => False) r.program := by
  obtain ⟨order, hOrder, hEmit, hPlan, hBindings, -, rfl, -, -⟩ := finish_iff.mp h
  refine ⟨hPlan, hOrder, hBindings, ?_⟩
  split at hEmit
  · exact Emit.rootConstructor_ok hEmit
  · rw [hEmit.2]
    exact .refl _

end BinderConfig

end ContextBinding
