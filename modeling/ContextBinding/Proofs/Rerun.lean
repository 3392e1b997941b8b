import ContextBinding.Proofs.Emission
import ContextBinding.Proofs.Retirement
import ContextBinding.Proofs.Validation
import ContextBinding.Proofs.Visit

/-! When a second run has nothing to do. All that a run finishes stays finished, so
 that running the binder again on the result changes nothing just if the code has
 no place left that needs the root and the order can be had from the code alone. -/

namespace ContextBinding

namespace BoundProgram

variable (config : BinderConfig) (r : BoundProgram)

/-- A second run succeeds, changes neither program nor plan, reports that it had
nothing to do, and gives the same order. -/
def Idle : Prop :=
  ∃ again, config.run r.program r.plan = .ok again ∧ again.program = r.program ∧
    again.plan = r.plan ∧ again.report.isNoop = true ∧ again.report.order = r.report.order

/-- The code of a method that a second run looks at from the start. -/
def Seeded (id : MethodId) (b : MethodBody) : Prop :=
  ∃ m, r.program.method? id = some m ∧ m.isRetired = false ∧ m.body = some b ∧
    Propagate.isSeed (.start r.program r.plan config.options) m = true

/-- Nothing is left for a second run. -/
structure Settled : Prop where
  /-- No code that is looked at from the start has a place that needs the root. -/
  code : ∀ id b, r.Seeded config id b →
    (Propagation.start r.program r.plan config.options).places b = []
  /-- The graph of the code gives the order that the first run gave. -/
  order : ∃ g, GraphEdit.build r.program (.empty, .empty) = .ok () g ∧
    r.plan.order r.program g.1 = .ok r.report.order
  /-- One batch may be worked on, if there is anything to look at. -/
  limit : config.options.maxIterations = some 0 → ∀ id b, ¬ r.Seeded config id b

end BoundProgram

namespace Step

variable {ε σ α β : Type}

theorem forM_idle {f : α → EStateM ε σ PUnit} {l : List α} {s : σ}
    (h : ∀ a ∈ l, f a s = .ok ⟨⟩ s) : l.forM f s = .ok ⟨⟩ s := by
  induction l with
  | nil => rfl
  | cons a l ih =>
      apply bind_ok.mpr
      exact ⟨⟨⟩, s, h a (List.mem_cons_self ..), ih fun b hb => h b (List.mem_cons_of_mem _ hb)⟩

theorem mapM_idle {f : α → EStateM ε σ β} {g : α → β} {l : List α} {s : σ}
    (h : ∀ a ∈ l, f a s = .ok (g a) s) : l.mapM f s = .ok (l.map g) s := by
  induction l with
  | nil => rfl
  | cons a l ih =>
      apply mapM_cons_ok.mpr
      exact ⟨g a, s, l.map g, h a (List.mem_cons_self ..),
        ih fun b hb => h b (List.mem_cons_of_mem _ hb), rfl⟩

end Step

namespace Propagate

open Propagation (Advanced Edited)

variable {s t : Propagation}

/-- Methods that are out of use are not bound again. -/
theorem bindReplacements_idle (h : ∀ b ∈ s.plan.given, s.program.Retired b.method) :
    bindReplacements s = .ok () s := by
  apply Step.bind_ok.mpr
  refine ⟨s, s, Step.get_ok.mpr ⟨rfl, rfl⟩, ?_⟩
  have hSkipped : ∀ b ∈ s.plan.given, (do
      if (← model fun p => p.methodDef b.method).isRetired then pure none
      else
        bindMethod b
        pure (some (b.method, b.replacement)) : Propagate (Option (MethodId × MethodId))) s
          = .ok none s := by
    intro b hb
    obtain ⟨m, hMethod, hRetired⟩ := h b hb
    apply Step.bind_ok.mpr
    refine ⟨m, s, model_ok.mpr ⟨Program.methodDef_ok.mpr hMethod, rfl⟩, ?_⟩
    rw [if_pos hRetired]
    exact Step.pure_ok.mpr ⟨rfl, rfl⟩
  apply Step.bind_ok.mpr
  refine ⟨s.plan.given.map fun _ => none, s, Step.mapM_idle hSkipped, ?_⟩
  have hNone : (s.plan.given.map fun _ => (none : Option (MethodId × MethodId))).filterMap id = [] := by
    simp
  rw [hNone]
  exact Step.pure_ok.mpr ⟨rfl, rfl⟩

/-- Moved fields that are out of use or named stay as they are. -/
theorem retireMovedFields_idle (h : ∀ field ∈ s.plan.movedFields, ∃ f,
    s.program.field? field = some f ∧ (f.isRetired = true ∨ field ∈ s.program.namedFields)) :
    retireMovedFields s = .ok () s := by
  apply Step.bind_ok.mpr
  refine ⟨s, s, Step.get_ok.mpr ⟨rfl, rfl⟩, ?_⟩
  split
  · apply Step.forM_idle
    intro field hMoved
    obtain ⟨f, hField, hDone⟩ := h field hMoved
    apply Step.bind_ok.mpr
    refine ⟨f, s, model_ok.mpr ⟨Program.fieldDef_ok.mpr hField, rfl⟩, ?_⟩
    rw [if_neg]
    · exact Step.pure_ok.mpr ⟨rfl, rfl⟩
    · change ¬ (!f.isRetired && !s.program.namedFields.contains field) = true
      rcases hDone with hRetired | hNamed
      · simp [hRetired]
      · simp [hNamed]
  · exact Step.pure_ok.mpr ⟨rfl, rfl⟩

/-- A method without a place that needs the root. -/
def Quiet (s : Propagation) (method : MethodId) : Prop :=
  ∃ b, s.program.liveBody? method = some b ∧ s.places b = []

theorem visit_idle {method : MethodId} (h : Quiet s method)
    (hFree : s.bindings.isBound method = false) : visit method s = .ok () s.visited := by
  obtain ⟨b, hLive, hNone⟩ := h
  obtain ⟨m, hMethod, hUsed, hBody⟩ := Program.liveBody?_eq_some.mp hLive
  apply Step.bind_ok.mpr
  refine ⟨⟨⟩, s.visited, Step.modify_ok.mpr rfl, ?_⟩
  apply Step.bind_ok.mpr
  refine ⟨m, s.visited, model_ok.mpr ⟨Program.methodDef_ok.mpr hMethod, rfl⟩, ?_⟩
  apply Step.bind_ok.mpr
  refine ⟨s.visited, s.visited, Step.get_ok.mpr ⟨rfl, rfl⟩, ?_⟩
  have hVisit : (m.isLive && !s.visited.bindings.isBound method) = true := by
    change (m.isLive && !s.bindings.isBound method) = true
    simp [MethodDef.isLive, hUsed, hBody, hFree]
  rw [if_pos hVisit]
  apply Step.bind_ok.mpr
  refine ⟨[], s.visited, scan_ok.mpr ⟨⟨b, ?_, hNone⟩, rfl⟩, Step.pure_ok.mpr ⟨rfl, rfl⟩⟩
  exact Program.body_ok.mpr ⟨m, hMethod, hBody⟩

/-- Visiting what needs nothing only counts the visits. -/
theorem visits_idle {methods : List MethodId} (h : ∀ method ∈ methods, Quiet s method)
    (hFree : s.bindings = .empty) :
    ∃ stats, methods.forM visit s = .ok () { s with stats := stats } := by
  induction methods generalizing s with
  | nil => exact ⟨s.stats, rfl⟩
  | cons method methods ih =>
      have hNone : s.bindings.isBound method = false := by rw [hFree]; rfl
      have hFirst := visit_idle (h method (List.mem_cons_self ..)) hNone
      obtain ⟨stats, hRest⟩ := ih (s := s.visited)
        (fun other hOther => h other (List.mem_cons_of_mem _ hOther)) hFree
      exact ⟨stats, Step.bind_ok.mpr ⟨(), s.visited, hFirst, hRest⟩⟩

/-- A batch of methods that need nothing is the last one. -/
theorem visitAll_idle (h : ∀ method ∈ s.pending, Quiet s method) (hFree : s.bindings = .empty)
    (hLimit : s.pending ≠ [] → ∀ limit ∈ s.options.maxIterations, s.stats.iterations < limit) :
    ∃ stats, visitAll s = .ok () { s with stats := stats, pending := [] } := by
  by_cases hSome : s.pending = []
  · refine ⟨s.stats, ?_⟩
    rw [visitAll_done hSome, ← hSome]
  · obtain ⟨stats, hVisits⟩ := visits_idle (s := s.opened) h hFree
    exact ⟨stats, visitAll_once hSome (batch_ok.mpr ⟨hLimit hSome, hVisits⟩) rfl⟩

/-- The program was edited, or a method is bound. -/
def Moved (s t : Propagation) : Prop :=
  s.program.edits < t.program.edits ∨ ∃ method, t.bindings.isBound method = true

theorem Moved.later {u : Propagation} (h : Moved s t) (hLater : t.Advances u) : Moved s u := by
  rcases h with hEdited | ⟨method, hBound⟩
  · exact Or.inl (Nat.lt_of_lt_of_le hEdited hLater.grows.edits)
  · exact Or.inr ⟨method, isBound_of_advances hBound hLater⟩

theorem Moved.earlier {r : Propagation} (h : Moved s t) (hEarlier : r.Advances s) : Moved r t :=
  h.imp_left (Nat.lt_of_le_of_lt hEarlier.grows.edits)

/-- A step that leads to a later point, with an edit of the program on the way. -/
def Touched (s t : Propagation) : Prop :=
  s.closures.Keyed → s.Advances t ∧ s.program.edits < t.program.edits

theorem Touched.later {u : Propagation} (h : Touched s t) (hLater : Advanced t u) : Touched s u := by
  intro hKeyed
  obtain ⟨hAdvances, hEdits⟩ := h hKeyed
  have hRest := hLater hAdvances.keyed
  exact ⟨hAdvances.trans hRest, Nat.lt_of_lt_of_le hEdits hRest.grows.edits⟩

theorem Touched.earlier {u : Propagation} (hEarlier : Advanced s t) (h : Touched t u) :
    Touched s u := by
  intro hKeyed
  have hFirst := hEarlier hKeyed
  obtain ⟨hAdvances, hEdits⟩ := h hFirst.keyed
  exact ⟨hFirst.trans hAdvances, Nat.lt_of_le_of_lt hFirst.grows.edits hEdits⟩

section Touch

variable {α β : Type}

theorem touches_then {x : Propagate α} {f : α → Propagate β} (hx : Keeps Touched x)
    (hf : ∀ a, Keeps Advanced (f a)) : Keeps Touched (x >>= f) :=
  Keeps.bind_trans hx hf fun _ _ _ h hLater => h.later hLater

theorem touches_after {x : Propagate α} {f : α → Propagate β} (hx : Keeps Advanced x)
    (hf : ∀ a, Keeps Touched (f a)) : Keeps Touched (x >>= f) :=
  Keeps.bind_trans hx hf fun _ _ _ hEarlier h => .earlier hEarlier h

/-- Every edit of a body is counted. -/
theorem touches_editBody {method : MethodId} {e : BodyEdit α}
    (he : Keeps MethodBody.Revises e) : Keeps Touched (editBody method e) := by
  intro s a t h hKeyed
  refine ⟨(keeps_editBody (S := fun _ => True) trivial he h).advanced hKeyed, ?_⟩
  obtain ⟨p, hEdit, rfl⟩ := edit_ok.mp h
  obtain ⟨m, b, b', -, -, -, rfl⟩ := Program.editBody_ok hEdit
  exact Nat.lt_succ_self _

end Touch

theorem advances_loadContext {site : RootedMethod} {context : ContextId} {access : ChainAccess} :
    Keeps Advanced (loadContext site context access) :=
  advances_edited (S := fun _ => False) (loadContext_keeps workKeeps_edited)

theorem touches_adaptSingleton {site : RootedMethod} {id : InstrId} {context : ContextId} :
    Keeps Touched (adaptSingleton site id context) := by
  apply touches_after advances_loadContext
  intro code
  exact touches_then (touches_editBody MethodBody.revises_replaceWith) fun _ => Keeps.pure _

theorem touches_storeDisplayRoot {site : RootedMethod} {id : InstrId} {field : FieldId} :
    Keeps Touched (closures (ClosureEdit.storeDisplayRoot site id field)) := by
  intro s u t h hKeyed
  have hEdited : Edited (fun _ => True) s t :=
    keeps_closures (ClosureEdit.keeps_storeDisplayRoot trivial) h
  refine ⟨hEdited.advanced hKeyed, ?_⟩
  obtain ⟨⟨c, w⟩, hStore, rfl⟩ := Step.focus_ok.mp h
  obtain ⟨root, _, hRoot, hStore⟩ := Step.bind_ok.mp hStore
  obtain ⟨_, hBound, rfl⟩ := ClosureEdit.work_ok.mp hRoot
  obtain ⟨-, rfl⟩ := CodeEdit.bound_ok.mp hBound
  obtain ⟨ids, _, hEdit, hPure⟩ := Step.bind_ok.mp hStore
  obtain ⟨p, hInsert, rfl⟩ := ClosureEdit.edit_ok.mp hEdit
  obtain ⟨-, hSame⟩ := Step.pure_ok.mp hPure
  obtain ⟨m, b, b', -, -, -, rfl⟩ := Program.editBody_ok hInsert
  obtain ⟨-, rfl⟩ := Prod.mk.inj hSame
  exact Nat.lt_succ_self _

/-- Adapting an access of a moved field edits the code. -/
theorem adaptField_touched {site : RootedMethod} {id : InstrId} {context : ContextId}
    {moved : FieldId} {u : Unit} (h : adaptField site id context moved s = .ok u t)
    {b : MethodBody} {i : Instruction} (hBody : s.program.body site.method = .ok b)
    (hFound : b.get? id = some i)
    (hOpcode : i.opcode = .ldsfld ∨ i.opcode = .ldsflda ∨ i.opcode = .stsfld) : Touched s t := by
  obtain ⟨j, _, hInstruction, h⟩ := Step.bind_ok.mp h
  obtain ⟨w, hWork, rfl⟩ := Step.focus_ok.mp hInstruction
  obtain ⟨⟨b', hBody', hFound'⟩, rfl⟩ := CodeEdit.instruction_ok.mp hWork
  obtain rfl : b = b' := Except.ok.inj (hBody.symm.trans hBody')
  obtain rfl : i = j := Option.some_inj.mp (hFound.symm.trans hFound')
  rcases hOpcode with hOpcode | hOpcode | hOpcode <;> simp only [hOpcode] at h
  · refine touches_after advances_loadContext (fun code => ?_) h
    exact touches_then (touches_editBody MethodBody.revises_replaceWith) fun _ => Keeps.pure _
  · refine touches_after advances_loadContext (fun code => ?_) h
    exact touches_then (touches_editBody MethodBody.revises_replaceWith) fun _ => Keeps.pure _
  · refine touches_after advances_loadContext (fun code => ?_) h
    refine touches_after ?_ fun _ => touches_editBody MethodBody.revises_replace
    exact advances_edited (S := fun _ => True) (insertBelow_keeps workKeeps_edited trivial)

/-- Where nothing is bound, adapting a place edits the code. -/
theorem adaptSite_touched {site : RootedMethod} {place : NeedySite} {r : Bool} {s₀ : Propagation}
    (h : adaptSite site place s = .ok r t) (hFree : s₀.bindings = .empty) {b : MethodBody}
    (hPlace : place ∈ s₀.places b) (hBody : s.program.body site.method = .ok b)
    (hNumbered : b.Numbered) : Touched s t := by
  obtain ⟨i, hMem, hSite⟩ := List.mem_filterMap.mp hPlace
  obtain ⟨need, hNeed, rfl⟩ := Option.map_eq_some_iff.mp hSite
  have hReason := NeedySite.reason_of_needOf? hNeed
  unfold adaptSite at h
  cases need with
  | staticField context moved =>
      obtain ⟨_, s₁, hField, h⟩ := Step.bind_ok.mp h
      obtain ⟨-, rfl⟩ := Step.pure_ok.mp h
      exact adaptField_touched hField hBody (hNumbered.get?_id hMem) hReason.1
  | singleton context =>
      exact touches_then touches_adaptSingleton (fun _ => Keeps.pure _) h
  | displayStore field =>
      exact touches_then touches_storeDisplayRoot (fun _ => Keeps.pure _) h
  | boundCall binding =>
      obtain ⟨-, target, -, hBound⟩ := hReason
      rw [hFree] at hBound
      cases hBound
  | capture binding =>
      obtain ⟨-, target, -, hBound⟩ := hReason
      rw [hFree] at hBound
      cases hBound

/-- Giving way to the root over a display class edits the program, unless the display
class has its field. -/
theorem displayHandle?_touched {method : MethodId} {handle : HandleSource}
    (h : displayHandle? method s = .ok (some handle) t) : s = t ∨ Touched s t := by
  rcases displayHandle?_ok h with hSame | ⟨m, field, p, -, -, -, -, -, hField, rfl⟩
  · exact Or.inl hSame
  · obtain ⟨-, -, hEdits, -, -⟩ := Program.addField_ok hField
    exact Or.inr fun hKeyed => ⟨advances_displayHandle? h hKeyed, hEdits⟩

/-- A visit of code that needs the root edits the program or binds the method. -/
theorem visit_moves {method : MethodId} {u : Unit} (h : visit method s = .ok u t)
    (hKeyed : s.closures.Keyed) (hFree : s.bindings = .empty) (hNumbered : s.program.Numbered)
    (hLive : s.program.isLive method = true) : Quiet s method ∨ Moved s t := by
  have hAdapted {b : MethodBody} {handle : HandleSource} {u : Propagation}
      (hSome : s.places b ≠ []) (hLive : s.program.liveBody? method = some b)
      (hHandle : s.visited = u ∨ Touched s.visited u)
      (hAdapt : adaptInPlace ⟨method, handle⟩ (s.places b) u = .ok () t) : Moved s t := by
    obtain ⟨m, hMethod, -, hBody⟩ := Program.liveBody?_eq_some.mp hLive
    have hCode : s.visited.program.body method = .ok b := Program.body_ok.mpr ⟨m, hMethod, hBody⟩
    have hTouched : Touched s.visited t := by
      rcases hHandle with rfl | hTouched
      · obtain ⟨first, rest, hPlaces⟩ := List.exists_cons_of_ne_nil hSome
        rw [hPlaces] at hAdapt
        obtain ⟨outcomes, s₁, hSites, hEnd⟩ := Step.bind_ok.mp hAdapt
        obtain ⟨r, s₂, rs, hFirst, hRest, rfl⟩ := Step.mapM_cons_ok.mp hSites
        have hFirst : Touched s.visited s₂ := by
          apply adaptSite_touched hFirst hFree (hPlaces ▸ List.mem_cons_self ..) hCode
          exact hNumbered m (List.mem_of_getElem? hMethod) b hBody
        apply (hFirst.later (Keeps.mapM (fun place _ => ?_) hRest)).later
        · refine Keeps.ite ?_ (Keeps.pure _) hEnd
          exact Keeps.bind (advances_edited (S := fun _ => False) keeps_count) fun _ => advances_graph
        · exact advances_edited (keeps_adaptSite (S := fun _ => True) trivial)
      · exact hTouched.later (advances_adaptInPlace hAdapt)
    exact Or.inl (hTouched hKeyed).2
  cases visit_ok h with
  | skipped hDone hEnd =>
      rcases hDone with hDead | hBound
      · obtain ⟨b, hThere⟩ := Program.isLive_iff.mp hLive
        simp [hDead] at hThere
      · rw [hFree] at hBound
        cases hBound
  | settled b hThere hNone hEnd => exact Or.inl ⟨b, hThere, hNone⟩
  | adapted b hThere hFree hSome handle hHandle hAdapt =>
      exact Or.inr (hAdapted hSome hThere (Or.inl rfl) hAdapt)
  | captured b hThere hUnbound hSome handle u hNone hDisplay hAdapt =>
      exact Or.inr (hAdapted hSome hThere (displayHandle?_touched hDisplay) hAdapt)
  | bound b hThere hUnbound hSome hNone hBind =>
      exact Or.inr (Or.inr ⟨method, bindNeedy_isBound hBind hKeyed⟩)

/-- Visits of code in use edit the program or bind a method, unless nothing in the
code needs the root. -/
theorem visits_move {methods : List MethodId} {u : Unit} (h : methods.forM visit s = .ok u t)
    (hKeyed : s.closures.Keyed) (hFree : s.bindings = .empty) (hNumbered : s.program.Numbered)
    (hLive : ∀ method ∈ methods, s.program.isLive method = true) :
    (∀ method ∈ methods, Quiet s method) ∨ Moved s t := by
  induction methods generalizing s with
  | nil => exact Or.inl fun _ h => (List.not_mem_nil h).elim
  | cons method methods ih =>
      obtain ⟨_, s₁, hFirst, hRest⟩ := Step.bind_ok.mp h
      have hAdvances := advances_visit hFirst hKeyed
      have hLater := Keeps.forM (fun _ _ => advances_visit) hRest hAdvances.keyed
      rcases visit_moves hFirst hKeyed hFree hNumbered (hLive method (List.mem_cons_self ..)) with
        hQuiet | hMoved
      · have hNone : s.bindings.isBound method = false := by rw [hFree]; rfl
        have hIdle := visit_idle hQuiet hNone
        obtain rfl : s.visited = s₁ := by
          rw [hIdle] at hFirst
          exact (EStateM.Result.ok.inj hFirst).2
        have hOthers : ∀ other ∈ methods, s.visited.program.isLive other = true :=
          fun other hOther => hLive other (List.mem_cons_of_mem _ hOther)
        refine (ih hRest hAdvances.keyed hFree hNumbered hOthers).imp (fun hQuiets => ?_) fun h => h
        exact List.forall_mem_cons.mpr ⟨hQuiet, hQuiets⟩
      · exact Or.inr (hMoved.later hLater)

end Propagate

namespace BoundProgram

/-- What a run finishes. -/
structure Concluded (config : BinderConfig) (r : BoundProgram) : Prop where
  valid : r.plan.validate r.program = .ok ()
  given : ∀ b ∈ r.plan.given, r.program.Retired b.method
  moved : ∀ field ∈ r.plan.movedFields, ∃ f, r.program.field? field = some f ∧
    (f.isRetired = true ∨ field ∈ r.program.namedFields)
  filled : config.emitRootConstructor = true →
    Emit.rootConstructor r.plan (r.plan.stepsIn r.report.order) r.program = .ok 0 r.program
  numbered : r.program.Numbered

end BoundProgram

namespace BinderConfig

open Propagate Propagation

variable {config : BinderConfig} {p : Program} {plan : ContextPlan} {r : BoundProgram}

/-- Emission keeps what code in use names. -/
theorem namedFields_finish {s : Propagation} (h : config.finish s = .ok r) {field : FieldId}
    (hNamed : field ∈ s.program.namedFields) : field ∈ r.program.namedFields := by
  obtain ⟨order, -, hEmit, -⟩ := finish_iff.mp h
  split at hEmit
  · obtain ⟨id, b, i, hLive, hMem, hField⟩ := Program.mem_namedFields.mp hNamed
    obtain ⟨b', hLive', hRetains⟩ := Emit.rootConstructor_retains hEmit hLive
    obtain ⟨i', hMem', hGist⟩ := hRetains i hMem
    simp only [Instruction.gist, Prod.mk.injEq] at hGist
    exact Program.mem_namedFields.mpr ⟨id, b', i', hLive', hMem', hGist.2.1.trans hField⟩
  · exact hEmit.2 ▸ hNamed

/-- A run that takes out of use what it replaces leaves a program for which all but
the code itself is finished. -/
theorem run_concluded (h : config.run p plan = .ok r)
    (hRetire : config.options.retireReplaced = true) (hNumbered : p.Numbered) :
    r.Concluded config := by
  obtain ⟨hValid, s, hRun, hFinish⟩ := run_ok.mp h
  obtain ⟨s₁, s₂, s₃, s₄, hBuild, hGiven, hBatches, hMoved, rfl⟩ := Propagate.run_iff.mp hRun
  obtain ⟨hPlan, -, -, hConfined⟩ := finish_ok hFinish
  have h₁ := advances_graph hBuild (Propagation.keyed_start p plan config.options)
  have h₂ := advances_bindReplacements hGiven h₁.keyed
  have h₂' : s₂.Advances s₂.seeded := (keeps_enqueue (S := fun _ => False) rfl).advanced h₂.keyed
  have h₃ := advances_visitAll hBatches h₂'.keyed
  have hFields : Edited (fun _ => False) s₃ s₄ := keeps_retireMovedFields hMoved
  have h₄ := hFields.advanced h₃.keyed
  have hGrows : s₂.program.Grows r.program :=
    ((h₂'.trans h₃).trans h₄).grows.trans hConfined.grows
  have hShape : r.plan.shape = plan.shape := by
    rw [hPlan]
    exact ((((h₁.trans h₂).trans h₂').trans h₃).trans h₄).plan
  have hAll : p.Grows r.program := (h₁.trans h₂).grows.trans hGrows
  refine ⟨?_, fun b hb => ?_, fun field hField => ?_, fun hEmits => ?_, hAll.numbered hNumbered⟩
  · exact ContextPlan.validate_of_shape hShape (ContextPlan.validate_grows hAll hValid)
  · rw [← ContextPlan.given_shape, hShape, ContextPlan.given_shape] at hb
    obtain ⟨u, -, rfl⟩ := graph_ok.mp hBuild
    exact (bindReplacements_retires hGiven hRetire h₁.keyed hb).grows hGrows
  · have hBefore : s₃.plan = r.plan := (hPlan.trans hFields.plan).symm
    have hOptions : s₃.options.retireReplaced = true := by
      rw [(((h₁.trans h₂).trans h₂').trans h₃).options]
      exact hRetire
    obtain ⟨f, hThere, hDone⟩ := retireMovedFields_ok hMoved hOptions h₃.keyed (hBefore ▸ hField)
    obtain ⟨f', hThere', hStep⟩ := hConfined.grows.field hThere
    refine ⟨f', hThere', hDone.imp hStep.retired fun hNamed => namedFields_finish hFinish ?_⟩
    have hSame : s₄.program.namedFields = s₃.program.namedFields := by
      have hMethods : s₄.program.methods = s₃.program.methods := retireMovedFields_methods hMoved
      unfold Program.namedFields Program.liveMethods Program.methodIds Program.method?
      rw [hMethods]
    exact hSame ▸ hNamed
  · obtain ⟨order, -, hEmit, -, -, -, rfl, -⟩ := finish_iff.mp hFinish
    rw [if_pos hEmits] at hEmit
    rw [hPlan]
    exact Emit.rootConstructor_again hEmit

end BinderConfig

namespace BoundProgram

open Propagate Propagation

variable {config : BinderConfig} {r : BoundProgram} {g : ReferenceGraph × FlowCache}

/-- The point of a second run at which the graph is built. -/
def rebuilt (config : BinderConfig) (r : BoundProgram) (g : ReferenceGraph × FlowCache) :
    Propagation :=
  { Propagation.start r.program r.plan config.options with
    work := ⟨r.program, g.2⟩
    graph := g.1 }

theorem mem_rebuilt {method : MethodId} :
    method ∈ (r.rebuilt config g).seeded.pending ↔ ∃ b, r.Seeded config method b := by
  rw [Propagation.mem_seeded]
  constructor
  · rintro (hPending | ⟨m, b, hMethod, hUsed, hBody, hSeed⟩)
    · exact (List.not_mem_nil hPending).elim
    · exact ⟨b, m, hMethod, hUsed, hBody, hSeed⟩
  · rintro ⟨b, m, hMethod, hUsed, hBody, hSeed⟩
    exact Or.inr ⟨m, b, hMethod, hUsed, hBody, hSeed⟩

/-- If no code needs the root, the batches of a second run only count. -/
theorem visitAll_rebuilt (hQuiet : ∀ method ∈ (r.rebuilt config g).seeded.pending,
      Quiet (r.rebuilt config g).seeded method)
    (hLimit : config.options.maxIterations = some 0 → ∀ id b, ¬ r.Seeded config id b) :
    ∃ stats, visitAll (r.rebuilt config g).seeded
      = .ok () { r.rebuilt config g with stats := stats } := by
  apply visitAll_idle hQuiet rfl
  intro hPending limit hMax
  obtain ⟨method, hMem⟩ := List.exists_mem_of_ne_nil _ hPending
  obtain ⟨b, hSeeded⟩ := mem_rebuilt.mp hMem
  apply Nat.pos_of_ne_zero
  rintro rfl
  exact hLimit hMax method b hSeeded

/-- If no code needs the root, a second run comes to its end with nothing changed. -/
theorem propagate_rebuilt (hDone : r.Concluded config)
    (hBuild : GraphEdit.build r.program (.empty, .empty) = .ok () g) {stats : PropagationStats}
    (hBatches : visitAll (r.rebuilt config g).seeded
      = .ok () { r.rebuilt config g with stats := stats }) :
    ∃ stats, propagate r.program r.plan config.options
      = .ok () { r.rebuilt config g with stats := stats } := by
  let done : Propagation := { r.rebuilt config g with stats := stats }
  refine ⟨_, Propagate.run_iff.mpr ⟨r.rebuilt config g, r.rebuilt config g, done, done, ?_, ?_,
    hBatches, ?_, rfl⟩⟩
  · exact graph_ok.mpr ⟨g, hBuild, rfl⟩
  · exact bindReplacements_idle hDone.given
  · exact retireMovedFields_idle hDone.moved

end BoundProgram

namespace BinderConfig

open Propagate Propagation BoundProgram

variable {config : BinderConfig} {p : Program} {plan : ContextPlan} {r : BoundProgram}

/-- Nothing is left for a second run, so it does nothing. -/
theorem idle_of_settled (hDone : r.Concluded config) (h : r.Settled config) : r.Idle config := by
  obtain ⟨g, hBuild, hOrder⟩ := h.order
  have hQuiet : ∀ method ∈ (r.rebuilt config g).seeded.pending,
      Quiet (r.rebuilt config g).seeded method := by
    intro method hMem
    obtain ⟨b, hSeeded⟩ := mem_rebuilt.mp hMem
    obtain ⟨m, hMethod, hUsed, hBody, -⟩ := id hSeeded
    exact ⟨b, Program.liveBody?_eq_some.mpr ⟨m, hMethod, hUsed, hBody⟩, h.code method b hSeeded⟩
  obtain ⟨_, hBatches⟩ := visitAll_rebuilt hQuiet h.limit
  obtain ⟨stats, hRun⟩ := propagate_rebuilt hDone hBuild hBatches
  let report : BindReport :=
    { bindings := .empty
      records := []
      order := r.report.order
      steps := r.plan.stepsIn r.report.order
      emittedSteps := 0
      stats }
  refine ⟨⟨r.program, r.plan, report⟩, run_ok.mpr ⟨hDone.valid, _, hRun, ?_⟩, rfl, rfl, rfl, rfl⟩
  apply finish_iff.mpr
  refine ⟨r.report.order, hOrder, ?_, rfl, rfl, rfl, rfl, rfl, rfl⟩
  split
  · exact hDone.filled ‹_›
  · exact ⟨rfl, rfl⟩

/-- A second run that does nothing had nothing to do. -/
theorem settled_of_idle (hDone : r.Concluded config) (h : r.Idle config) : r.Settled config := by
  obtain ⟨again, hAgain, hProgram, hPlan, hNoop, hSame⟩ := h
  obtain ⟨-, t, hRun, hFinish⟩ := run_ok.mp hAgain
  obtain ⟨s₁, s₂, s₃, s₄, hGraph, hGiven, hBatches, hMoved, hEnd⟩ := Propagate.run_iff.mp hRun
  obtain ⟨g, hBuild, rfl⟩ := graph_ok.mp hGraph
  have hSecond : r.rebuilt config g = s₂ := by
    rw [bindReplacements_idle hDone.given] at hGiven
    exact (EStateM.Result.ok.inj hGiven).2
  subst hSecond
  have hKeyed : (r.rebuilt config g).seeded.closures.Keyed := by
    intro key r hGet
    have hNone : (∅ : Table RecordKey CaptureRecord).get? key = some r := hGet
    simp [Table.get?_empty] at hNone
  have hAdvances := advances_visitAll hBatches hKeyed
  have hFields := (keeps_retireMovedFields (S := fun _ => False) hMoved).advanced hAdvances.keyed
  obtain ⟨hPlan', hOrder, hBindings, hConfined⟩ := finish_ok hFinish
  have hStill (u : Propagation) (hBefore : u.Advances s₃) :
      ¬ Moved (r.rebuilt config g).seeded u := by
    intro hMove
    rcases (hMove.later hBefore).later hFields with hEdits | ⟨method, hBound⟩
    · have hGrown : s₄.program.edits ≤ again.program.edits := by
        rw [← hEnd] at hConfined
        exact hConfined.grows.edits
      rw [hProgram] at hGrown
      exact Nat.lt_irrefl _ (Nat.lt_of_lt_of_le hEdits hGrown)
    · have hEmpty : s₄.bindings.isEmpty = true := by
        have hReported : again.report.bindings = s₄.bindings := by rw [hBindings, ← hEnd]; rfl
        rw [← hReported]
        simp only [BindReport.isNoop, Bool.and_eq_true] at hNoop
        exact hNoop.1.1
      obtain ⟨b, hGet⟩ := Option.isSome_iff_exists.mp hBound
      have hNil : s₄.bindings.table.entries = [] := List.isEmpty_iff.mp hEmpty
      have hMem := Table.mem_entries_of_get? hGet
      rw [hNil] at hMem
      exact List.not_mem_nil hMem
  have hQuiet : (∀ method ∈ (r.rebuilt config g).seeded.pending,
      Quiet (r.rebuilt config g).seeded method) ∧
        (config.options.maxIterations = some 0 → ∀ id b, ¬ r.Seeded config id b) := by
    obtain ⟨hConcludes, -⟩ := visitAll_concludes hBatches
    rcases hConcludes with hNone | @⟨-, u, -, -, hBatch, hRest⟩ | -
    · rw [hNone]
      refine ⟨fun method hMem => (List.not_mem_nil hMem).elim, fun _ id b hSeeded => ?_⟩
      have hMem := mem_rebuilt (g := g).mpr ⟨b, hSeeded⟩
      rw [hNone] at hMem
      exact List.not_mem_nil hMem
    · have hLater := hRest.advances (advances_batch hBatch hKeyed).keyed
      obtain ⟨hLimit, hVisits⟩ := batch_ok.mp hBatch
      constructor
      · refine (visits_move hVisits hKeyed rfl hDone.numbered fun method hMem => ?_).resolve_right
          (hStill u hLater)
        obtain ⟨b, m, hMethod, hUsed, hBody, -⟩ := mem_rebuilt.mp hMem
        exact Program.isLive_iff.mpr ⟨b, Program.liveBody?_eq_some.mpr ⟨m, hMethod, hUsed, hBody⟩⟩
      · intro hMax
        exact absurd (hLimit 0 hMax) (Nat.not_lt_zero _)
  obtain ⟨stats, hIdle⟩ := visitAll_rebuilt hQuiet.1 hQuiet.2
  obtain ⟨stats', hWhole⟩ := propagate_rebuilt hDone hBuild hIdle
  obtain rfl : { r.rebuilt config g with stats := stats' } = t := by
    rw [hWhole] at hRun
    exact (EStateM.Result.ok.inj hRun).2
  refine ⟨fun id b hSeeded => ?_, ⟨g, hBuild, hSame ▸ hOrder⟩, hQuiet.2⟩
  obtain ⟨b', hLive, hNone⟩ := hQuiet.1 id (mem_rebuilt.mpr ⟨b, hSeeded⟩)
  obtain ⟨m, hMethod, hUsed, hBody, -⟩ := hSeeded
  have hThere : r.program.liveBody? id = some b :=
    Program.liveBody?_eq_some.mpr ⟨m, hMethod, hUsed, hBody⟩
  obtain rfl : b = b' := Option.some_inj.mp (hThere.symm.trans hLive)
  exact hNone

end BinderConfig

namespace BoundProgram

/-- A second run edits the program, or fails. -/
def editsAgain (config : BinderConfig) (r : BoundProgram) : Bool :=
  match config.run r.program r.plan with
  | .ok again => r.program.edits < again.program.edits
  | .error _ => true

theorem not_idle_of_editsAgain {config : BinderConfig} {r : BoundProgram}
    (h : r.editsAgain config = true) : ¬ r.Idle config := by
  rintro ⟨again, hAgain, hProgram, -⟩
  unfold editsAgain at h
  rw [hAgain] at h
  dsimp only at h
  rw [hProgram] at h
  simp at h

end BoundProgram

/-- The copy of `L` keeps constructing the display class of `K`, which stores the root
only when the copy was visited already. -/
theorem relocatedLambda_run :
    ∃ r, (default : BinderConfig).run (built relocatedLambda).1 (built relocatedLambda).2 = .ok r ∧
      r.editsAgain default = true := by
  exact Outcome.ok_of_yields (c := fun r : BoundProgram => r.editsAgain default) (by decide +kernel)

theorem relocatedLambda_numbered : (built relocatedLambda).1.Numbered := by decide +kernel

end ContextBinding
