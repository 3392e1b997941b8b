import ContextBinding.Proofs.Attendance
import ContextBinding.Proofs.Conclusion
import ContextBinding.Proofs.Rerun

/-! A run that succeeds is complete. At each point of it, code that needs the root is that of a
 method that is still to be visited, or of one that came with a capture record or with the copy of
 a display class. In the end nothing of it is left but in the latter. -/

namespace ContextBinding

namespace Propagation

/-- The methods whose code is looked at in a run: those that came in between, and those that were
looked at from the start. -/
def Looked (p : Program) (plan : ContextPlan) (options : PropagationOptions) (id : MethodId) : Prop :=
  ∀ m, p.method? id = some m → Propagate.isSeed (.start p plan options) m = true

/-- What holds at each point of a run at which the methods `ahead` are still to be visited: the
graph covers the code, bound methods are out of use, and code has what it needs. -/
structure Tended (L : MethodId → Prop) (ahead : List MethodId) (s : Propagation) : Prop where
  strict : s.closures.strict = true
  retires : s.options.retireReplaced = true
  numbered : s.program.Numbered
  covered : s.Covered .empty fun _ => False
  retired : ∀ method b, s.bindings.get? method = some b → s.program.Retired method
  attended : s.Attended s.bindings L (· ∈ ahead)

variable {B : BindingMap} {L : MethodId → Prop} {ahead rest : List MethodId} {s t : Propagation}

/-- A body without places that need the root has what it needs. -/
theorem Rests.of_places {looked : Prop} {b : MethodBody} (h : s.places b = []) :
    ∀ i ∈ b.instructions, s.Rests s.bindings looked i := by
  intro i hMem
  have hNeeds (need : SiteNeed)
      (hNeed : NeedySite.needOf? s.plan s.bindings s.closures s.program b i = some need) :
      ∃ field, need = .displayStore field := by
    have hPlace : ⟨i.id, need⟩ ∈ s.places b := NeedySite.mem_scan.mpr ⟨i, hMem, rfl, hNeed⟩
    rw [h] at hPlace
    exact (List.not_mem_nil hPlace).elim
  exact .of_free (NeedySite.free_of_needOf? hNeeds)

/-- What is visited is not to be visited any more, if it has what it needs then. -/
theorem Attended.visited {method : MethodId} (h : s.Attended B L (· ∈ method :: rest))
    (hMethod : ∀ b, s.program.liveBody? method = some b →
      ∀ i ∈ b.instructions, s.Rests B (L method) i) : s.Attended B L (· ∈ rest) := by
  intro id b hLive
  rcases h id b hLive with hIn | hRest
  · rcases List.mem_cons.mp hIn with rfl | hIn
    · exact Or.inr (Or.inr (Or.inr (hMethod b hLive)))
    · exact Or.inl hIn
  · exact Or.inr hRest

/-- Where nothing is bound, what matters is that the graph covers the code and that code has what it
needs. -/
theorem Tended.later (h : s.Tended L ahead) (hAdvances : s.Advances t)
    (hSame : t.bindings = s.bindings) (hCovered : t.Covered .empty fun _ => False)
    (hAttended : t.Attended t.bindings L (· ∈ rest)) : t.Tended L rest where
  strict := hAdvances.learns.strict.trans h.strict
  retires := hAdvances.options ▸ h.retires
  numbered := hAdvances.grows.numbered h.numbered
  covered := hCovered
  retired method b hGet := (h.retired method b (hSame ▸ hGet)).grows hAdvances.grows
  attended := hAttended

/-- A method that is bound is in use no more. -/
theorem Tended.not_live (h : s.Tended L ahead) {method : MethodId}
    (hBound : s.bindings.isBound method = true) : s.program.liveBody? method = none := by
  obtain ⟨b, hGet⟩ := Option.isSome_iff_exists.mp hBound
  obtain ⟨m, hMethod, hRetired⟩ := h.retired method b hGet
  cases hLive : s.program.liveBody? method with
  | none => rfl
  | some body =>
      obtain ⟨m', hMethod', hUsed, -⟩ := Program.liveBody?_eq_some.mp hLive
      obtain rfl := Option.some_inj.mp (hMethod.symm.trans hMethod')
      rw [hRetired] at hUsed
      cases hUsed

end Propagation

namespace Propagate

open Propagation (Amended Amends Changed Looked Reached Tended)

variable {L : MethodId → Prop} {s t : Propagation}

/-- Where the graph is derived anew around bound methods, what stands in for them is visited next,
and so are the callers. -/
theorem deriveBound_pending {bound : List (MethodId × MethodId)} {callers : List MethodId} {u : Unit}
    (h : (do
      bound.forM fun e => do
        graph fun p => GraphEdit.rederive p e.1
        graph fun p => GraphEdit.rederive p e.2
        if (← model fun p => p.methodDef e.2).body.isSome then modify (.enqueue [e.2])
        modify (.count fun n => { n with transitions := n.transitions + 1 })
      modify (.enqueue callers) : Propagate Unit) s = .ok u t) (hKeyed : s.closures.Keyed) :
    callers ⊆ t.pending ∧ ∀ e ∈ bound, ∀ b, t.program.liveBody? e.2 = some b →
      e.2 ∈ t.pending ∨ t.Own e.2 := by
  obtain ⟨_, s₁, hAll, h⟩ := Step.bind_ok.mp h
  obtain rfl := Step.modify_ok.mp h
  refine ⟨fun id hMem => Propagation.mem_enqueue.mpr (Or.inr hMem), fun e he b hLive => ?_⟩
  have hDerive (e : MethodId × MethodId) : Keeps (Amended fun _ => False) (do
      graph fun p => GraphEdit.rederive p e.1
      graph fun p => GraphEdit.rederive p e.2
      if (← model fun p => p.methodDef e.2).body.isSome then modify (.enqueue [e.2])
      modify (.count fun n => { n with transitions := n.transitions + 1 }) : Propagate Unit) := by
    refine Keeps.bind amends_graph fun _ => Keeps.bind amends_graph fun _ => ?_
    refine amends_changed (changes_edited (Keeps.bind keeps_model fun m => ?_))
    exact Keeps.ite (Keeps.bind keeps_enqueue fun _ => keeps_count) keeps_count
  obtain ⟨v, w, hBefore, hStep, hAfter⟩ := Keeps.forM_mem_ok (fun e _ => hDerive e) hAll he
  have hKeyed₁ := (hBefore hKeyed).keyed
  have hLater := hAfter (hDerive e hStep hKeyed₁).keyed
  rcases hLater.liveBody? hLive with hFalse | hOwn | hThere
  · exact hFalse.elim
  · exact Or.inr hOwn
  · refine Or.inl (Propagation.mem_enqueue.mpr (Or.inl (hLater.pending ?_)))
    obtain ⟨_, v₁, hFirst, hStep⟩ := Step.bind_ok.mp hStep
    obtain ⟨_, v₂, hSecond, hStep⟩ := Step.bind_ok.mp hStep
    obtain ⟨m, _, hModel, hStep⟩ := Step.bind_ok.mp hStep
    obtain ⟨hMethod, rfl⟩ := model_ok.mp hModel
    split at hStep
    · obtain ⟨_, v₃, hEnqueue, hStep⟩ := Step.bind_ok.mp hStep
      obtain rfl := Step.modify_ok.mp hEnqueue
      obtain rfl := Step.modify_ok.mp hStep
      exact Propagation.mem_enqueue.mpr (Or.inr (List.mem_singleton_self _))
    · rename_i hNone
      obtain rfl := Step.modify_ok.mp hStep
      obtain ⟨m', hMethod', -, hBody'⟩ := Program.liveBody?_eq_some.mp hThere
      obtain rfl : m = m' :=
        Option.some_inj.mp ((Program.methodDef_ok.mp hMethod).symm.trans hMethod')
      simp [hBody'] at hNone

theorem complete_pending {bound : List (MethodId × MethodId)} {u : Unit}
    (h : complete bound s = .ok u t) (hKeyed : s.closures.Keyed) {e : MethodId × MethodId}
    (he : e ∈ bound) : s.graph.callerMethods e.1 ⊆ t.pending ∧
      ∀ b, t.program.liveBody? e.2 = some b → e.2 ∈ t.pending ∨ t.Own e.2 := by
  unfold complete at h
  split at h
  · obtain ⟨_, _, hGet, h⟩ := Step.bind_ok.mp h
    obtain ⟨rfl, rfl⟩ := Step.get_ok.mp hGet
    obtain ⟨virtuals, s₁, hRetire, h⟩ := Step.bind_ok.mp h
    have hKeyed₁ : s₁.closures.Keyed :=
      (advances_changed (S := fun _ => False)
        (Keeps.mapM fun e _ => changes_retireBound) hRetire hKeyed).keyed
    have hCallers {v : Propagation} (hKeyed : v.closures.Keyed) (h : (do
        bound.forM fun e => do
          graph fun p => GraphEdit.rederive p e.1
          graph fun p => GraphEdit.rederive p e.2
          if (← model fun p => p.methodDef e.2).body.isSome then modify (.enqueue [e.2])
          modify (.count fun n => { n with transitions := n.transitions + 1 })
        modify (.enqueue (bound.flatMap fun e => s.graph.callerMethods e.1)) :
          Propagate Unit) v = .ok u t) : s.graph.callerMethods e.1 ⊆ t.pending ∧
        ∀ b, t.program.liveBody? e.2 = some b → e.2 ∈ t.pending ∨ t.Own e.2 := by
      obtain ⟨hCallers, hStanding⟩ := deriveBound_pending h hKeyed
      exact ⟨fun id hMem => hCallers (List.mem_flatMap.mpr ⟨e, he, hMem⟩), hStanding e he⟩
    split at h
    · obtain ⟨_, s₂, hOverrides, h⟩ := Step.bind_ok.mp h
      exact hCallers (advances_graph hOverrides hKeyed₁).keyed h
    · exact hCallers hKeyed₁ h
  · rename_i hEmpty
    obtain rfl : bound = [] := by simpa using hEmpty
    exact (List.not_mem_nil he).elim

/-- Completing a transition leaves the callers of what was bound to be visited next. -/
theorem complete_tended {made : List (MethodId × MethodId)} {ahead : List MethodId} {u : Unit}
    {v : Propagation} (hTended : s.Tended L ahead) (hGathers : s.Gathers made t)
    (h : complete made t = .ok u v) : v.Tended L ahead := by
  have hCovered := hGathers.covered _ hTended.covered
  have hAmends : t.Amends (fun _ => False) v := amends_complete h hGathers.keyed
  have hSame : v.bindings = t.bindings := same_complete h
  have hWhole := hGathers.toAdvances.trans hAmends.toAdvances
  refine ⟨hWhole.learns.strict.trans hTended.strict, hWhole.options ▸ hTended.retires,
    hWhole.grows.numbered hTended.numbered,
    complete_covered hCovered hGathers.reported h (Or.inl rfl), fun method b hGet => ?_, ?_⟩
  · rcases hGathers.bound method b (hSame ▸ hGet) with hGet | ⟨e, hMem, rfl⟩
    · exact (hTended.retired method b hGet).grows hWhole.grows
    · exact complete_retires h (hGathers.options ▸ hTended.retires) hGathers.keyed hMem
  · intro id b hLive
    by_cases hCalls : ∃ i ∈ b.instructions, ∃ e ∈ made, i.reference? = some e.1
    · obtain ⟨i, hMem, e, he, hName⟩ := hCalls
      obtain ⟨hCallers, -⟩ := complete_pending h hGathers.keyed he
      rcases hAmends.liveBody? hLive with hFalse | hOwn | hBefore
      · exact hFalse.elim
      · exact Or.inr (Or.inr (Or.inl hOwn))
      · have hNames : t.program.Names .empty id e.1 :=
          ⟨b, i, hBefore, hMem, Instruction.mem_reached_of_reference hName⟩
        rcases hCovered.lists id e.1 hNames with (hFalse | ⟨e', he', rfl⟩) | hOwn | hListed
        · exact hFalse.elim
        · exact Or.inr (((complete_pending h hGathers.keyed he').2 b hLive).imp_right Or.inl)
        · exact Or.inr (Or.inr (Or.inl (hOwn.later hAmends.toAdvances)))
        · exact Or.inr (Or.inl (hCallers (hCovered.agrees.mem_callerMethods hListed)))
    · have hKept := (hGathers.attended _ _ _ hTended.attended).kept hAmends
      rcases hKept id b hLive with (hAhead | ⟨e, he, rfl⟩) | hPending | hOwn | hRests
      · exact Or.inl hAhead
      · exact Or.inr (((complete_pending h hGathers.keyed he).2 b hLive).imp_right Or.inl)
      · exact Or.inr (Or.inl hPending)
      · exact Or.inr (Or.inr (Or.inl hOwn))
      · refine Or.inr (Or.inr (Or.inr fun i hMem => { hRests i hMem with names := ?_ }))
        intro target hName
        cases hGet : v.bindings.get? target with
        | none => exact Or.inl rfl
        | some c =>
            rcases hGathers.bound target c (hSame ▸ hGet) with hGet | ⟨e, he, rfl⟩
            · refine Or.inr (((hRests i hMem).names target hName).resolve_left ?_)
              simp [hGet]
            · exact (hCalls ⟨i, hMem, e, he, hName⟩).elim

/-- So does moving a method to a context. -/
theorem convert_tended {method : MethodId} {context : ContextId} {ahead : List MethodId} {u : Unit}
    (h : convert method context s = .ok u t) (hTended : s.Tended L ahead) : t.Tended L ahead := by
  obtain ⟨_, _, hGet, h⟩ := Step.bind_ok.mp h
  obtain ⟨rfl, rfl⟩ := Step.get_ok.mp hGet
  obtain ⟨group, _, hGroup, h⟩ := Step.bind_ok.mp h
  obtain ⟨-, rfl⟩ := bindingGroup_ok hGroup
  obtain ⟨made, s₁, hMade, h⟩ := Step.bind_ok.mp h
  obtain ⟨_, s₂, hAlign, h⟩ := Step.bind_ok.mp h
  have hGathers := bindAll_gathers (f := convertOne context) convertOne_gathers hMade
    hTended.covered.keyed hTended.numbered
  have hAligned : Changed (fun _ => False) s₁ s₂ :=
    Keeps.forM (fun _ _ => changes_alignProperty) hAlign
  exact complete_tended hTended (hGathers.kept hAligned) h

/-- So does giving one a parameter. -/
theorem addParameter_tended {method : MethodId} {ahead : List MethodId} {u : Unit}
    (h : addParameter method s = .ok u t) (hTended : s.Tended L ahead) : t.Tended L ahead := by
  obtain ⟨group, _, hGroup, h⟩ := Step.bind_ok.mp h
  obtain ⟨-, rfl⟩ := bindingGroup_ok hGroup
  obtain ⟨_, _, hRequire, h⟩ := Step.bind_ok.mp h
  obtain ⟨rfl, -⟩ := requireAllUnconverted_ok hRequire
  obtain ⟨made, s₁, hMade, h⟩ := Step.bind_ok.mp h
  obtain ⟨_, s₂, hOverrides, h⟩ := Step.bind_ok.mp h
  obtain ⟨_, s₃, hAlign, h⟩ := Step.bind_ok.mp h
  have hGathers := bindAll_gathers (f := addParameterTo) (fun h hKeyed _ =>
    addParameterTo_gathers h hKeyed) hMade hTended.covered.keyed hTended.numbered
  have hMapped : Changed (fun _ => False) s₁ s₂ :=
    Keeps.forM (fun _ _ => changes_mapOverrides) hOverrides
  have hAligned : Changed (fun _ => False) s₂ s₃ :=
    Keeps.forM (fun _ _ => changes_alignProperty) hAlign
  exact complete_tended hTended ((hGathers.kept hMapped).kept hAligned) h

theorem bindNeedy_tended {method : MethodId} {places : List NeedySite} {ahead : List MethodId}
    {u : Unit} (h : bindNeedy method places s = .ok u t) (hTended : s.Tended L ahead) :
    t.Tended L ahead := by
  obtain ⟨m, _, hModel, h⟩ := Step.bind_ok.mp h
  obtain ⟨-, rfl⟩ := model_ok.mp hModel
  obtain ⟨_, _, hGet, h⟩ := Step.bind_ok.mp h
  obtain ⟨rfl, rfl⟩ := Step.get_ok.mp hGet
  cases hHolder : s.plan.byHolder? m.owner with
  | none =>
      simp only [hHolder] at h
      exact addParameter_tended h hTended
  | some context =>
      simp only [hHolder] at h
      split at h
      · exact convert_tended h hTended
      · exact addParameter_tended h hTended

/-- Once a method was visited, its code has what it needs, or is in use no more. -/
theorem visit_tended {method : MethodId} {rest : List MethodId} {u : Unit}
    (h : visit method s = .ok u t) (hRegular : s.Regular (method :: rest))
    (hTended : s.Tended L (method :: rest)) : t.Tended L rest := by
  have hCovered : t.Covered .empty fun _ => False :=
    (stays_visit h hRegular.keyed).2 (Or.inl rfl) hTended.covered
  have hStart : s.Settles False (method :: rest) s.visited := visited_settles hRegular
  have hVisited : s.visited.Tended L (method :: rest) := by
    refine hTended.later hStart.toAdvances rfl
      { hTended.covered with lists := hTended.covered.lists } (hTended.attended.kept ?_)
    exact { Amends.refl hRegular.keyed with toAdvances := hStart.toAdvances }
  have hOthers : s.visited.Attended s.visited.bindings L fun id => id ∈ rest ∨ id = method :=
    hVisited.attended.mono fun id hIn => (List.mem_cons.mp hIn).symm
  cases visit_ok h with
  | skipped hDone hEnd =>
      subst hEnd
      have hNone : s.program.liveBody? method = none := hDone.elim id hTended.not_live
      refine { hVisited with attended := hVisited.attended.visited fun b hLive => ?_ }
      cases hLive.symm.trans hNone
  | settled b hLive hNone hEnd =>
      subst hEnd
      refine { hVisited with attended := hVisited.attended.visited fun b' hLive' i hMem => ?_ }
      obtain rfl : b = b' := Option.some_inj.mp (hLive.symm.trans hLive')
      exact Propagation.Rests.of_places (s := s.visited) hNone i hMem
  | adapted b hLive hFree hSome handle hHandle hAdapt =>
      have hAdvances := advances_adaptInPlace hAdapt hStart.keyed
      have hThere : s.visited.program.liveBody? method = some b := hLive
      refine hVisited.later hAdvances (same_adaptInPlace hAdapt) hCovered ?_
      exact adaptInPlace_attended hStart.keyed hStart.regular.modes hVisited.numbered
        hVisited.strict hThere hAdapt hOthers
  | captured b hLive hFree hSome handle u hNone hDisplay hAdapt =>
      have hAmends : s.visited.Amends (fun _ => False) u :=
        amends_displayHandle? hDisplay hStart.keyed
      have hSame : u.bindings = s.visited.bindings := same_displayHandle? hDisplay
      have hSettles : s.visited.Settles False (method :: rest) u :=
        settled_displayHandle? hDisplay hStart.regular
      have hCode : u.plan = s.plan ∧ u.program.methods = s.program.methods := by
        rcases displayHandle?_ok hDisplay with rfl | ⟨m, field, p, -, -, -, -, -, hField, rfl⟩
        · exact ⟨rfl, rfl⟩
        · exact ⟨rfl, (Program.addField_ok hField).2.2.2.1⟩
      have hNext : u.Tended L (method :: rest) := by
        refine hVisited.later hAmends.toAdvances hSame ?_ (hSame ▸ hVisited.attended.kept hAmends)
        exact carries_displayHandle? hDisplay hVisited.covered
      refine hNext.later (advances_adaptInPlace hAdapt hAmends.keyed) (same_adaptInPlace hAdapt)
        hCovered ?_
      have hLive' : u.program.liveBody? method = some b := by
        unfold Program.liveBody? Program.method? at hLive ⊢
        rwa [hCode.2]
      have hSites : s.places b = NeedySite.scan u.plan u.bindings s.closures s.program b := by
        rw [hSame, hCode.1]
        rfl
      rw [hSites] at hAdapt
      exact adaptInPlace_attended hSettles.keyed hSettles.regular.modes hNext.numbered
        hNext.strict hLive' hAdapt (hNext.attended.mono fun id hIn => (List.mem_cons.mp hIn).symm)
  | bound b hLive hFree hSome hNone hBind =>
      have hEnd := bindNeedy_tended hBind hVisited
      have hBound := bindNeedy_isBound hBind hRegular.keyed
      refine { hEnd with attended := hEnd.attended.visited fun b' hLive' => ?_ }
      cases hLive'.symm.trans (hEnd.not_live hBound)

/-- Binding what a context brings along gathers it. -/
theorem bindGiven_gathers {b : Binding} {made : Option (MethodId × MethodId)} (h : (do
      if (← model fun p => p.methodDef b.method).isRetired then pure none
      else
        bindMethod b
        pure (some (b.method, b.replacement)) : Propagate (Option (MethodId × MethodId))) s
          = .ok made t) (hKeyed : s.closures.Keyed) : s.Gathers made.toList t := by
  obtain ⟨m, _, hModel, h⟩ := Step.bind_ok.mp h
  obtain ⟨-, rfl⟩ := model_ok.mp hModel
  split at h
  · obtain ⟨rfl, rfl⟩ := Step.pure_ok.mp h
    exact .refl hKeyed
  · obtain ⟨_, s₁, hBind, h⟩ := Step.bind_ok.mp h
    obtain ⟨rfl, rfl⟩ := Step.pure_ok.mp h
    have hAmends : s.Amends (fun _ => False) s₁ := amends_bindMethod hBind hKeyed
    refine ⟨hAmends.toAdvances, fun e hMem => ?_, fun id c hGet => ?_, fun S hCovered => ?_,
      fun B L S hAttended => ?_⟩
    · obtain rfl := List.mem_singleton.mp hMem
      exact ⟨b, bindMethod_bound hBind⟩
    · obtain ⟨bindings, hBound, rfl⟩ := bindMethod_ok hBind
      refine ((BindingMap.bind_ok hBound).2.2 id c hGet).imp_right ?_
      rintro ⟨-, rfl⟩
      exact ⟨_, List.mem_singleton_self _, rfl⟩
    · exact (carries_bindMethod hBind hCovered).mono fun _ => Or.inl
    · exact (hAttended.kept hAmends).mono fun _ => Or.inl

theorem bindReplacements_tended {ahead : List MethodId} {u : Unit}
    (h : bindReplacements s = .ok u t) (hTended : s.Tended L ahead) : t.Tended L ahead := by
  obtain ⟨_, _, hGet, h⟩ := Step.bind_ok.mp h
  obtain ⟨rfl, rfl⟩ := Step.get_ok.mp hGet
  obtain ⟨made, s₁, hMade, h⟩ := Step.bind_ok.mp h
  have hGathers := bindAll_gathers (fun h hKeyed _ => bindGiven_gathers h hKeyed) hMade
    hTended.covered.keyed hTended.numbered
  exact complete_tended hTended hGathers h

/-- Binding what contexts bring along changes neither the plan nor what is known of closures. -/
theorem bindReplacements_plan {u : Unit} (h : bindReplacements s = .ok u t) :
    t.plan = s.plan ∧ t.closures = s.closures := by
  let R (s t : Propagation) : Prop := t.plan = s.plan ∧ t.closures = s.closures
  have : IsPreorder Propagation R :=
    { refl := fun _ => ⟨rfl, rfl⟩
      trans := fun _ _ _ h h' => ⟨h'.1.trans h.1, h'.2.trans h.2⟩ }
  have hEdit {β : Type} {e : Edit β} : Keeps R (edit e) := by
    intro s a t h
    obtain ⟨p, -, rfl⟩ := edit_ok.mp h
    exact ⟨rfl, rfl⟩
  have hGraph (e : Program → GraphEdit Unit) : Keeps R (graph e) := by
    intro s a t h
    obtain ⟨v, -, rfl⟩ := graph_ok.mp h
    exact ⟨rfl, rfl⟩
  have hBind {b : Binding} : Keeps R (bindMethod b) := by
    intro s a t h
    obtain ⟨m, -, rfl⟩ := bindMethod_ok h
    exact ⟨rfl, rfl⟩
  refine (?_ : Keeps R bindReplacements) h
  refine Keeps.bind Keeps.get fun s => Keeps.bind (Keeps.mapM fun b _ => ?_) fun made => ?_
  · refine Keeps.bind model_keeps fun m => Keeps.ite (Keeps.pure _) ?_
    exact Keeps.bind hBind fun _ => Keeps.pure _
  · exact keeps_complete (fun _ => hEdit) (hGraph _) (fun _ => hGraph _)
      (fun _ => Keeps.modify fun _ => ⟨rfl, rfl⟩) fun _ => Keeps.modify fun _ => ⟨rfl, rfl⟩

section Run

variable {p : Program} {plan : ContextPlan} {options : PropagationOptions}

/-- When the graph is built, nothing is bound yet. -/
theorem build_tended {u : Unit} (h : graph GraphEdit.build (.start p plan options) = .ok u s)
    (hStrict : options.strictCaptures = true) (hRetires : options.retireReplaced = true)
    (hNumbered : p.Numbered) : s.Tended (p.method? · = none) [] := by
  have hCovered : s.Covered .empty fun _ => False := build_covered h (.empty _)
  obtain ⟨v, -, rfl⟩ := graph_ok.mp h
  refine ⟨hStrict, hRetires, hNumbered, hCovered, nofun, fun id b hLive =>
    Or.inr (Or.inr (Or.inr fun i _ => ⟨fun _ _ => Or.inl rfl, fun hNew => ?_⟩))⟩
  obtain ⟨m, hMethod, -⟩ := Program.liveBody?_eq_some.mp hLive
  cases hMethod.symm.trans hNew

/-- What is looked at from the start is visited in the first batch. -/
theorem seeded_tended (hTended : s.Tended (p.method? · = none) [])
    (hAdvances : (Propagation.start p plan options).Advances s) (hPlan : s.plan = plan)
    (hClosures : s.closures = .ofProgram p plan.root options.strictCaptures) :
    s.seeded.Tended (Looked p plan options) [] := by
  refine ⟨hTended.strict, hTended.retires, hTended.numbered,
    { hTended.covered with lists := hTended.covered.lists }, hTended.retired, fun id b hLive => ?_⟩
  obtain ⟨m, hMethod, hUsed, hBody⟩ := Program.liveBody?_eq_some.mp hLive
  by_cases hSeed : isSeed s m = true
  · exact Or.inr (Or.inl (Propagation.mem_seeded.mpr (Or.inr ⟨m, b, hMethod, hUsed, hBody, hSeed⟩)))
  · rcases hTended.attended id b hLive with hIn | hPending | hOwn | hRests
    · exact Or.inl hIn
    · exact Or.inr (Or.inl (Propagation.mem_seeded.mpr (Or.inl hPending)))
    · exact Or.inr (Or.inr (Or.inl hOwn))
    · refine Or.inr (Or.inr (Or.inr fun i hMem => { hRests i hMem with accesses := ?_ }))
      intro hLooked
      refine (hRests i hMem).accesses ?_
      cases hOld : p.method? id with
      | none => exact hOld
      | some m₀ =>
          have hSame := hAdvances.grows.method_persists hOld hMethod
          have hStart := hLooked m₀ hOld
          refine (hSeed ?_).elim
          unfold isSeed at hStart ⊢
          rwa [hSame.isStaticConstructor, hSame.owner, hPlan, hClosures]

/-- What was pending is visited in the batch that opens. -/
theorem opened_tended (hTended : s.Tended L []) : s.opened.Tended L s.pending :=
  { hTended with
    covered := { hTended.covered with lists := hTended.covered.lists }
    attended := fun id b hLive => by
      rcases hTended.attended id b hLive with hIn | hPending | hOwn | hRests
      · exact (List.not_mem_nil hIn).elim
      · exact Or.inl hPending
      · exact Or.inr (Or.inr (Or.inl hOwn))
      · exact Or.inr (Or.inr (Or.inr fun i hMem => { hRests i hMem with })) }

/-- Every step of a run leaves the code with what it needs. -/
theorem reached_tended {ahead : List MethodId} (h : Reached p plan options (some ahead, s))
    (hStrict : options.strictCaptures = true) (hRetires : options.retireReplaced = true)
    (hNumbered : p.Numbered) : s.Tended (Looked p plan options) ahead := by
  obtain ⟨s₀, hBuild, hReaches⟩ := h
  have hStart := build_tended hBuild hStrict hRetires hNumbered
  generalize hEnd : (some ahead, s) = c at hReaches
  suffices hAll : (c.1 = none → c.2 = s₀) ∧
      ∀ ahead, c.1 = some ahead → c.2.Tended (Looked p plan options) ahead by
    subst hEnd
    exact hAll.2 ahead rfl
  clear hEnd
  induction hReaches with
  | refl => exact ⟨fun _ => rfl, nofun⟩
  | @tail c d hReaches hMoves ih =>
      have hRegular := reached_regular ⟨s₀, hBuild, hReaches⟩
      cases hMoves with
      | @given u v hGiven =>
          refine ⟨nofun, fun ahead hAhead => ?_⟩
          obtain rfl := Option.some_inj.mp hAhead
          obtain rfl : u = s₀ := ih.1 rfl
          have hAdvances : (Propagation.start p plan options).Advances v := by
            have hBuilt := advances_graph hBuild (Propagation.keyed_start p plan options)
            exact hBuilt.trans (advances_bindReplacements hGiven hBuilt.keyed)
          obtain ⟨hPlan, hClosures⟩ := bindReplacements_plan hGiven
          obtain ⟨w, -, rfl⟩ := graph_ok.mp hBuild
          exact seeded_tended (bindReplacements_tended hGiven hStart) hAdvances hPlan hClosures
      | opened hSome =>
          refine ⟨nofun, fun ahead hAhead => ?_⟩
          obtain rfl := Option.some_inj.mp hAhead
          exact opened_tended (ih.2 [] rfl)
      | visited hVisit =>
          refine ⟨nofun, fun ahead hAhead => ?_⟩
          obtain rfl := Option.some_inj.mp hAhead
          exact visit_tended hVisit hRegular (ih.2 _ rfl)

/-- When a run succeeds that had to adapt captures and took out of use what it replaced, code in use
names no bound method but those that stand in for others, or serve capture records. Nor does it
access a static field that moved, or load an instance that was taken over, if it was looked at from
the start or came during the run. Methods of the types that the run declared are left out: a
display class that was copied has methods that the graph does not know of. -/
theorem run_completes (h : propagate p plan options = .ok () t)
    (hStrict : options.strictCaptures = true) (hRetires : options.retireReplaced = true)
    (hNumbered : p.Numbered) {id : MethodId} {m : MethodDef} {b : MethodBody}
    (hMethod : t.program.method? id = some m) (hOld : m.owner.index < p.types.length)
    (hLive : t.program.liveBody? id = some b) {i : Instruction} (hMem : i ∈ b.instructions) :
    (∀ target c, i.reference? = some target → t.bindings.get? target = some c →
      t.bindings.StandsIn target ∨ t.closures.Serves target) ∧
    (Looked p plan options id → ∀ field, i.access? = some field →
      plan.movedField? field = none ∧ (i.opcode = .ldsfld → plan.singletonOf? field = none)) := by
  obtain ⟨s₁, s₂, s₃, s₄, hBuild, hGiven, hBatches, hRetire, rfl⟩ := run_iff.mp h
  obtain ⟨hConcludes, hDone⟩ := visitAll_concludes hBatches
  have hTended : s₃.Tended (Looked p plan options) [] := by
    refine reached_tended ⟨s₁, hBuild, .head (.given hGiven) ?_⟩ hStrict hRetires hNumbered
    exact Concludes.reaches (u := ()) hConcludes
  have hCode : Propagation.CodeOnly s₃ s₄ := codeOnly_retireMovedFields hRetire
  have hAmends : s₃.Amends (fun _ => False) s₄ :=
    (keeps_retireMovedFields hRetire).toChanged.amended hTended.covered.keyed
  rcases (hTended.attended.kept hAmends) id b hLive with
    hIn | hPending | ⟨m', hMethod', hOwned⟩ | hRests
  · exact (List.not_mem_nil hIn).elim
  · rw [hCode.pending, hDone] at hPending
    exact (List.not_mem_nil hPending).elim
  · obtain rfl : m = m' := Option.some_inj.mp (hMethod.symm.trans hMethod')
    exact absurd hOld (Nat.not_lt.mpr (run_owns h hOwned))
  · refine ⟨fun target c hName hGet => ?_, fun hLooked field hField => ?_⟩
    · refine ((hRests i hMem).names target hName).resolve_left ?_
      rw [← hCode.bindings]
      exact Option.ne_none_iff_exists'.mpr ⟨c, hGet⟩
    · have hAccesses := (hRests i hMem).accesses hLooked field hField
      have hShape : s₄.plan.shape = plan.shape := (run_advances h).plan
      rwa [← ContextPlan.movedField?_shape, ← ContextPlan.singletonOf?_shape, hShape,
        ContextPlan.movedField?_shape, ContextPlan.singletonOf?_shape] at hAccesses

end Run

section Examples

/-- What stands in for `f` calls what stands in for `g`, though `g` was bound before `f` was. -/
theorem relocatedLambda_completed :
    ∃ t, propagate (built relocatedLambda).1 (built relocatedLambda).2 default = .ok () t ∧
      (t.bindings.get? ⟨8⟩).isSome = true ∧
      ∃ b, t.program.liveBody? ⟨15⟩ = some b ∧ ∀ i ∈ b.instructions, ∀ target c,
        i.reference? = some target → t.bindings.get? target = some c →
          t.bindings.StandsIn target ∨ t.closures.Serves target := by
  have hCheck : Step.yields
      (propagate (built relocatedLambda).1 (built relocatedLambda).2 default)
      (fun _ t => decide ((t.bindings.get? ⟨8⟩).isSome = true ∧
        (t.program.liveBody? ⟨15⟩).isSome = true ∧ (t.program.method? ⟨15⟩).any
          (fun m => decide (m.owner.index < (built relocatedLambda).1.types.length)) = true))
      = true := by decide +kernel
  obtain ⟨_, t, hRun, hCheck⟩ := Step.ok_of_yields hCheck
  obtain ⟨hBound, hLive, hThere⟩ := of_decide_eq_true hCheck
  obtain ⟨m, hMethod, hOld⟩ := (Option.any_eq_true ..).mp hThere
  obtain ⟨b, hLive⟩ := Option.isSome_iff_exists.mp hLive
  exact ⟨t, hRun, hBound, b, hLive, fun i hMem => (run_completes hRun rfl rfl
    relocatedLambda_numbered hMethod (of_decide_eq_true hOld) hLive hMem).1⟩

/-- The copy of `L` still calls `f` when `f` is bound. -/
theorem relocatedLambda_leftover :
    ∃ t, propagate (built relocatedLambda).1 (built relocatedLambda).2 default = .ok () t ∧
      ¬ ∀ id b, t.program.liveBody? id = some b → ∀ i ∈ b.instructions, ∀ target,
        i.reference? = some target → t.bindings.get? target = none := by
  have hCheck : Step.yields
      (propagate (built relocatedLambda).1 (built relocatedLambda).2 default)
      (fun _ t => (t.program.liveBody? ⟨12⟩).any fun b => b.instructions.any fun i =>
        i.reference? == some ⟨7⟩ && (t.bindings.get? ⟨7⟩).isSome) = true := by decide +kernel
  obtain ⟨_, t, hRun, hCheck⟩ := Step.ok_of_yields hCheck
  obtain ⟨b, hLive, hCalls⟩ := (Option.any_eq_true ..).mp hCheck
  obtain ⟨i, hMem, hCalls⟩ := List.any_eq_true.mp hCalls
  obtain ⟨hName, hBound⟩ := Bool.and_eq_true_iff.mp hCalls
  refine ⟨t, hRun, fun hAll => ?_⟩
  rw [hAll ⟨12⟩ b hLive i hMem ⟨7⟩ (by simpa using hName)] at hBound
  cases hBound

end Examples

end Propagate

end ContextBinding
