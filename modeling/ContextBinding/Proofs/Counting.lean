import ContextBinding.Proofs.Arrangement
import ContextBinding.Proofs.Declaration
import ContextBinding.Proofs.Locality
import ContextBinding.Proofs.Ordering

/-! What a run counts. A transition is counted for each method that is bound, and no method is
bound that was bound before. -/

namespace ContextBinding

theorem ContextPlan.nodup_given {plan : ContextPlan}
    (h : ∀ c ∈ plan.contexts, c.replacementMethods.Ordered) : plan.given.Nodup := by
  unfold given
  refine List.nodup_flatMap.mpr ⟨fun e hMem => ?_, ?_⟩
  · split
    · have hOrdered := h e.2 (List.mem_of_getElem? (mem_entries.mp hMem))
      have hPairs : e.2.replacementMethods.entries.Nodup := hOrdered.imp fun {a b} hLess hSame => by
        subst hSame
        simp at hLess
      refine hPairs.map fun a b hSame => ?_
      obtain ⟨hMethod, hReplacement, -⟩ := Binding.mk.inj hSame
      exact Prod.ext hMethod hReplacement
    · exact List.nodup_nil
  · have hIds : (plan.entries.map (·.1)).Nodup := entries_keys ▸ nodup_ids
    refine (List.pairwise_map.mp hIds).imp fun {e e'} hDiffer b hMem hMem' => ?_
    have hMode {e : ContextId × ContextDescriptor} (hMem : b ∈ if e.2.isReusedSingleton then
        e.2.replacementMethods.entries.map fun pair =>
          Binding.mk pair.1 pair.2 (.instanceConverted e.1) else []) :
        b.mode = .instanceConverted e.1 := by
      split at hMem
      · obtain ⟨pair, -, rfl⟩ := List.mem_map.mp hMem
        rfl
      · exact (List.not_mem_nil hMem).elim
    exact hDiffer (BindingMode.instanceConverted.inj ((hMode hMem).symm.trans (hMode hMem')))

namespace Propagation

/-- Between two points of a run so many methods came to be bound, and so many transitions were
counted. -/
structure Tallies (made counted : Nat) (s t : Propagation) : Prop where
  iterations : t.stats.iterations = s.stats.iterations
  bindings : t.bindings.size = s.bindings.size + made
  idle : made = 0 → t.bindings = s.bindings
  transitions : t.stats.transitions = s.stats.transitions + counted

variable {made made' counted counted' : Nat} {s t u : Propagation}

namespace Tallies

protected theorem refl (s : Propagation) : Tallies 0 0 s s := ⟨rfl, rfl, fun _ => rfl, rfl⟩

protected theorem trans (h : Tallies made counted s t) (h' : Tallies made' counted' t u) :
    Tallies (made + made') (counted + counted') s u where
  iterations := h'.iterations.trans h.iterations
  bindings := by rw [h'.bindings, h.bindings, Nat.add_assoc]
  idle hNone := (h'.idle (by omega)).trans (h.idle (by omega))
  transitions := by rw [h'.transitions, h.transitions, Nat.add_assoc]

/-- What is not counted may come first. -/
theorem after (h' : Tallies made counted t u) (h : Tallies 0 0 s t) : Tallies made counted s u := by
  simpa using h.trans h'

/-- It may come last, too. -/
theorem before (h : Tallies made counted s t) (h' : Tallies 0 0 t u) : Tallies made counted s u :=
  h.trans h'

end Tallies

instance : IsPreorder Propagation (Tallies 0 0) where
  refl := .refl
  trans _ _ _ h h' := h.trans h'

theorem CodeOnly.tallies (h : CodeOnly s t) : Tallies 0 0 s t :=
  ⟨h.iterations, congrArg BindingMap.size h.bindings, fun _ => h.bindings, h.transitions⟩

end Propagation

namespace Propagate

open Propagation (CodeOnly Tallies)

variable {α : Type} {s t : Propagation}

theorem tallies_codeOnly {x : Propagate α} (h : Keeps CodeOnly x) : Keeps (Tallies 0 0) x :=
  h.mono fun _ _ h => h.tallies

theorem tallies_graph {e : Program → GraphEdit α} : Keeps (Tallies 0 0) (graph e) := by
  intro s a t h
  obtain ⟨v, -, rfl⟩ := graph_ok.mp h
  exact ⟨rfl, rfl, fun _ => rfl, rfl⟩

theorem tallies_enqueue {methods : List MethodId} :
    Keeps (Tallies 0 0) (modify (.enqueue methods) : Propagate PUnit) :=
  Keeps.modify fun _ => ⟨rfl, rfl, fun _ => rfl, rfl⟩

theorem tallies_closures {e : ClosureEdit α} : Keeps (Tallies 0 0) (closures e) := by
  intro s a t h
  obtain ⟨v, -, rfl⟩ := Step.focus_ok.mp h
  exact ⟨rfl, rfl, fun _ => rfl, rfl⟩

/-- Binding a method that is free makes one binding more. -/
theorem bindMethod_tallies {b : Binding} {u : Unit} (h : bindMethod b s = .ok u t)
    (hFree : s.bindings.get? b.method = none) : Tallies 1 0 s t := by
  obtain ⟨m, hBind, rfl⟩ := bindMethod_ok h
  unfold BindingMap.bind at hBind
  simp only [hFree, Except.ok.injEq] at hBind
  subst hBind
  exact ⟨rfl, Table.size_insert hFree, nofun, rfl⟩

theorem tallies_inlineInitUnit {constructor replacement : MethodId} :
    Keeps (Tallies 0 0) (inlineInitUnit constructor replacement) := by
  intro s u t h
  rcases inlineInitUnit_ok h with rfl | ⟨e, s₁, hEdit, -, -, hDerive⟩
  · exact .refl s
  · exact IsTrans.trans _ _ _ (CodeOnly.tallies (codeOnly_work hEdit)) (tallies_graph hDerive)

theorem tallies_adoptInitUnit {context : ContextId} {method replacement : MethodId} :
    Keeps (Tallies 0 0) (adoptInitUnit context method replacement) := by
  intro s u t h
  obtain ⟨_, _, hGet, h⟩ := Step.bind_ok.mp h
  obtain ⟨rfl, rfl⟩ := Step.get_ok.mp hGet
  split at h
  · obtain ⟨_, s₁, hSet, h⟩ := Step.bind_ok.mp h
    obtain rfl := Step.set_ok.mp hSet
    have hLater := Keeps.ite tallies_inlineInitUnit (Keeps.pure _) h
    exact ⟨hLater.iterations, hLater.bindings, hLater.idle, hLater.transitions⟩
  · obtain ⟨-, rfl⟩ := Step.pure_ok.mp h
    exact .refl s

/-- One transition is counted for each method that is completed. -/
theorem deriveBound_tallies {bound : List (MethodId × MethodId)} {callers : List MethodId} {u : Unit}
    (h : (do
      bound.forM fun e => do
        graph fun p => GraphEdit.rederive p e.1
        graph fun p => GraphEdit.rederive p e.2
        if (← model fun p => p.methodDef e.2).body.isSome then modify (.enqueue [e.2])
        modify (.count fun n => { n with transitions := n.transitions + 1 })
      modify (.enqueue callers) : Propagate Unit) s = .ok u t) : Tallies 0 bound.length s t := by
  obtain ⟨_, s₁, hEach, hCallers⟩ := Step.bind_ok.mp h
  refine Tallies.before ?_ (tallies_enqueue hCallers)
  clear h hCallers
  induction bound generalizing s with
  | nil =>
      obtain ⟨-, rfl⟩ := Step.pure_ok.mp hEach
      exact .refl s
  | cons e bound ih =>
      obtain ⟨_, s₂, hFirst, hRest⟩ := Step.bind_ok.mp hEach
      obtain ⟨_, u₁, hOld, hFirst⟩ := Step.bind_ok.mp hFirst
      obtain ⟨_, u₂, hNew, hFirst⟩ := Step.bind_ok.mp hFirst
      obtain ⟨m, u₃, hModel, hFirst⟩ := Step.bind_ok.mp hFirst
      have hBefore : Tallies 0 0 s u₃ := IsTrans.trans _ _ _
        (IsTrans.trans _ _ _ (tallies_graph hOld) (tallies_graph hNew))
        (CodeOnly.tallies (codeOnly_work hModel))
      have hCount {w v : Propagation} {a : PUnit}
          (h : (modify (.count fun n => { n with transitions := n.transitions + 1 }) :
            Propagate PUnit) w = .ok a v) : Tallies 0 1 w v := by
        obtain rfl := Step.modify_ok.mp h
        exact ⟨rfl, rfl, fun _ => rfl, rfl⟩
      have hOne : Tallies 0 1 s s₂ := by
        split at hFirst
        · obtain ⟨_, u₄, hEnqueue, hFirst⟩ := Step.bind_ok.mp hFirst
          exact ((hCount hFirst).after (tallies_enqueue hEnqueue)).after hBefore
        · exact (hCount hFirst).after hBefore
      rw [List.length_cons, Nat.add_comm]
      exact hOne.trans (ih hRest)

theorem complete_tallies {bound : List (MethodId × MethodId)} {u : Unit}
    (h : complete bound s = .ok u t) : Tallies 0 bound.length s t := by
  unfold complete at h
  split at h
  · obtain ⟨_, _, hGet, h⟩ := Step.bind_ok.mp h
    obtain ⟨rfl, rfl⟩ := Step.get_ok.mp hGet
    obtain ⟨virtuals, s₁, hRetire, h⟩ := Step.bind_ok.mp h
    have hCode : CodeOnly s s₁ := Keeps.mapM (fun _ _ => codeOnly_retireBound) hRetire
    split at h
    · obtain ⟨_, s₂, hRebuild, h⟩ := Step.bind_ok.mp h
      exact ((deriveBound_tallies h).after (tallies_graph hRebuild)).after hCode.tallies
    · exact (deriveBound_tallies h).after hCode.tallies
  · rename_i hNone
    obtain rfl : bound = [] := by simpa using hNone
    obtain ⟨-, rfl⟩ := Step.pure_ok.mp h
    exact .refl s

/-- Moving a method reports it if it was bound just now. -/
theorem convertOne_tallies {context : ContextId} {method : MethodId}
    {made : Option (MethodId × MethodId)} (h : convertOne context method s = .ok made t) :
    Tallies made.toList.length 0 s t := by
  have hReports := (convertOne_binds h).2
  obtain ⟨_, _, hGet, h⟩ := Step.bind_ok.mp h
  obtain ⟨rfl, rfl⟩ := Step.get_ok.mp hGet
  split at h
  · obtain ⟨rfl, rfl⟩ := Step.pure_ok.mp h
    exact .refl s
  · obtain ⟨⟨replacement, fresh⟩, s₁, hMade, h⟩ := Step.bind_ok.mp h
    obtain ⟨_, s₂, hBind, h⟩ := Step.bind_ok.mp h
    have hFirst : CodeOnly s s₁ := codeOnly_convertedReplacement hMade
    have hEnd {u : Propagation} (hSoFar : Tallies 0 0 s₂ u)
        (h : (do
          adoptInitUnit context method replacement
          pure (some (method, replacement)) : Propagate (Option (MethodId × MethodId))) u
            = .ok made t) : Tallies made.toList.length 0 s t := by
      obtain ⟨_, v, hAdopt, h⟩ := Step.bind_ok.mp h
      obtain ⟨rfl, rfl⟩ := Step.pure_ok.mp h
      obtain ⟨hFree, -⟩ := hReports _ (List.mem_singleton_self _)
      have hOne : Tallies 1 0 s₁ s₂ := bindMethod_tallies hBind (hFirst.bindings ▸ hFree)
      exact (hOne.after hFirst.tallies).before
        (IsTrans.trans _ _ _ hSoFar (tallies_adoptInitUnit hAdopt))
    split at h
    · obtain ⟨copied, s₃, hRelocate, h⟩ := Step.bind_ok.mp h
      obtain ⟨_, s₄, hEnqueue, h⟩ := Step.bind_ok.mp h
      exact hEnd (IsTrans.trans _ _ _ (tallies_closures hRelocate) (tallies_enqueue hEnqueue)) h
    · exact hEnd (.refl s₂) h

theorem addParameterTo_tallies {method : MethodId} {made : Option (MethodId × MethodId)}
    (h : addParameterTo method s = .ok made t) : Tallies made.toList.length 0 s t := by
  rcases addParameterTo_ok h with
    ⟨rfl, rfl, -⟩ | ⟨m, replacement, r, rfl, hFree, -, hStands, hBind⟩
  · exact .refl s
  · have hFirst : CodeOnly s r := by
      rcases hStands with ⟨rfl, -⟩ | hCopy
      · exact refl s
      · exact codeOnly_makeCopy hCopy
    exact (bindMethod_tallies hBind (hFirst.bindings ▸ hFree)).after hFirst.tallies

theorem bindAll_tallies {f : MethodId → Propagate (Option (MethodId × MethodId))}
    (hOne : ∀ {method : MethodId} {made : Option (MethodId × MethodId)} {s t : Propagation},
      f method s = .ok made t → Tallies made.toList.length 0 s t)
    {group : List MethodId} {made : List (Option (MethodId × MethodId))}
    (h : group.mapM f s = .ok made t) : Tallies (made.filterMap id).length 0 s t := by
  induction group generalizing s made with
  | nil =>
      obtain ⟨rfl, rfl⟩ := Step.pure_ok.mp h
      exact .refl s
  | cons method group ih =>
      obtain ⟨first, s₁, rest, hFirst, hRest, rfl⟩ := Step.mapM_cons_ok.mp h
      have hAll := (hOne hFirst).trans (ih hRest)
      cases first with
      | none => simpa using hAll
      | some e => simpa [Nat.add_comm] using hAll

theorem convert_tallies {method : MethodId} {context : ContextId} {u : Unit}
    (h : convert method context s = .ok u t) : ∃ n, Tallies n n s t := by
  obtain ⟨_, _, hGet, h⟩ := Step.bind_ok.mp h
  obtain ⟨rfl, rfl⟩ := Step.get_ok.mp hGet
  obtain ⟨group, _, hGroup, h⟩ := Step.bind_ok.mp h
  obtain ⟨-, rfl⟩ := bindingGroup_ok hGroup
  obtain ⟨made, s₁, hMade, h⟩ := Step.bind_ok.mp h
  obtain ⟨_, s₂, hAlign, h⟩ := Step.bind_ok.mp h
  have hMoved := bindAll_tallies (f := convertOne context) convertOne_tallies hMade
  have hAligned : CodeOnly s₁ s₂ := Keeps.forM (fun _ _ => codeOnly_alignProperty) hAlign
  have hAll := (hMoved.before hAligned.tallies).trans (complete_tallies h)
  exact ⟨_, by simpa using hAll⟩

theorem addParameter_tallies {method : MethodId} {u : Unit}
    (h : addParameter method s = .ok u t) : ∃ n, Tallies n n s t := by
  obtain ⟨group, _, hGroup, h⟩ := Step.bind_ok.mp h
  obtain ⟨-, rfl⟩ := bindingGroup_ok hGroup
  obtain ⟨_, _, hRequire, h⟩ := Step.bind_ok.mp h
  obtain ⟨rfl, -⟩ := requireAllUnconverted_ok hRequire
  obtain ⟨made, s₁, hMade, h⟩ := Step.bind_ok.mp h
  obtain ⟨_, s₂, hOverrides, h⟩ := Step.bind_ok.mp h
  obtain ⟨_, s₃, hAlign, h⟩ := Step.bind_ok.mp h
  have hGiven := bindAll_tallies (f := addParameterTo) addParameterTo_tallies hMade
  have hMapped : CodeOnly s₁ s₂ := Keeps.forM (fun _ _ => codeOnly_mapOverrides) hOverrides
  have hAligned : CodeOnly s₂ s₃ := Keeps.forM (fun _ _ => codeOnly_alignProperty) hAlign
  have hAll := ((hGiven.before hMapped.tallies).before hAligned.tallies).trans (complete_tallies h)
  exact ⟨_, by simpa using hAll⟩

theorem tallies_adaptInPlace {site : RootedMethod} {places : List NeedySite} :
    Keeps (Tallies 0 0) (adaptInPlace site places) := by
  refine Keeps.bind (Keeps.mapM fun place _ => tallies_codeOnly codeOnly_adaptSite) fun outcomes => ?_
  refine Keeps.ite (Keeps.bind ?_ fun _ => tallies_graph) (Keeps.pure _)
  exact tallies_codeOnly (codeOnly_count (fun _ => rfl) fun _ => rfl)

/-- A visit counts as many transitions as it binds methods. -/
theorem visit_tallies {method : MethodId} {u : Unit} (h : visit method s = .ok u t) :
    ∃ n, Tallies n n s t := by
  have hVisited : Tallies 0 0 s s.visited := ⟨rfl, rfl, fun _ => rfl, rfl⟩
  cases visit_ok h with
  | skipped hDone hEnd => exact ⟨0, hEnd ▸ hVisited⟩
  | settled b hLive hNone hEnd => exact ⟨0, hEnd ▸ hVisited⟩
  | adapted b hLive hFree hSome handle hHandle hAdapt =>
      exact ⟨0, IsTrans.trans _ _ _ hVisited (tallies_adaptInPlace hAdapt)⟩
  | captured b hLive hFree hSome handle u hNone hDisplay hAdapt =>
      have hHandle : Tallies 0 0 s.visited u := by
        rcases displayHandle?_ok hDisplay with rfl | ⟨m, field, p, -, -, -, -, -, -, rfl⟩
        · exact .refl _
        · exact ⟨rfl, rfl, fun _ => rfl, rfl⟩
      exact ⟨0, (tallies_adaptInPlace hAdapt).after (hHandle.after hVisited)⟩
  | bound b hLive hFree hSome hNone hBind =>
      obtain ⟨m, _, hModel, hBind⟩ := Step.bind_ok.mp hBind
      obtain ⟨-, rfl⟩ := model_ok.mp hModel
      obtain ⟨_, _, hGet, hBind⟩ := Step.bind_ok.mp hBind
      obtain ⟨rfl, rfl⟩ := Step.get_ok.mp hGet
      have hBound : ∃ n, Tallies n n s.visited t := by
        cases hHolder : s.visited.plan.byHolder? m.owner with
        | none =>
            simp only [hHolder] at hBind
            exact addParameter_tallies hBind
        | some context =>
            simp only [hHolder] at hBind
            split at hBind
            · exact convert_tallies hBind
            · exact addParameter_tallies hBind
      obtain ⟨n, hTallies⟩ := hBound
      exact ⟨n, hTallies.after hVisited⟩

/-- Bindings of which none was made before are made once each. -/
theorem bindGiven_tallies {given : List Binding} {made : List (Option (MethodId × MethodId))}
    (h : (given.mapM fun b => do
      if (← model fun p => p.methodDef b.method).isRetired then pure none
      else
        bindMethod b
        pure (some (b.method, b.replacement)) :
        Propagate (List (Option (MethodId × MethodId)))) s = .ok made t)
    (hDistinct : given.Nodup) (hNew : ∀ b ∈ given, s.bindings.get? b.method ≠ some b) :
    Tallies (made.filterMap id).length 0 s t := by
  induction given generalizing s made with
  | nil =>
      obtain ⟨rfl, rfl⟩ := Step.pure_ok.mp h
      exact .refl s
  | cons b given ih =>
      obtain ⟨first, s₁, rest, hFirst, hRest, rfl⟩ := Step.mapM_cons_ok.mp h
      obtain ⟨hOnce, hDistinct⟩ := List.nodup_cons.mp hDistinct
      obtain ⟨hUnbound, hNew⟩ := List.forall_mem_cons.mp hNew
      obtain ⟨m, _, hModel, hFirst⟩ := Step.bind_ok.mp hFirst
      obtain ⟨-, rfl⟩ := model_ok.mp hModel
      split at hFirst
      · obtain ⟨rfl, rfl⟩ := Step.pure_ok.mp hFirst
        simpa using ih hRest hDistinct hNew
      · obtain ⟨_, s₂, hBind, hFirst⟩ := Step.bind_ok.mp hFirst
        obtain ⟨rfl, rfl⟩ := Step.pure_ok.mp hFirst
        obtain ⟨bindings, hBound, hEnd⟩ := bindMethod_ok hBind
        obtain ⟨hKept, hGet, hAdds⟩ := BindingMap.bind_ok hBound
        have hFree : s.bindings.get? b.method = none := by
          cases hOld : s.bindings.get? b.method with
          | none => rfl
          | some c =>
              have hSame := hKept b.method c hOld
              rw [hGet] at hSame
              exact (hUnbound (hOld.trans hSame.symm)).elim
        have hOthers : ∀ c ∈ given, s₂.bindings.get? c.method ≠ some c := by
          rw [← hEnd]
          intro c hMem hGot
          rcases hAdds c.method c hGot with hOld | ⟨rfl, -⟩
          · exact hNew c hMem hOld
          · exact hOnce hMem
        have hAll := (bindMethod_tallies hBind hFree).trans (ih hRest hDistinct hOthers)
        simpa [Nat.add_comm] using hAll

/-- What contexts bring along is bound once, each of it as one transition. -/
theorem bindReplacements_tallies {u : Unit} (h : bindReplacements s = .ok u t)
    (hDistinct : s.plan.given.Nodup) (hFree : s.bindings = .empty) : ∃ n, Tallies n n s t := by
  obtain ⟨_, _, hGet, h⟩ := Step.bind_ok.mp h
  obtain ⟨rfl, rfl⟩ := Step.get_ok.mp hGet
  obtain ⟨made, s₁, hMade, h⟩ := Step.bind_ok.mp h
  have hBound : Tallies (made.filterMap id).length 0 s s₁ := by
    refine bindGiven_tallies hMade hDistinct fun b _ hGet => ?_
    rw [hFree] at hGet
    cases hGet
  have hAll := hBound.trans (complete_tallies h)
  exact ⟨_, by simpa using hAll⟩

end Propagate

end ContextBinding
