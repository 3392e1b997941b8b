import ContextBinding.Proofs.Conclusion
import ContextBinding.Proofs.Lockstep
import ContextBinding.Proofs.Validation

/-! What the init units of a context are listed as. A unit that moves to its context gives way to what
stands in for it, at its place in the list. One that is bound in any other way stays listed: what a
context brings along replaces its methods without a word to the plan. -/

namespace ContextBinding

namespace BindingMap

/-- What stands in for a method that moved to a context, and the method itself otherwise. -/
def listing (m : BindingMap) (context : ContextId) (id : MethodId) : MethodId :=
  match m.get? id with
  | some b => if b.mode = .instanceConverted context then b.replacement else id
  | none => id

/-- What stands in for a method is not bound itself. -/
def Final (m : BindingMap) (id : MethodId) : Prop :=
  ∀ b, m.get? id = some b → m.get? b.replacement = none

theorem listing_of_free {m : BindingMap} {context : ContextId} {id : MethodId}
    (h : m.get? id = none) : m.listing context id = id := by
  rw [listing, h]

end BindingMap

namespace ContextPlan

/-- A context brings along what stands in for a method that is in use. -/
def Provides (plan : ContextPlan) (p : Program) (id : MethodId) : Prop := ∃ mode, plan.Gives p id mode

theorem initUnits_replaceInitUnit (plan : ContextPlan) (id context : ContextId)
    (unit replacement : MethodId) :
    ((plan.replaceInitUnit id unit replacement).context context).initUnits
      = (plan.context context).initUnits.map fun other =>
        if context = id ∧ other = unit then replacement else other := by
  unfold ContextPlan.context context? replaceInitUnit
  rw [List.getElem?_modify]
  cases hContext : plan.contexts[context.index]? with
  | none => rfl
  | some c =>
      by_cases hSame : context = id
      · subst hSame
        simp
      · have hIndex : id.index ≠ context.index := fun h => hSame (congrArg ContextId.mk h.symm)
        simp [hIndex, hSame]

end ContextPlan

namespace Propagation

variable {B : BindingMap} {s t u : Propagation}

/-- At its place in a list, a unit that was bound stays, and one that was not is listed as what stands
in for it, if it moved to the context since. -/
structure Relists (B : BindingMap) (s t : Propagation) : Prop where
  bindings : s.bindings.Extends t.bindings
  units : t.bindings.Extends B → ∀ context (i : Nat) unit, B.Final unit →
    (s.plan.context context).initUnits[i]? = some unit → (t.plan.context context).initUnits[i]?
      = some (if s.bindings.isBound unit then unit else t.bindings.listing context unit)

theorem Relists.of_same (hBindings : t.bindings = s.bindings) (hPlan : t.plan = s.plan) :
    Relists B s t := by
  refine ⟨hBindings ▸ refl _, fun _ context i unit _ hUnit => ?_⟩
  rw [hPlan, hUnit, hBindings]
  split
  · rfl
  · rename_i hFree
    rw [BindingMap.listing_of_free (by simpa [BindingMap.isBound] using hFree)]

theorem Relists.trans (h : Relists B s t) (h' : Relists B t u) : Relists B s u := by
  refine ⟨IsTrans.trans _ _ _ h.bindings h'.bindings, fun hLast context i unit hFinal hUnit => ?_⟩
  have hFirst := h.units (IsTrans.trans _ _ _ h'.bindings hLast) context i unit hFinal hUnit
  cases hBound : s.bindings.get? unit with
  | some b =>
      have hThere : t.bindings.isBound unit = true := by
        rw [BindingMap.isBound, h.bindings unit b hBound]
        rfl
      rw [if_pos (by simp [BindingMap.isBound, hBound])] at hFirst ⊢
      rw [h'.units hLast context i unit hFinal hFirst, if_pos hThere]
  | none =>
      rw [if_neg (by simp [BindingMap.isBound, hBound])] at hFirst ⊢
      cases hMade : t.bindings.get? unit with
      | none =>
          rw [BindingMap.listing_of_free hMade] at hFirst
          rw [h'.units hLast context i unit hFinal hFirst,
            if_neg (by simp [BindingMap.isBound, hMade])]
      | some b =>
          have hSame : u.bindings.listing context unit = t.bindings.listing context unit := by
            rw [BindingMap.listing, BindingMap.listing, hMade, h'.bindings unit b hMade]
          rw [hSame]
          have hThere : t.bindings.isBound unit = true := by simp [BindingMap.isBound, hMade]
          unfold BindingMap.listing at hFirst ⊢
          rw [hMade] at hFirst ⊢
          dsimp only at hFirst ⊢
          split at hFirst
          · -- What stands in for the unit is free to the end, so that it stays listed.
            rename_i hMoved
            have hFree := hFinal b (hLast unit b (h'.bindings unit b hMade))
            have hFreeLater := BindingMap.Extends.free hLast hFree
            have hFreeNow := BindingMap.Extends.free h'.bindings hFreeLater
            have hKept : B.Final b.replacement := fun c hGet => by
              rw [hFree] at hGet
              cases hGet
            rw [h'.units hLast context i _ hKept hFirst,
              if_neg (by simp [BindingMap.isBound, hFreeNow]), BindingMap.listing_of_free hFreeLater,
              if_pos hMoved]
          · rename_i hOther
            rw [h'.units hLast context i unit hFinal hFirst, if_pos hThere, if_neg hOther]

instance : IsPreorder Propagation (Relists B) where
  refl _ := .of_same rfl rfl
  trans _ _ _ := Relists.trans

end Propagation

namespace Propagate

open Propagation (Changed Edited Relists)

variable {α : Type} {B : BindingMap} {s t : Propagation} {R : Propagation → Propagation → Prop}

/-- A relation is kept by all that a visit is made of. -/
structure VisitKeeps (R : Propagation → Propagation → Prop) : Prop where
  count : ∀ f (s : Propagation), R s (s.count f)
  display : ∀ method, Keeps R (displayHandle? method)
  adapt : ∀ (site : RootedMethod) (closures : Closures) (p : Program) {b : MethodBody}
    {s t : Propagation}, s.program.liveBody? site.method = some b →
      adaptInPlace site (NeedySite.scan s.plan s.bindings closures p b) s = .ok () t → R s t
  convertOne : ∀ context method, Keeps R (convertOne context method)
  addParameterTo : ∀ method, Keeps R (addParameterTo method)
  align : ∀ into method replacement, Keeps R (alignProperty into method replacement)
  overrides : ∀ bound replacement, Keeps R (mapOverrides bound replacement)
  complete : ∀ bound, Keeps R (complete bound)

variable [IsPreorder Propagation R]

theorem VisitKeeps.bindNeedy (h : VisitKeeps R) (method : MethodId) (places : List NeedySite) :
    Keeps R (bindNeedy method places) := by
  have hGroup (withOverrides : Bool) : Keeps R (bindingGroup method withOverrides) :=
    fun s group t hRun => (bindingGroup_ok hRun).2 ▸ refl s
  have hConvert (context : ContextId) : Keeps R (convert method context) := by
    refine Keeps.bind Keeps.get fun s => Keeps.bind (hGroup false) fun group => ?_
    refine Keeps.bind (Keeps.mapM fun id _ => h.convertOne context id) fun made => ?_
    exact Keeps.bind (Keeps.forM fun e _ => h.align _ _ _) fun _ => h.complete _
  have hAdd : Keeps R (addParameter method) := by
    refine Keeps.bind (hGroup true) fun group => Keeps.bind (Keeps.forM fun id _ => ?_) fun _ => ?_
    · exact fun s u t hRun => (requireUnconverted_ok.mp hRun).1 ▸ refl s
    refine Keeps.bind (Keeps.mapM fun id _ => h.addParameterTo id) fun made => ?_
    refine Keeps.bind (Keeps.forM fun e _ => h.overrides _ _) fun _ => ?_
    exact Keeps.bind (Keeps.forM fun e _ => h.align _ _ _) fun _ => h.complete _
  refine Keeps.bind model_keeps fun m => Keeps.bind Keeps.get fun s => ?_
  split
  · exact Keeps.ite (hConvert _) hAdd
  · exact hAdd

/-- What all of its parts keep is kept by a visit. -/
theorem VisitKeeps.visit (h : VisitKeeps R) (method : MethodId) : Keeps R (visit method) := by
  intro s u t hRun
  have hCount : R s s.visited := h.count _ s
  cases visit_ok hRun with
  | skipped _ hEnd | settled _ _ _ hEnd => exact hEnd ▸ hCount
  | adapted b hLive _ _ handle _ hAdapt => exact IsTrans.trans _ _ _ hCount (h.adapt ⟨method, handle⟩ _ _ hLive hAdapt)
  | captured b hLive _ _ handle v _ hDisplay hAdapt =>
      refine IsTrans.trans _ _ _ hCount (IsTrans.trans _ _ _ (h.display _ hDisplay) ?_)
      obtain ⟨hPlan, hBindings, hThere⟩ : v.plan = s.plan ∧ v.bindings = s.bindings ∧
          v.program.liveBody? method = some b := by
        rcases displayHandle?_ok hDisplay with rfl | ⟨m, field, p, -, -, -, -, -, hField, rfl⟩
        · exact ⟨rfl, rfl, hLive⟩
        · obtain ⟨-, -, -, hMethods, -⟩ := Program.addField_ok hField
          refine ⟨rfl, rfl, ?_⟩
          change p.liveBody? method = some b
          rw [Program.liveBody?_eq_some] at hLive ⊢
          rwa [Program.method?, hMethods]
      refine h.adapt ⟨method, handle⟩ s.closures s.program hThere ?_
      rw [hPlan, hBindings]
      exact hAdapt
  | bound b _ _ _ _ hBind => exact IsTrans.trans _ _ _ hCount (h.bindNeedy _ _ hBind)

theorem relists_changed {S : MethodId → Prop} {x : Propagate α} (h : Keeps (Changed S) x) :
    Keeps (Relists B) x :=
  h.mono fun _ _ h => .of_same h.bindings h.plan

theorem relists_edited {S : MethodId → Prop} {x : Propagate α} (h : Keeps (Edited S) x) :
    Keeps (Relists B) x :=
  relists_changed (changes_edited h)

theorem relists_graph {e : Program → GraphEdit α} : Keeps (Relists B) (graph e) := by
  intro s a t h
  obtain ⟨u, -, rfl⟩ := graph_ok.mp h
  exact .of_same rfl rfl

/-- Calling a unit from a constructor leaves the plan alone. -/
theorem inlineInitUnit_plan {constructor replacement : MethodId} {u : Unit}
    (h : inlineInitUnit constructor replacement s = .ok u t) :
    t.bindings = s.bindings ∧ t.plan = s.plan := by
  rcases inlineInitUnit_ok h with rfl | ⟨_, s₁, -, -, hEdited, hDerive⟩
  · exact ⟨rfl, rfl⟩
  · obtain ⟨v, -, rfl⟩ := graph_ok.mp hDerive
    exact ⟨hEdited.bindings, hEdited.plan⟩

/-- Keeping track of a unit puts what stands in for it in its place in the list of its context. -/
theorem adoptInitUnit_plan {context : ContextId} {method replacement : MethodId} {u : Unit}
    (h : adoptInitUnit context method replacement s = .ok u t) :
    t.bindings = s.bindings ∧ ∀ other, (t.plan.context other).initUnits
      = (s.plan.context other).initUnits.map fun unit =>
        if other = context ∧ unit = method then replacement else unit := by
  unfold adoptInitUnit at h
  obtain ⟨_, _, hGet, h⟩ := Step.bind_ok.mp h
  obtain ⟨rfl, rfl⟩ := Step.get_ok.mp hGet
  split at h
  · obtain ⟨_, s₁, hSet, h⟩ := Step.bind_ok.mp h
    obtain rfl := Step.set_ok.mp hSet
    obtain ⟨hBindings, hPlan⟩ : t.bindings = s.bindings ∧
        t.plan = s.plan.replaceInitUnit context method replacement := by
      split at h
      · exact inlineInitUnit_plan h
      · exact (Step.pure_ok.mp h).2 ▸ ⟨rfl, rfl⟩
    exact ⟨hBindings, fun other => hPlan ▸ s.plan.initUnits_replaceInitUnit ..⟩
  · rename_i hOther
    obtain ⟨-, rfl⟩ := Step.pure_ok.mp h
    refine ⟨rfl, fun other => ?_⟩
    conv_lhs => rw [← List.map_id (s.plan.context other).initUnits]
    refine List.map_congr_left fun unit hMem => (if_neg ?_).symm
    rintro ⟨rfl, rfl⟩
    exact hOther (List.contains_iff_mem.mpr hMem)

/-- A method that moves to a context, which was free before, is bound to what stands in for it; if
that was made for it, display classes move along. Then the plan is brought up to date. -/
theorem convertOne_steps {context : ContextId} {method : MethodId}
    {made : Option (MethodId × MethodId)} (h : convertOne context method s = .ok made t) :
    s = t ∨ ∃ replacement fresh r u v, s.bindings.get? method = none ∧
      convertedReplacement method context s = .ok (replacement, fresh) r ∧
      bindMethod ⟨method, replacement, .instanceConverted context⟩ r = .ok () u ∧
      (if fresh then ∃ copied w, closures (ClosureEdit.relocateDisplayClasses replacement
          (s.plan.context context).holder (s.plan.context context).generated) u = .ok copied w ∧
            w.enqueue copied = v
        else u = v) ∧
      adoptInitUnit context method replacement v = .ok () t := by
  have hReports := (convertOne_binds h).2
  have hCases := convertOne_ok h
  unfold convertOne at h
  obtain ⟨_, _, hGet, h⟩ := Step.bind_ok.mp h
  obtain ⟨rfl, rfl⟩ := Step.get_ok.mp hGet
  split at h
  · exact Or.inl (Step.pure_ok.mp h).2
  · rename_i hMode
    obtain ⟨⟨replacement, fresh⟩, r, hMade, h⟩ := Step.bind_ok.mp h
    obtain ⟨_, u, hBind, h⟩ := Step.bind_ok.mp h
    have hFree : s.bindings.get? method = none := by
      rcases hCases with ⟨-, -, hConverted⟩ | ⟨_, _, _, _, rfl, -⟩
      · exact (hMode hConverted).elim
      · exact (hReports _ (List.mem_singleton_self _)).1
    refine Or.inr ⟨replacement, fresh, r, u, ?_⟩
    cases fresh with
    | true =>
        obtain ⟨copied, w, hRelocate, h⟩ := Step.bind_ok.mp h
        obtain ⟨_, v, hEnqueue, h⟩ := Step.bind_ok.mp h
        obtain rfl := Step.modify_ok.mp hEnqueue
        obtain ⟨_, v, hAdopt, h⟩ := Step.bind_ok.mp h
        obtain ⟨-, rfl⟩ := Step.pure_ok.mp h
        exact ⟨_, hFree, hMade, hBind, ⟨copied, w, hRelocate, rfl⟩, hAdopt⟩
    | false =>
        obtain ⟨_, v, hAdopt, h⟩ := Step.bind_ok.mp h
        obtain ⟨-, rfl⟩ := Step.pure_ok.mp h
        exact ⟨u, hFree, hMade, hBind, rfl, hAdopt⟩

/-- Making a copy binds nothing. -/
theorem makeCopy_plan {source copy : MethodId} {owner : TypeId} {name : String}
    {params : List TypeRef} {shape : MethodShape}
    (h : makeCopy source owner name params shape s = .ok copy t) :
    t.bindings = s.bindings ∧ t.plan = s.plan := by
  obtain ⟨m, -, -, -, -, -, -, hSame⟩ := makeCopy_ok h
  rw [hSame]
  exact ⟨rfl, rfl⟩

/-- A unit that moves gives way in the list of its context. -/
theorem relists_convertOne {context : ContextId} {method : MethodId} :
    Keeps (Relists B) (convertOne context method) := by
  intro s made t h
  rcases convertOne_steps h with rfl | ⟨replacement, fresh, r, u, v, hFree, hMade, hBind, hMoved, hAdopt⟩
  · exact refl s
  · have hFirst : r.bindings = s.bindings ∧ r.plan = s.plan := by
      rcases convertedReplacement_ok hMade with ⟨-, rfl, -⟩ | ⟨-, _, -, hCopy⟩
      · exact ⟨rfl, rfl⟩
      · exact makeCopy_plan hCopy
    obtain ⟨m, hBound, rfl⟩ := bindMethod_ok hBind
    rw [hFirst.1] at hBound
    obtain ⟨hKept, hThere, hNew⟩ := BindingMap.bind_ok hBound
    have hLast : v.bindings = m ∧ v.plan = s.plan := by
      split at hMoved
      · obtain ⟨copied, w, hRelocate, rfl⟩ := hMoved
        have hEdited : Edited (fun _ => True) _ w :=
          keeps_closures (ClosureEdit.keeps_relocateDisplayClasses trivial) hRelocate
        exact ⟨hEdited.bindings, hEdited.plan.trans hFirst.2⟩
      · exact hMoved ▸ ⟨rfl, hFirst.2⟩
    obtain ⟨hBindings, hLists⟩ := adoptInitUnit_plan hAdopt
    rw [hLast.1] at hBindings
    refine ⟨hBindings ▸ hKept, fun _ other i unit _ hUnit => ?_⟩
    rw [hLists other, hLast.2, List.getElem?_map, hUnit, hBindings, Option.map_some]
    congr 1
    by_cases hSame : unit = method
    · subst hSame
      have hUnbound : ¬ s.bindings.isBound unit = true := by simp [BindingMap.isBound, hFree]
      rw [if_neg hUnbound, BindingMap.listing, hThere]
      by_cases hContext : other = context
      · subst hContext
        simp
      · rw [if_neg fun h => hContext h.1]
        exact (if_neg fun h => hContext (BindingMode.instanceConverted.inj h).symm).symm
    · rw [if_neg (fun h => hSame h.2)]
      split
      · rfl
      · rename_i hUnbound
        refine (BindingMap.listing_of_free ?_).symm
        cases hGet : m.get? unit with
        | none => rfl
        | some c =>
            rcases hNew unit c hGet with hBefore | ⟨-, rfl⟩
            · exact (hUnbound (by simp [BindingMap.isBound, hBefore])).elim
            · exact (hSame rfl).elim

/-- One that is given a parameter stays listed. -/
theorem relists_addParameterTo {method : MethodId} : Keeps (Relists B) (addParameterTo method) := by
  intro s made t h
  rcases addParameterTo_ok h with ⟨-, rfl, -⟩ | ⟨m, replacement, r, -, hFree, -, hStands, hBind⟩
  · exact refl s
  · have hFirst : r.bindings = s.bindings ∧ r.plan = s.plan := by
      rcases hStands with ⟨rfl, -⟩ | hCopy
      · exact ⟨rfl, rfl⟩
      · exact makeCopy_plan hCopy
    obtain ⟨bindings, hBound, rfl⟩ := bindMethod_ok hBind
    rw [hFirst.1] at hBound
    obtain ⟨hKept, hThere, hNew⟩ := BindingMap.bind_ok hBound
    refine ⟨hKept, fun _ other i unit _ hUnit => ?_⟩
    change (r.plan.context other).initUnits[i]? = some (if _ then unit else bindings.listing other unit)
    rw [hFirst.2, hUnit]
    split
    · rfl
    · rename_i hUnbound
      congr 1
      unfold BindingMap.listing
      split
      · rename_i c hGet
        rcases hNew unit c hGet with hBefore | ⟨rfl, -⟩
        · exact (hUnbound (by simp [BindingMap.isBound, hBefore])).elim
        · rfl
      · rfl

theorem visitKeeps_relists : VisitKeeps (Relists B) where
  count f s := .of_same rfl rfl
  display method s handle t h := by
    rcases displayHandle?_ok h with rfl | ⟨m, field, p, -, -, -, -, -, -, rfl⟩
    · exact refl s
    · exact .of_same rfl rfl
  adapt site closures p b s t _ h := by
    refine (?_ : Keeps (Relists B) _) h
    refine Keeps.bind (Keeps.mapM fun place _ => ?_) fun outcomes => Keeps.ite ?_ (Keeps.pure _)
    · exact relists_edited (keeps_adaptSite (S := fun _ => True) trivial)
    · exact Keeps.bind (relists_edited (S := fun _ => False) keeps_count) fun _ => relists_graph
  convertOne _ _ := relists_convertOne
  addParameterTo _ := relists_addParameterTo
  align _ _ _ := relists_changed (S := fun _ => False) changes_alignProperty
  overrides _ _ := relists_changed (S := fun _ => False) changes_mapOverrides
  complete _ := keeps_complete_of_changed (fun h => .of_same h.bindings h.plan) fun _ => relists_graph

/-- When a run succeeds, a unit that a context was given what stands in for, and that was in use, is
listed as before. Any other one is listed as what stands in for it, if it moved to the context and
that is not bound itself, and as before if not. -/
theorem run_relists {p : Program} {plan : ContextPlan} {options : PropagationOptions}
    (h : propagate p plan options = .ok () t) {context : ContextId} {i : Nat} {unit : MethodId}
    (hUnit : (plan.context context).initUnits[i]? = some unit) (hFinal : t.bindings.Final unit) :
    (plan.Provides p unit → (t.plan.context context).initUnits[i]? = some unit) ∧
      (¬ plan.Provides p unit →
        (t.plan.context context).initUnits[i]? = some (t.bindings.listing context unit)) := by
  obtain ⟨s₁, s₂, s₃, s₄, hBuild, hGiven, hBatches, hRetire, rfl⟩ := run_iff.mp h
  obtain ⟨v, -, rfl⟩ := graph_ok.mp hBuild
  obtain ⟨-, hNew, hBound⟩ := bindReplacements_binds hGiven
  have hPlan : s₂.plan = plan := by
    let R (s t : Propagation) : Prop := t.plan = s.plan
    have : IsPreorder Propagation R :=
      { refl := fun _ => rfl, trans := fun _ _ _ h h' => h'.trans h }
    have hGraph {e : Program → GraphEdit Unit} : Keeps R (graph e) := by
      intro s u t h
      obtain ⟨w, -, rfl⟩ := graph_ok.mp h
      exact refl (r := R) s
    refine (?_ : Keeps R bindReplacements) hGiven
    refine Keeps.bind Keeps.get fun s => Keeps.bind (Keeps.mapM fun b _ => ?_) fun made =>
      keeps_complete_of_changed (fun h => h.plan) fun _ => hGraph
    refine Keeps.bind model_keeps fun m => Keeps.ite (Keeps.pure _) (Keeps.bind ?_ fun _ => Keeps.pure _)
    intro s u t h
    obtain ⟨m, -, rfl⟩ := bindMethod_ok h
    exact refl (r := R) s
  have hFirst : Relists s₄.bindings s₂.seeded s₃ :=
    keeps_visitAll (keeps_batch (fun s => .of_same rfl rfl) visitKeeps_relists.visit) hBatches
  have hLast : Relists s₄.bindings s₃ s₄ :=
    relists_edited (S := fun _ => False) keeps_retireMovedFields hRetire
  have hWhole := (hFirst.trans hLast).units (refl _) context i unit hFinal (by
    change (s₂.plan.context context).initUnits[i]? = some unit
    rwa [hPlan])
  change (s₄.plan.context context).initUnits[i]?
    = some (if s₂.bindings.isBound unit then unit else s₄.bindings.listing context unit) at hWhole
  refine ⟨fun hGives => ?_, fun hOther => ?_⟩
  · obtain ⟨mode, hUsed, b, hMem, rfl, -⟩ := hGives
    rwa [if_pos (by simp [BindingMap.isBound, hBound b hMem hUsed])] at hWhole
  · rw [if_neg fun hIn => ?_] at hWhole
    · exact hWhole
    · obtain ⟨b, hGet⟩ := Option.isSome_iff_exists.mp hIn
      rcases hNew unit b hGet with hBefore | ⟨hMem, hMethod, hUsed⟩
      · cases hBefore
      · exact hOther ⟨b.mode, hUsed, b, hMem, hMethod, rfl⟩

end Propagate

end ContextBinding
