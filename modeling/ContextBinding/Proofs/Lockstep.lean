import ContextBinding.Proofs.Declaration
import ContextBinding.Proofs.Family

/-! Methods that change shape together. A transition binds, in one mode, all methods of a
group that is closed under overriding and under the accessors of a property. What stays a
family over a run is bound as one. -/

namespace ContextBinding

open Relation

namespace OverrideGraph

variable {p : Program} {a b : MethodId}

/-- A family is no larger than the program. -/
theorem length_family_le (p : Program) (a : MethodId) :
    ((build p).family a).length ≤ p.methods.length + 1 := by
  have hSub : reach (fun m => (build p).overriders m ++ (build p).overridden m) (build p).bound [a]
      ⊆ a :: p.methodIds := by
    intro b hb
    have hPath : ReflTransGen p.Related a b := mem_family_build.mp (mem_ascending.mpr hb)
    rcases hPath.cases_tail with rfl | ⟨c, -, hStep⟩
    · exact List.mem_cons_self ..
    · have hThere : ∃ m, p.method? b = some m := by
        rcases hStep with hStep | hStep
        · obtain ⟨-, m, hMethod, -⟩ := hStep.used
          exact ⟨m, hMethod⟩
        · obtain ⟨⟨m, hMethod, -⟩, -⟩ := hStep.used
          exact ⟨m, hMethod⟩
      obtain ⟨m, hMethod⟩ := hThere
      exact List.mem_cons_of_mem _ (Program.mem_methodIds hMethod)
  refine Nat.le_trans (length_ascending_le _) ?_
  have hLength := (List.subperm_of_subset (reach_nodup ..) hSub).length_le
  simpa [Program.methodIds] using hLength

end OverrideGraph

namespace Program

/-- The two accessors of a property. Both go by a special name, and neither is an accessor of
another property ahead of it. -/
def AccessorPair (p : Program) (getter setter : MethodId) : Prop :=
  ∃ m ∈ p.method? getter, ∃ t ∈ p.type? m.owner, ∃ property ∈ t.properties,
    property.getter = some getter ∧ property.setter = some setter ∧
      ∀ id ∈ [getter, setter], t.propertyOf? id = some property ∧
        ∃ m' ∈ p.method? id, m'.owner = m.owner ∧ m'.isSpecialName = true

instance (p : Program) (getter setter : MethodId) : Decidable (p.AccessorPair getter setter) :=
  inferInstanceAs (Decidable (∃ m ∈ p.method? getter, ∃ t ∈ p.type? m.owner,
    ∃ property ∈ t.properties, property.getter = some getter ∧ property.setter = some setter ∧
      ∀ id ∈ [getter, setter], t.propertyOf? id = some property ∧
        ∃ m' ∈ p.method? id, m'.owner = m.owner ∧ m'.isSpecialName = true))

variable {p q : Program} {l : License} {getter setter : MethodId}

/-- The property of an accessor is the first one that has it. -/
theorem propertyOf?_iff {t : TypeDef} {id : MethodId} {property : PropertyDef} :
    t.propertyOf? id = some property ↔ property.hasAccessor id = true ∧ ∃ i : Nat,
      t.properties[i]? = some property ∧
        ∀ j a, j < i → t.properties[j]? = some a → a.hasAccessor id = false := by
  unfold TypeDef.propertyOf?
  rw [List.find?_eq_some_iff_getElem]
  refine and_congr_right fun _ => exists_congr fun i => ?_
  constructor
  · rintro ⟨hBound, rfl, hFirst⟩
    refine ⟨List.getElem?_eq_getElem hBound, fun j a hBefore hAt => ?_⟩
    obtain ⟨hBound', rfl⟩ := List.getElem?_eq_some_iff.mp hAt
    simpa using hFirst j hBefore
  · rintro ⟨hAt, hFirst⟩
    obtain ⟨hBound, rfl⟩ := List.getElem?_eq_some_iff.mp hAt
    refine ⟨hBound, rfl, fun j hBefore => ?_⟩
    simpa using hFirst j _ hBefore (List.getElem?_eq_getElem (by omega))

theorem hasAccessor_iff {property : PropertyDef} {id : MethodId} :
    property.hasAccessor id = true ↔ property.getter = some id ∨ property.setter = some id := by
  simp [PropertyDef.hasAccessor]

/-- Each of the two accessors changes together with the other one. -/
theorem AccessorPair.siblings (h : p.AccessorPair getter setter) :
    p.accessorSibling? getter = .ok (some setter) ∧
      p.accessorSibling? setter = .ok (some getter) := by
  obtain ⟨m₀, -, t, hType, property, -, hGetter, hSetter, hBoth⟩ := h
  have hSibling {id other : MethodId} (hMem : id ∈ [getter, setter])
      (hOther : property.siblingOf id = some other) :
      p.accessorSibling? id = .ok (some other) := by
    obtain ⟨hProperty, m, hMethod, hOwner, hSpecial⟩ := hBoth id hMem
    unfold accessorSibling?
    refine Outcome.bind_ok.mpr ⟨m, methodDef_ok.mpr hMethod, ?_⟩
    rw [if_pos hSpecial]
    refine Outcome.bind_ok.mpr ⟨t, typeDef_ok.mpr (hOwner ▸ hType), ?_⟩
    rw [hProperty, Option.bind_some, hOther]
    rfl
  refine ⟨hSibling (by simp) ?_, hSibling (by simp) ?_⟩
  · simp [PropertyDef.siblingOf, hGetter, hSetter]
  · by_cases hSame : getter = setter
    · simp [PropertyDef.siblingOf, hGetter, hSetter, hSame]
    · simp [PropertyDef.siblingOf, hGetter, hSetter, hSame]

/-- A property keeps accessors that did not give way. -/
theorem Steady.accessorPair (hSteady : p.Steady l q) (hGrows : p.Grows q)
    (h : p.AccessorPair getter setter)
    (hKept : ∀ id ∈ [getter, setter], ¬ l.replaced id ∧ ¬ l.standing id) :
    q.AccessorPair getter setter := by
  obtain ⟨m₀, hMethod₀, t, hType, property, -, hGetter, hSetter, hBoth⟩ := h
  obtain ⟨t', hType', hStep⟩ := hSteady.types m₀.owner.index t hType
  obtain ⟨m₁, hMethod₁, hm₁⟩ := hGrows.method hMethod₀
  have hType' : q.type? m₁.owner = some t' := hm₁.owner ▸ hType'
  have hSame {a a' : Option MethodId} {id : MethodId} (hMem : id ∈ [getter, setter])
      (hSwaps : l.Swaps a a') (ha : a = some id) : a' = some id := by
    rcases hSwaps with rfl | ⟨⟨old, hOld, hReplaced⟩, -⟩
    · exact ha
    · obtain rfl := Option.some_inj.mp (ha.symm.trans hOld)
      exact ((hKept _ hMem).1 hReplaced).elim
  have hBefore {a a' : Option MethodId} {id : MethodId} (hMem : id ∈ [getter, setter])
      (hSwaps : l.Swaps a a') (ha : a' = some id) : a = some id := by
    rcases hSwaps with rfl | ⟨-, new, hNew, hStanding⟩
    · exact ha
    · obtain rfl := Option.some_inj.mp (ha.symm.trans hNew)
      exact ((hKept _ hMem).2 hStanding).elim
  have hFirst : getter ∈ [getter, setter] := by simp
  have hSecond : setter ∈ [getter, setter] := by simp
  obtain ⟨hHas, i, hAt, hAhead⟩ := propertyOf?_iff.mp (hBoth getter hFirst).1
  obtain ⟨hHas', k, hAt', hAhead'⟩ := propertyOf?_iff.mp (hBoth setter hSecond).1
  obtain rfl : i = k := by
    rcases Nat.lt_trichotomy i k with hLess | hSame | hLess
    · simp [hAhead' i property hLess hAt] at hHas'
    · exact hSame
    · simp [hAhead k property hLess hAt'] at hHas
  obtain ⟨property', hThere, hRealigned⟩ := hStep.properties i property hAt
  have hGetter' := hSame hFirst hRealigned.1 hGetter
  have hSetter' := hSame hSecond hRealigned.2 hSetter
  refine ⟨m₁, hMethod₁, t', hType', property', List.mem_of_getElem? hThere, hGetter', hSetter',
    fun id hMem => ⟨?_, ?_⟩⟩
  · have hAccessor : property'.hasAccessor id = true := by
      rw [hasAccessor_iff, hGetter', hSetter']
      simpa [eq_comm] using hMem
    refine propertyOf?_iff.mpr ⟨hAccessor, i, hThere, fun j a' hBelow hEntry => ?_⟩
    have hBound : j < t.properties.length :=
      Nat.lt_trans hBelow (List.getElem?_eq_some_iff.mp hAt).1
    obtain ⟨a'', hEntry', hSwapped⟩ := hStep.properties j _ (List.getElem?_eq_getElem hBound)
    obtain rfl : a' = a'' := Option.some_inj.mp (hEntry.symm.trans hEntry')
    have hNot : t.properties[j].hasAccessor id = false := by
      have hOf : id = getter ∨ id = setter := by simpa using hMem
      rcases hOf with rfl | rfl
      · exact hAhead j _ hBelow (List.getElem?_eq_getElem hBound)
      · exact hAhead' j _ hBelow (List.getElem?_eq_getElem hBound)
    cases hHas : a'.hasAccessor id with
    | false => rfl
    | true =>
        have hEarlier : t.properties[j].hasAccessor id = true := by
          rw [hasAccessor_iff] at hHas ⊢
          exact hHas.imp (hBefore hMem hSwapped.1) (hBefore hMem hSwapped.2)
        simp [hEarlier] at hNot
  · obtain ⟨-, m, hMethod, hOwner, hSpecial⟩ := hBoth id hMem
    obtain ⟨m', hMethod', hm⟩ := hGrows.method hMethod
    obtain ⟨m'', hMethod'', hSteps⟩ := hSteady.methods id m hMethod
    obtain rfl : m' = m'' := Option.some_inj.mp (hMethod'.symm.trans hMethod'')
    have hSame := hSteps.special.resolve_left (hKept id hMem).2
    exact ⟨m', hMethod', hm.owner.trans (hOwner.trans hm₁.owner.symm), hSame.trans hSpecial⟩

end Program

namespace Propagation

variable {p : Program} {s t u : Propagation}

/-- What is known, at some point of a run, of the program that it began with. -/
structure Underway (p : Program) (s : Propagation) : Prop where
  keyed : s.closures.Keyed
  grows : p.Grows s.program
  steady : p.Steady s.license s.program
  overrides : ∃ q, s.graph.overrides = .build q ∧ p.Grows q ∧ p.Steady s.license q ∧
    q.Grows s.program
  modes : ∀ id b, s.bindings.get? id = some b → b.mode ≠ .unbound
  fresh : ∀ type, s.closures.Owns type → p.types.length ≤ type.index
  brings : ∀ id m, s.program.method? id = some m →
    (∃ m₀, p.method? id = some m₀) ∨ s.closures.Owns m.owner ∨ s.bindings.StandsIn id

theorem Underway.later (h : Underway p s) (h' : s.Progresses t) : Underway p t where
  keyed := h'.keyed
  grows := h.grows.trans h'.grows
  steady := (h.steady.mono h'.toAdvances.license_le).trans h'.licensed
  overrides := by
    have hLe := h'.toAdvances.license_le
    rcases h'.overrides with hSame | ⟨q, hBuilt, hGrows, hSteady, hLater⟩
    · obtain ⟨q, hBuilt, hGrows, hSteady, hLater⟩ := h.overrides
      exact ⟨q, hSame.trans hBuilt, hGrows, hSteady.mono hLe, hLater.trans h'.grows⟩
    · exact ⟨q, hBuilt, h.grows.trans hGrows, (h.steady.mono hLe).trans hSteady, hLater⟩
  modes id b hGet := (h'.modes id b hGet).elim (h.modes id b) fun h => h
  fresh type hOwned := (h'.fresh type hOwned).elim (h.fresh type)
    fun hNew => h.grows.types.length_le.trans hNew
  brings id m hMethod := by
    rcases h'.brings id m hMethod with ⟨m₁, hMethod₁⟩ | hNew
    · rcases h.brings id m₁ hMethod₁ with hOld | hOwned | hStands
      · exact Or.inl hOld
      · have hOwner := (h'.grows.method_persists hMethod₁ hMethod).owner
        exact Or.inr (Or.inl (hOwner ▸ h'.learns.owned _ hOwned))
      · exact Or.inr (Or.inr (h'.toAdvances.license_le.standing id hStands))
    · exact Or.inr hNew

/-- A condition that held before, where it holds at some point of a run. -/
structure Condition where
  holds : Propagation → Prop
  earlier : ∀ s t, s.Progresses t → holds t → holds s

/-- No condition. -/
def always : Condition := ⟨fun _ => True, fun _ _ _ _ => trivial⟩

/-- The methods of a group change shape. -/
inductive Transition (s t : Propagation) : Prop where
  | converted (method : MethodId) (context : ContextId) (group : List MethodId)
      (hGroup : Propagate.bindingGroup method false s = .ok group s)
      (hConverts : Propagate.Converts context group s t)
  | added (method : MethodId) (group : List MethodId)
      (hGroup : Propagate.bindingGroup method true s = .ok group s)
      (hFree : ∀ id ∈ group, ∀ context, s.bindings.mode id ≠ .instanceConverted context)
      (hAdds : Propagate.AddsParameter group s t)

/-- Under a condition, every transition leaves the state with what it had, and so does every
step that binds nothing. -/
structure Preserved (p : Program) (C : Condition) (I : Propagation → Prop) : Prop where
  step : ∀ s t, Transition s t → s.Progresses t → Underway p s → C.holds t → I s → I t
  idle : ∀ s t, SameBindings s t → s.Progresses t → Underway p s → C.holds t → I s → I t

/-- A step leads on, and under a condition leaves the state with what it had. -/
def Carried (p : Program) (C : Condition) (I : Propagation → Prop) (s t : Propagation) : Prop :=
  s.closures.Keyed → s.Progresses t ∧ (Underway p s → C.holds t → I s → I t)

variable {C : Condition} {I : Propagation → Prop}

/-- What is said of the bindings only need be preserved by transitions. -/
theorem Preserved.of_bindings {I : BindingMap → Prop}
    (h : ∀ s t, Transition s t → s.Progresses t → Underway p s → C.holds t →
      I s.bindings → I t.bindings) : Preserved p C fun s => I s.bindings where
  step := h
  idle _ _ hSame _ _ _ hI := Eq.mpr (congrArg I hSame) hI

instance : IsPreorder Propagation (Carried p C I) where
  refl _ hKeyed := ⟨.refl hKeyed, fun _ _ => id⟩
  trans s t u h h' hKeyed := by
    obtain ⟨hFirst, hKept⟩ := h hKeyed
    obtain ⟨hSecond, hKept'⟩ := h' hFirst.keyed
    refine ⟨hFirst.trans hSecond, fun hUnderway hHolds hI => ?_⟩
    exact hKept' (hUnderway.later hFirst) hHolds (hKept hUnderway (C.earlier t u hSecond hHolds) hI)

end Propagation

namespace Propagate

open Propagation

variable {s t : Propagation}

/-- What changes together with one method of a group belongs to the group. -/
theorem bindingGroup_closed {method : MethodId} {withOverrides : Bool} {group : List MethodId}
    {q : Program} (hBuilt : s.graph.overrides = .build q)
    (hLength : q.methods.length ≤ s.program.methods.length)
    (h : bindingGroup method withOverrides s = .ok group t) {a : MethodId} (ha : a ∈ group) :
    (∀ b, s.program.accessorSibling? a = .ok (some b) → b ∈ group) ∧
      (withOverrides = true → ∀ b, ReflTransGen q.Related a b → b ∈ group) := by
  obtain ⟨_, _, hGet, h⟩ := Step.bind_ok.mp h
  obtain ⟨rfl, rfl⟩ := Step.get_ok.mp hGet
  obtain ⟨hGroup, rfl⟩ := model_ok.mp h
  obtain ⟨found, hExplore, hPure⟩ := Outcome.bind_ok.mp hGroup
  obtain rfl := Outcome.pure_ok.mp hPure
  let N := s.program.methods.length
  let counts : List (MethodId × Nat) := s.program.methodIds.map fun id => (id, N + 2)
  have hNext (a : MethodId) (l : List MethodId) (_ : True)
      (h : (do
        let family :=
          if withOverrides && s.graph.overrides.contains a then s.graph.overrides.family a else []
        pure (family ++ (← s.program.accessorSibling? a).toList) :
          Except ModelError (List MethodId)) = .ok l) :
      l.length ≤ allowance counts a ∧ ∀ b ∈ l, True := by
    obtain ⟨sibling, hSibling, hList⟩ := Outcome.bind_ok.mp h
    obtain rfl := Outcome.pure_ok.mp hList
    obtain ⟨m, hMethod, -⟩ := Outcome.bind_ok.mp hSibling
    have hAllowed : N + 2 ≤ allowance counts a :=
      le_allowance (List.mem_map.mpr
        ⟨a, Program.mem_methodIds (Program.methodDef_ok.mp hMethod), rfl⟩)
    refine ⟨?_, fun _ _ => trivial⟩
    have hFamily : (if withOverrides && s.graph.overrides.contains a then
        s.graph.overrides.family a else []).length ≤ N + 1 := by
      split
      · rw [hBuilt]
        exact Nat.le_trans (OverrideGraph.length_family_le q a) (Nat.succ_le_succ hLength)
      · exact Nat.zero_le _
    have hOne : sibling.toList.length ≤ 1 := by cases sibling <;> simp
    rw [List.length_append]
    omega
  have hFuel : [method].length + unseenAllowance counts [] ≤ (N + 2) * (N + 2) := by
    have hSum : (counts.map (·.2)).sum = N * (N + 2) := by
      simp [counts, Function.comp_def, Program.methodIds, N]
    rw [unseenAllowance_nil, hSum, List.length_singleton, Nat.add_mul]
    omega
  obtain ⟨-, hClosed⟩ := explore_closed hNext (fun _ _ => trivial) hExplore hFuel
  obtain hNone | ⟨l, hStep, hMem⟩ := hClosed a (mem_ascending.mp ha)
  · exact (List.not_mem_nil hNone).elim
  · obtain ⟨sibling, hSibling, hList⟩ := Outcome.bind_ok.mp hStep
    obtain rfl := Outcome.pure_ok.mp hList
    refine ⟨fun b hb => ?_, fun hOn b hPath => ?_⟩
    · obtain rfl : sibling = some b := Except.ok.inj (hSibling.symm.trans hb)
      exact mem_ascending.mpr (hMem b (List.mem_append_right _ (by simp)))
    · rcases hPath.cases_head with rfl | ⟨c, hFirst, -⟩
      · exact ha
      · refine mem_ascending.mpr (hMem b (List.mem_append_left _ ?_))
        rw [hOn, hBuilt, OverrideGraph.contains_build hFirst]
        exact OverrideGraph.mem_family_build.mpr hPath

variable {p : Program} {C : Condition} {I : Propagation → Prop} {α : Type}

theorem carries_same (hI : Preserved p C I) {x : Propagate α} (h : Keeps Progressed x)
    (hSame : Keeps SameBindings x) : Keeps (Carried p C I) x := by
  intro s a t hRun hKeyed
  have hProgresses := h hRun hKeyed
  exact ⟨hProgresses, hI.idle s t (hSame hRun) hProgresses⟩

theorem carries_edited (hI : Preserved p C I) {S : MethodId → Prop} {x : Propagate α}
    (h : Keeps (Edited S) x) : Keeps (Carried p C I) x :=
  carries_same hI (progresses_edited h) (same_edited h)

/-- A visit is a transition, or binds nothing. -/
theorem carries_visit (h : Preserved p C I) {method : MethodId} :
    Keeps (Carried p C I) (visit method) := by
  have hConvert (context : ContextId) : Keeps (Carried p C I) (convert method context) := by
    intro s u t hRun hKeyed
    obtain ⟨group, hGroup, hConverts⟩ := convert_ok hRun
    have hProgresses := hConverts.binds.progressed hKeyed
    exact ⟨hProgresses, h.step s t (.converted method context group hGroup hConverts) hProgresses⟩
  have hAdd : Keeps (Carried p C I) (addParameter method) := by
    intro s u t hRun hKeyed
    obtain ⟨group, hGroup, hFree, hAdds⟩ := addParameter_ok hRun
    have hProgresses := hAdds.binds.progressed hKeyed
    exact ⟨hProgresses, h.step s t (.added method group hGroup hFree hAdds) hProgresses⟩
  have hInPlace (site : RootedMethod) (places : List NeedySite) :
      Keeps (Carried p C I) (adaptInPlace site places) :=
    carries_same h progresses_adaptInPlace same_adaptInPlace
  have hReads {β : Type} {f : Program → Except ModelError β} : Keeps (Carried p C I) (model f) :=
    carries_edited h (S := fun _ => False) keeps_model
  refine Keeps.bind (carries_edited h (S := fun _ => False) keeps_count) fun _ => ?_
  refine Keeps.bind hReads fun m => Keeps.bind Keeps.get fun s => Keeps.ite ?_ (Keeps.pure _)
  refine Keeps.bind (carries_edited h (S := fun _ => False) keeps_scan) fun places => ?_
  refine Keeps.ite ?_ (Keeps.pure _)
  refine Keeps.bind (carries_edited h (S := fun _ => False) keeps_handleOf?) fun handle => ?_
  cases handle with
  | some handle => exact hInPlace _ _
  | none =>
      refine Keeps.bind (carries_same h progresses_displayHandle? same_displayHandle?)
        fun handle => ?_
      cases handle with
      | some handle => exact hInPlace _ _
      | none =>
          refine Keeps.bind hReads fun m => Keeps.bind Keeps.get fun s => ?_
          split
          · exact Keeps.ite (hConvert _) hAdd
          · exact hAdd

theorem carries_visitAll (h : Preserved p C I) : Keeps (Carried p C I) visitAll := by
  refine keeps_visitAll (keeps_batch (fun s hKeyed => ?_) fun _ => carries_visit h)
  have hProgresses : s.Progresses s.opened := { Progresses.refl hKeyed with }
  exact ⟨hProgresses, h.idle _ _ rfl hProgresses⟩

/-- When the graph is built, nothing has changed yet. -/
theorem build_underway {plan : ContextPlan} {options : PropagationOptions}
    (h : graph GraphEdit.build (.start p plan options) = .ok () s) : Underway p s := by
  obtain ⟨v, hBuild, rfl⟩ := graph_ok.mp h
  obtain ⟨hOverrides, -⟩ := GraphEdit.build_lists hBuild
  exact ⟨Propagation.keyed_start p plan options, .refl p, .refl p,
    ⟨p, hOverrides, .refl p, .refl p, .refl p⟩, nofun,
    fun type hOwned => (Propagation.not_owns_start p plan options type hOwned).elim,
    fun id m hMethod => Or.inl ⟨m, hMethod⟩⟩

/-- What holds of the bindings that a plan gives and is preserved by every transition holds
of those of a run. -/
theorem run_preserved {plan : ContextPlan} {options : PropagationOptions}
    (h : propagate p plan options = .ok () s) (hPreserved : Preserved p C I) (hC : C.holds s)
    (hGiven : ∀ t : Propagation,
      (∀ id b, t.bindings.get? id = some b → b ∈ plan.given ∧ b.method = id ∧ ¬ p.Retired id) →
      (∀ b ∈ plan.given, ¬ p.Retired b.method → t.bindings.get? b.method = some b) → I t) :
    Underway p s ∧ I s := by
  unfold propagate run at h
  obtain ⟨_, s₁, hGraph, h⟩ := Step.bind_ok.mp h
  obtain ⟨_, s₂, hReplacements, h⟩ := Step.bind_ok.mp h
  obtain ⟨_, s₃, hSeed, h⟩ := Step.bind_ok.mp h
  obtain ⟨_, s₄, hBatches, h⟩ := Step.bind_ok.mp h
  obtain ⟨_, s₅, hRetire, h⟩ := Step.bind_ok.mp h
  obtain rfl := Step.modify_ok.mp h
  have hStart : Underway p s₁ := build_underway hGraph
  obtain ⟨v, -, rfl⟩ := graph_ok.mp hGraph
  obtain ⟨hProgressed, hNew, hBound⟩ := bindReplacements_binds hReplacements
  have h₂ := hProgressed hStart.keyed
  have hI : I s₂ := by
    refine hGiven s₂ (fun id b hGet => (hNew id b hGet).resolve_left ?_) hBound
    simp [Propagation.start, BindingMap.empty, BindingMap.get?, Table.get?_empty]
  have hRest : Carried p C I s₂ s₅ :=
    IsTrans.trans _ _ _ (carries_edited hPreserved (S := fun _ => False) keeps_seed hSeed)
      (IsTrans.trans _ _ _ (carries_visitAll hPreserved hBatches)
        (carries_edited hPreserved (S := fun _ => False) keeps_retireMovedFields hRetire))
  obtain ⟨h₅, hKept⟩ := hRest h₂.keyed
  have hUnderway := (hStart.later h₂).later h₅
  have hEnd : s₅.Progresses (s₅.count fun n =>
      { n with skippedCaptureSites := s₅.closures.skipped }) := { Progresses.refl h₅.keyed with }
  refine ⟨hUnderway.later hEnd, hPreserved.idle s₅ _ rfl hEnd hUnderway hC ?_⟩
  exact hKept (hStart.later h₂) (C.earlier s₅ _ hEnd hC) hI

end Propagate

namespace OverrideGraph

variable {p : Program} {a b c : MethodId}

/-- The methods of a family are related to each other. -/
theorem related_of_mem (hb : b ∈ (build p).family a) (hc : c ∈ (build p).family a) :
    ReflTransGen p.Related b c := by
  have : Std.Symm p.Related := ⟨fun _ _ h => h.symm⟩
  have hBack : ReflTransGen p.Related b a := Std.Symm.symm _ _ (mem_family_build.mp hb)
  exact hBack.trans (mem_family_build.mp hc)

theorem mem_family_of_related (hb : b ∈ (build p).family a) (h : ReflTransGen p.Related b c) :
    c ∈ (build p).family a :=
  mem_family_build.mpr ((mem_family_build.mp hb).trans h)

end OverrideGraph

namespace BindingMap

/-- Either no method of a family was given a parameter, or all of them were. -/
def InStep (m : BindingMap) (family : List MethodId) : Prop :=
  (∀ id ∈ family, m.mode id ≠ .addedParameter) ∨ ∀ id ∈ family, m.mode id = .addedParameter

instance (m : BindingMap) (family : List MethodId) : Decidable (m.InStep family) :=
  inferInstanceAs (Decidable ((∀ id ∈ family, m.mode id ≠ .addedParameter) ∨
    ∀ id ∈ family, m.mode id = .addedParameter))

theorem mode_of_get? {m : BindingMap} {id : MethodId} {b : Binding} (h : m.get? id = some b) :
    m.mode id = b.mode := by
  simp [mode, h]

/-- Once bound, a method keeps its mode. -/
theorem mode_later {m m' : BindingMap} {id : MethodId} (h : m.Extends m')
    (hBound : m.mode id ≠ .unbound) : m'.mode id = m.mode id := by
  cases hGet : m.get? id with
  | none => simp [mode, hGet] at hBound
  | some b => exact (mode_of_get? (h id b hGet)).trans (mode_of_get? hGet).symm

/-- A method has the mode that it was bound in. -/
theorem Gains.mode_eq {m m' : BindingMap} {mode : BindingMode} {group : List MethodId}
    (h : m.Gains mode group m') (id : MethodId) :
    m'.mode id = m.mode id ∨ m.get? id = none ∧ id ∈ group ∧ m'.mode id = mode := by
  cases hBefore : m.get? id with
  | some b => exact Or.inl ((mode_of_get? (h.kept id b hBefore)).trans (mode_of_get? hBefore).symm)
  | none =>
      cases hAfter : m'.get? id with
      | none => exact Or.inl (by simp [BindingMap.mode, hBefore, hAfter])
      | some b =>
          rcases h.new id b hAfter with hOld | ⟨hMem, hMode⟩
          · simp [hBefore] at hOld
          · exact Or.inr ⟨rfl, hMem, (mode_of_get? hAfter).trans hMode⟩

end BindingMap

namespace ContextPlan

/-- A context brings along a replacement for a method in use, which is bound in a mode. -/
def Gives (plan : ContextPlan) (p : Program) (id : MethodId) (mode : BindingMode) : Prop :=
  ¬ p.Retired id ∧ ∃ b ∈ plan.given, b.method = id ∧ b.mode = mode

end ContextPlan

namespace Propagation

variable {p : Program} {s t : Propagation}

/-- What changes together with one method of a group changes with all of it. -/
theorem Transition.closed (h : Transition s t) (hUnderway : Underway p s) :
    ∃ mode group, (∀ a ∈ group, ∀ b, s.program.accessorSibling? a = .ok (some b) → b ∈ group) ∧
      Binds mode group s t := by
  obtain ⟨q, hBuilt, -, -, hLater⟩ := hUnderway.overrides
  have hClosed {method : MethodId} {withOverrides : Bool} {group : List MethodId}
      (hGroup : Propagate.bindingGroup method withOverrides s = .ok group s) :
      ∀ a ∈ group, ∀ b, s.program.accessorSibling? a = .ok (some b) → b ∈ group :=
    fun a ha => (Propagate.bindingGroup_closed hBuilt hLater.methods.length_le hGroup ha).1
  cases h with
  | converted method context group hGroup hConverts =>
      exact ⟨_, group, hClosed hGroup, hConverts.binds⟩
  | added method group hGroup hFree hAdds => exact ⟨_, group, hClosed hGroup, hAdds.binds⟩

/-- A family that nothing set apart belongs to the group of each of its methods. -/
theorem Underway.mem_group (hUnderway : Underway p s) {method : MethodId} {group : List MethodId}
    (hGroup : Propagate.bindingGroup method true s = .ok group s) {a b : MethodId} (ha : a ∈ group)
    (hKept : ∀ id, ReflTransGen p.Related a id → ¬ s.license.dropped id ∧
      ¬ s.license.standing id ∧ ∀ m, p.method? id = some m → p.Clear s.program m)
    (hPath : ReflTransGen p.Related a b) : b ∈ group := by
  obtain ⟨q, hBuilt, hGrows, hSteady, hLater⟩ := hUnderway.overrides
  have hRelated : ReflTransGen q.Related a b := by
    refine hSteady.related hGrows (fun id hId => ?_) hPath
    obtain ⟨hUsed, hGenuine, hClear⟩ := hKept id hId
    exact ⟨hUsed, hGenuine, fun m hMethod => (hClear m hMethod).earlier hLater⟩
  exact (Propagate.bindingGroup_closed hBuilt hLater.methods.length_le hGroup ha).2 rfl b hRelated

/-- Nothing that a run did sets a family of the program apart: if originals go out of use,
what was bound of it was given a parameter; no method of it stands in for another one; and no
new virtual method has the signature of one of them. -/
structure Undisturbed (p : Program) (family : List MethodId) (s : Propagation) : Prop where
  parameters : s.options.retireReplaced = true → ∀ id ∈ family, s.bindings.isBound id = true →
    s.bindings.mode id = .addedParameter
  genuine : ∀ id ∈ family, s.bindings.isReplacement id = false
  clear : ∀ id ∈ family, ∀ m ∈ p.method? id, p.Clear s.program m

instance (p : Program) (family : List MethodId) (s : Propagation) :
    Decidable (Undisturbed p family s) :=
  decidable_of_iff ((s.options.retireReplaced = true → ∀ id ∈ family, s.bindings.isBound id = true →
      s.bindings.mode id = .addedParameter) ∧
    (∀ id ∈ family, s.bindings.isReplacement id = false) ∧
      ∀ id ∈ family, ∀ m ∈ p.method? id, ∀ m' ∈ s.program.methods.drop p.methods.length,
        m'.isVirtual = true → m'.sameSignature m = false)
    ⟨fun h => ⟨h.1, h.2.1, h.2.2⟩, fun h => ⟨h.parameters, h.genuine, h.clear⟩⟩

/-- What does not set a family apart did not do so before. -/
def undisturbed (p : Program) (family : List MethodId) : Condition where
  holds s := (s.options.retireReplaced = true → ∀ id ∈ family, ∀ b, s.bindings.get? id = some b →
      b.mode = .addedParameter) ∧
    (∀ id ∈ family, ¬ s.bindings.StandsIn id) ∧
      ∀ id ∈ family, ∀ m, p.method? id = some m → p.Clear s.program m
  earlier s t h := by
    rintro ⟨hParameters, hGenuine, hClear⟩
    refine ⟨fun hRetire id hMem b hGet => ?_, fun id hMem hStands => ?_, fun id hMem m hMethod => ?_⟩
    · exact hParameters (h.options ▸ hRetire) id hMem b (h.bindings id b hGet)
    · exact hGenuine id hMem (h.toAdvances.license_le.standing id hStands)
    · exact (hClear id hMem m hMethod).earlier h.grows

theorem Undisturbed.holds {family : List MethodId} (h : Undisturbed p family s) :
    (undisturbed p family).holds s := by
  refine ⟨fun hRetire id hMem b hGet => ?_, fun id hMem => ?_, h.clear⟩
  · rw [← BindingMap.mode_of_get? hGet]
    exact h.parameters hRetire id hMem (Option.isSome_iff_exists.mpr ⟨b, hGet⟩)
  · exact BindingMap.not_standsIn (h.genuine id hMem)

/-- A transition leaves a family in step. -/
theorem inStep_preserved (p : Program) (id : MethodId) :
    Preserved p (undisturbed p ((OverrideGraph.build p).family id)) fun s =>
      s.bindings.InStep ((OverrideGraph.build p).family id) := by
  refine .of_bindings (I := (·.InStep ((OverrideGraph.build p).family id))) ?_
  intro s t hTransition hProgresses hUnderway hHolds hInStep
  obtain ⟨hParameters, hGenuine, hClear⟩ :=
    (undisturbed p ((OverrideGraph.build p).family id)).earlier s t hProgresses hHolds
  rcases hInStep with hNone | hAll
  · cases hTransition with
    | converted method context group hGroup hConverts =>
        refine Or.inl fun d hd => ?_
        rcases hConverts.binds.gains.mode_eq d with hSame | ⟨-, -, hMode⟩
        · exact hSame ▸ hNone d hd
        · simp [hMode]
    | added method group hGroup hFree hAdds =>
        have hBinds := hAdds.binds
        by_cases hNew : ∃ d ∈ (OverrideGraph.build p).family id, t.bindings.mode d = .addedParameter
        · obtain ⟨d, hd, hMode⟩ := hNew
          have hIn : d ∈ group := by
            rcases hBinds.gains.mode_eq d with hSame | ⟨-, hIn, -⟩
            · exact (hNone d hd (hSame ▸ hMode)).elim
            · exact hIn
          refine Or.inr fun e he => ?_
          have hGroup : e ∈ group := by
            refine hUnderway.mem_group hGroup hIn (fun x hx => ?_) (OverrideGraph.related_of_mem hd he)
            have hx := OverrideGraph.mem_family_of_related hd hx
            refine ⟨?_, hGenuine x hx, hClear x hx⟩
            rintro ⟨hRetire, b, hGet⟩
            exact hNone x hx ((BindingMap.mode_of_get? hGet).trans (hParameters hRetire x hx b hGet))
          obtain ⟨b, hGet⟩ := hBinds.bound e hGroup
          rw [BindingMap.mode_of_get? hGet]
          rcases hBinds.gains.new e b hGet with hOld | ⟨-, hMode⟩
          · have hOldMode := BindingMap.mode_of_get? hOld
            cases hMode : b.mode with
            | unbound => exact (hUnderway.modes e b hOld hMode).elim
            | instanceConverted context => exact (hFree e hGroup context (hOldMode.trans hMode)).elim
            | addedParameter => rfl
          · exact hMode
        · exact Or.inl fun d hd hMode => hNew ⟨d, hd, hMode⟩
  · refine Or.inr fun d hd => ?_
    have hMode := hAll d hd
    exact (BindingMap.mode_later hProgresses.bindings (by simp [hMode])).trans hMode

/-- The accessors of a property, neither of which stands in for another method, are in
step if they were. -/
theorem accessors_preserved {getter setter : MethodId} (h : p.AccessorPair getter setter) :
    Preserved p ⟨fun s => ∀ id ∈ [getter, setter], ¬ s.bindings.StandsIn id,
      fun _ _ h hStands id hMem hBefore =>
        hStands id hMem (h.toAdvances.license_le.standing id hBefore)⟩
      fun s => s.bindings.mode getter = s.bindings.mode setter := by
  refine .of_bindings (I := fun m => m.mode getter = m.mode setter) ?_
  intro s t hTransition hProgresses hUnderway hHolds hSame
  have hGenuine : ∀ id ∈ [getter, setter], ¬ s.bindings.StandsIn id := fun id hMem hBefore =>
    hHolds id hMem (hProgresses.toAdvances.license_le.standing id hBefore)
  by_cases hBound : s.bindings.mode getter = .unbound
  · have hFree (id : MethodId) (hMem : id ∈ [getter, setter]) : s.bindings.get? id = none := by
      cases hGet : s.bindings.get? id with
      | none => rfl
      | some b =>
          have hMode : s.bindings.mode id = .unbound := by
            rcases List.mem_cons.mp hMem with rfl | hMem
            · exact hBound
            · obtain rfl := List.mem_singleton.mp hMem
              exact hSame.symm.trans hBound
          exact (hUnderway.modes id b hGet ((BindingMap.mode_of_get? hGet).symm.trans hMode)).elim
    have hPair : s.program.AccessorPair getter setter := by
      refine hUnderway.steady.accessorPair hUnderway.grows h fun id hMem => ⟨?_, hGenuine id hMem⟩
      rintro ⟨b, hGet⟩
      simp [hFree id hMem] at hGet
    obtain ⟨mode, group, hClosed, hBinds⟩ := hTransition.closed hUnderway
    have hMode (id : MethodId) (hMem : id ∈ [getter, setter]) :
        t.bindings.mode id = if id ∈ group then mode else .unbound := by
      split
      · rename_i hIn
        obtain ⟨b, hGet⟩ := hBinds.bound id hIn
        rcases hBinds.gains.new id b hGet with hOld | ⟨-, hMode⟩
        · simp [hFree id hMem] at hOld
        · exact (BindingMap.mode_of_get? hGet).trans hMode
      · rename_i hOut
        rcases hBinds.gains.mode_eq id with hKept | ⟨-, hIn, -⟩
        · rw [hKept]
          simp [BindingMap.mode, hFree id hMem]
        · exact (hOut hIn).elim
    rw [hMode getter (by simp), hMode setter (by simp)]
    have hIff : getter ∈ group ↔ setter ∈ group :=
      ⟨fun h => hClosed getter h setter hPair.siblings.1,
        fun h => hClosed setter h getter hPair.siblings.2⟩
    simp [hIff]
  · rw [BindingMap.mode_later hProgresses.bindings hBound,
      BindingMap.mode_later hProgresses.bindings (hSame ▸ hBound), hSame]

end Propagation

namespace Propagate

open Propagation

variable {s t : Propagation}

/-- A method that moved to a context cannot be given a parameter. -/
theorem requireUnconverted_error {method member : MethodId} {context : ContextId}
    (h : s.bindings.mode member = .instanceConverted context) :
    requireUnconverted method member s = .error (.binding (.incompatibleFamily
      (s.program.identity method) (s.program.identity member))) s := by
  unfold requireUnconverted
  rw [Step.bind_of_ok (Step.get_ok.mpr ⟨rfl, rfl⟩), h]
  rfl

theorem requireAllUnconverted_error (method : MethodId) {group : List MethodId}
    (h : ∃ member ∈ group, ∃ context, s.bindings.mode member = .instanceConverted context) :
    ∃ member ∈ group, (∃ context, s.bindings.mode member = .instanceConverted context) ∧
      group.forM (requireUnconverted method) s = .error (.binding (.incompatibleFamily
        (s.program.identity method) (s.program.identity member))) s := by
  induction group with
  | nil => simp at h
  | cons first group ih =>
      change ∃ member ∈ first :: group, _ ∧ (requireUnconverted method first >>= fun _ =>
        group.forM (requireUnconverted method)) s = _
      by_cases hFirst : ∃ context, s.bindings.mode first = .instanceConverted context
      · obtain ⟨context, hMode⟩ := hFirst
        refine ⟨first, List.mem_cons_self .., ⟨context, hMode⟩, ?_⟩
        exact Step.bind_of_error (requireUnconverted_error hMode)
      · have hRest : ∃ member ∈ group, ∃ context,
            s.bindings.mode member = .instanceConverted context := by
          obtain ⟨member, hMem, hMoved⟩ := h
          rcases List.mem_cons.mp hMem with rfl | hMem
          · exact (hFirst hMoved).elim
          · exact ⟨member, hMem, hMoved⟩
        obtain ⟨member, hMem, hMoved, hError⟩ := ih hRest
        refine ⟨member, List.mem_cons_of_mem _ hMem, hMoved, ?_⟩
        have hFree : requireUnconverted method first s = .ok ⟨⟩ s :=
          requireUnconverted_ok.mpr ⟨rfl, fun context hMode => hFirst ⟨context, hMode⟩⟩
        exact (Step.bind_of_ok hFree).trans hError

/-- A group with a method that moved to a context is refused as a whole. -/
theorem addParameter_error {method : MethodId} {group : List MethodId}
    (hGroup : bindingGroup method true s = .ok group s)
    (h : ∃ member ∈ group, ∃ context, s.bindings.mode member = .instanceConverted context) :
    ∃ member ∈ group, (∃ context, s.bindings.mode member = .instanceConverted context) ∧
      addParameter method s = .error (.binding (.incompatibleFamily
        (s.program.identity method) (s.program.identity member))) s := by
  obtain ⟨member, hMem, hMoved, hError⟩ := requireAllUnconverted_error method h
  refine ⟨member, hMem, hMoved, ?_⟩
  unfold addParameter
  rw [Step.bind_of_ok hGroup]
  exact Step.bind_of_error hError

/-- Families and accessors change shape in step. A family that nothing sets apart is given
parameters as a whole or not at all. The two accessors of a property are bound in the same
way if contexts bring along the same for both. A group of which a method moved to a context
already is refused a parameter. -/
theorem bound_inStep {p : Program} {plan : ContextPlan} {options : PropagationOptions}
    (h : propagate p plan options = .ok () s) :
    (∀ id, Undisturbed p ((OverrideGraph.build p).family id) s →
      s.bindings.InStep ((OverrideGraph.build p).family id)) ∧
    (∀ getter setter, p.AccessorPair getter setter →
      (∀ id ∈ [getter, setter], s.bindings.isReplacement id = false) →
      (∀ mode, plan.Gives p getter mode ↔ plan.Gives p setter mode) →
      s.bindings.mode getter = s.bindings.mode setter) ∧
    ∀ t method group, bindingGroup method true t = .ok group t →
      (∃ member ∈ group, ∃ context, t.bindings.mode member = .instanceConverted context) →
      ∃ member ∈ group, (∃ context, t.bindings.mode member = .instanceConverted context) ∧
        addParameter method t = .error (.binding (.incompatibleFamily
          (t.program.identity method) (t.program.identity member))) t := by
  refine ⟨fun id hUndisturbed => ?_, fun getter setter hPair hGenuine hAlike => ?_,
    fun t method group => addParameter_error⟩
  · refine (run_preserved h (inStep_preserved p id) hUndisturbed.holds fun t hNew _ => ?_).2
    refine Or.inl fun d _ hMode => ?_
    cases hGet : t.bindings.get? d with
    | none => simp [BindingMap.mode, hGet] at hMode
    | some b =>
        obtain ⟨context, hContext⟩ := ContextPlan.mode_given (hNew d b hGet).1
        simp [BindingMap.mode_of_get? hGet, hContext] at hMode
  · refine (run_preserved h (accessors_preserved hPair)
      (fun id hMem => BindingMap.not_standsIn (hGenuine id hMem)) fun t hNew hBound => ?_).2
    have hGiven {id : MethodId} {b : Binding} (hGet : t.bindings.get? id = some b) :
        plan.Gives p id b.mode := by
      obtain ⟨hMem, hMethod, hUsed⟩ := hNew id b hGet
      exact ⟨hUsed, b, hMem, hMethod, rfl⟩
    have hMode {id : MethodId} {mode : BindingMode} (hGives : plan.Gives p id mode) :
        t.bindings.mode id = mode := by
      obtain ⟨hUsed, b, hMem, rfl, rfl⟩ := hGives
      exact BindingMap.mode_of_get? (hBound b hMem hUsed)
    cases hGetter : t.bindings.get? getter with
    | some b =>
        rw [BindingMap.mode_of_get? hGetter, hMode ((hAlike b.mode).mp (hGiven hGetter))]
    | none =>
        cases hSetter : t.bindings.get? setter with
        | some b =>
            rw [BindingMap.mode_of_get? hSetter, hMode ((hAlike b.mode).mpr (hGiven hSetter))]
        | none => simp [BindingMap.mode, hGetter, hSetter]

end Propagate

section Examples

open Program Propagation

/-- A type with a context and a type for each end of a family. -/
def shapes : Edit (ContextPlan × FieldId × TypeId × TypeId) := do
  let root ← addType "G" "Root" none ⟨0⟩
  let holder ← addType "G" "H" none ⟨0⟩
  let context ← addType "G" "H_Ctx" none ⟨0⟩
  let base ← addType "G" "Shape" none ⟨0⟩
  let derived ← addType "G" "Square" none ⟨0⟩
  setBase derived (.named base)
  let rootConstructor ← addMethod root ".ctor" [] .void (.ofList [.constructor])
  let constructor ← addMethod context ".ctor" [] .void (.ofList [.constructor])
  [rootConstructor, constructor].forM fun m => setBody m (.fresh [.plain .ret])
  let slot ← addField root "H_f" (.named context) ⟨0⟩
  let x ← addField holder "x" .int32 (.ofList [.static])
  let moved ← addField context "x" .int32 ⟨0⟩
  let plan : ContextPlan := ⟨root, rootConstructor,
    [{ ContextDescriptor.bare "H" holder context constructor with
      chain := [slot]
      movedFields := .ofList [(x, moved)] }]⟩
  pure (plan, x, base, derived)

/-- `Shape` has a property, and `Square` overrides it by a getter that reads a static field
that moves. -/
def overriddenProperty : Edit ContextPlan := do
  let (plan, x, base, derived) ← shapes
  let accessor : FlagSet MethodFlag := .ofList [.virtual, .specialName]
  [base, derived].forM fun owner => do
    let getter ← addMethod owner "get_Area" [] .int32 accessor
    let setter ← addMethod owner "set_Area" [⟨"value", .int32⟩] .void accessor
    setBody setter (.fresh [.plain .ret])
    addProperty owner ⟨"Area", some getter, some setter⟩
    if owner = derived then setBody getter (.fresh [.onField .ldsfld x, .plain .ret])
    else setBody getter (.fresh [.plain .ldnull, .plain .ret])
  pure plan

/-- The run gives all accessors the root, those of `Shape` with those of `Square`. -/
theorem overriddenProperty_run :
    ∃ s, propagate (built overriddenProperty).1 (built overriddenProperty).2 default = .ok () s ∧
      Undisturbed (built overriddenProperty).1
        ((OverrideGraph.build (built overriddenProperty).1).family ⟨2⟩) s ∧
      (∀ id ∈ [MethodId.mk 2, ⟨3⟩], s.bindings.isReplacement id = false) ∧
      s.bindings.mode ⟨2⟩ = .addedParameter := by
  have hCheck : Step.yields
      (propagate (built overriddenProperty).1 (built overriddenProperty).2 default)
      (fun _ s => decide (Undisturbed (built overriddenProperty).1
          ((OverrideGraph.build (built overriddenProperty).1).family ⟨2⟩) s ∧
        (∀ id ∈ [MethodId.mk 2, ⟨3⟩], s.bindings.isReplacement id = false) ∧
        s.bindings.mode ⟨2⟩ = .addedParameter)) = true := by decide +kernel
  obtain ⟨_, s, hRun, hCheck⟩ := Step.ok_of_yields hCheck
  exact ⟨s, hRun, of_decide_eq_true hCheck⟩

theorem overriddenProperty_inStep :
    ∃ s, propagate (built overriddenProperty).1 (built overriddenProperty).2 default = .ok () s ∧
      s.bindings.InStep ((OverrideGraph.build (built overriddenProperty).1).family ⟨2⟩) ∧
      s.bindings.mode ⟨2⟩ = s.bindings.mode ⟨3⟩ ∧ s.bindings.mode ⟨2⟩ = .addedParameter := by
  obtain ⟨s, hRun, hUndisturbed, hGenuine, hMode⟩ := overriddenProperty_run
  obtain ⟨hFamily, hAccessors, -⟩ := Propagate.bound_inStep hRun
  have hGiven : (built overriddenProperty).2.given = [] := by decide +kernel
  have hPair : (built overriddenProperty).1.AccessorPair ⟨2⟩ ⟨3⟩ := by decide +kernel
  refine ⟨s, hRun, hFamily ⟨2⟩ hUndisturbed, hAccessors ⟨2⟩ ⟨3⟩ hPair hGenuine fun mode => ?_, hMode⟩
  simp [ContextPlan.Gives, hGiven]

/-- `FileSink` derives from `Sink` and overrides its method by one that reads a static field
that moves. The method of `Sink` gives way to one of a logger that is there already. -/
def replacedSink : Edit ContextPlan := do
  let root ← addType "G" "Root" none ⟨0⟩
  let holder ← addType "G" "H" none ⟨0⟩
  let context ← addType "G" "H_Ctx" none ⟨0⟩
  let log ← addType "G" "Log" none ⟨0⟩
  let logger ← addType "G" "Logger" none ⟨0⟩
  let sink ← addType "G" "Sink" none ⟨0⟩
  let fileSink ← addType "G" "FileSink" none ⟨0⟩
  setBase fileSink (.named sink)
  let rootConstructor ← addMethod root ".ctor" [] .void (.ofList [.constructor])
  let constructor ← addMethod context ".ctor" [] .void (.ofList [.constructor])
  let newLogger ← addMethod logger ".ctor" [] .void (.ofList [.constructor])
  let slot ← addField root "H_f" (.named context) ⟨0⟩
  let logSlot ← addField root "Log_f" (.named logger) ⟨0⟩
  let x ← addField holder "x" .int32 (.ofList [.static])
  let moved ← addField context "x" .int32 ⟨0⟩
  let shared ← addField logger "instance" (.named logger) (.ofList [.static])
  let write ← addMethod sink "Write" [] .void (.ofList [.virtual])
  let writeFile ← addMethod fileSink "Write" [] .void (.ofList [.virtual])
  let writeLog ← addMethod logger "Write" [] .void ⟨0⟩
  [rootConstructor, constructor, newLogger, write, writeLog].forM fun m =>
    setBody m (.fresh [.plain .ret])
  setBody writeFile (.fresh [.onField .ldsfld x, .plain .pop, .plain .ret])
  pure ⟨root, rootConstructor,
    [{ ContextDescriptor.bare "H" holder context constructor with
        chain := [slot]
        movedFields := .ofList [(x, moved)] },
      { ContextDescriptor.bare "Log" log logger newLogger with
        chain := [logSlot]
        singleton := some shared
        replacementMethods := .ofList [(write, writeLog)] }]⟩

/-- The method of `Sink` went out of use before `FileSink` was looked at, so that nothing
tells that the two belong together. -/
theorem replacedSink_outOfStep :
    ∃ s, propagate (built replacedSink).1 (built replacedSink).2 default = .ok () s ∧
      ¬ ∀ id, s.bindings.InStep ((OverrideGraph.build (built replacedSink).1).family id) := by
  have hCheck : Step.yields (propagate (built replacedSink).1 (built replacedSink).2 default)
      (fun _ s => !decide (s.bindings.InStep
        ((OverrideGraph.build (built replacedSink).1).family ⟨3⟩))) = true := by decide +kernel
  obtain ⟨_, s, hRun, hCheck⟩ := Step.ok_of_yields hCheck
  refine ⟨s, hRun, fun hInStep => ?_⟩
  simp [hInStep ⟨3⟩] at hCheck

end Examples

end ContextBinding
