import ContextBinding.Proofs.Replica

/-! Virtual dispatch after a run. What stands in for a method overrides what stands in for
each method that the original overrode, where both are replicas that go by one name and no
other virtual method comes in between. -/

namespace ContextBinding

open Relation

namespace Propagation

/-- Methods in use that were given the root have what stands in for them on the same type. It
is a replica unless it was there before or is shared. -/
def Replicated (p : Program) (s : Propagation) : Prop :=
  ∀ method m b, p.method? method = some m → m.isRetired = false →
    s.bindings.get? method = some b → b.mode = .addedParameter →
    (∃ n n', s.program.method? method = some n ∧ s.program.method? b.replacement = some n' ∧
      n'.owner = n.owner) ∧
    (p.methods.length ≤ b.replacement.index → s.bindings.Sole method b → Replica p s method b)

variable {p : Program} {s t : Propagation}

/-- What was replicated stays so. -/
theorem Replicated.later (h : Replicated p s) (hLater : s.Progresses t) {method : MethodId}
    {m : MethodDef} {b : Binding} (hMethod : p.method? method = some m)
    (hUsed : m.isRetired = false) (hGet : s.bindings.get? method = some b)
    (hMode : b.mode = .addedParameter) :
    (∃ n n', t.program.method? method = some n ∧ t.program.method? b.replacement = some n' ∧
      n'.owner = n.owner) ∧
    (p.methods.length ≤ b.replacement.index → t.bindings.Sole method b → Replica p t method b) := by
  obtain ⟨⟨n, n', hThere, hStands, hOwner⟩, hReplica⟩ := h method m b hMethod hUsed hGet hMode
  refine ⟨?_, fun hNew hSole => ?_⟩
  · obtain ⟨n₁, hThere₁, hn⟩ := hLater.grows.method hThere
    obtain ⟨n₁', hStands₁, hn'⟩ := hLater.grows.method hStands
    exact ⟨n₁, n₁', hThere₁, hStands₁, hn'.owner.trans (hOwner.trans hn.owner.symm)⟩
  · exact (hReplica hNew (hSole.earlier hLater.bindings)).later hLater hGet hSole

/-- Every transition replicates the methods that it gives the root. -/
theorem replicated_preserved (hRegistered : p.Registered) :
    Preserved p always (Replicated p) where
  idle s t hSame hLater _ _ h method m b hMethod hUsed hGet hMode := by
    have hGet : s.bindings.get? method = some b := (congrArg (·.get? method) hSame).symm.trans hGet
    exact h.later hLater hMethod hUsed hGet hMode
  step s t hTransition hLater hUnderway _ h method m b hMethod hUsed hGet hMode := by
    cases hBound : s.bindings.get? method with
    | some c =>
        obtain rfl : b = c := Option.some_inj.mp (hGet.symm.trans (hLater.bindings _ _ hBound))
        exact h.later hLater hMethod hUsed hBound hMode
    | none =>
        cases hTransition with
        | converted first context group hGroup hConverts =>
            rcases hConverts.binds.gains.new method b hGet with hOld | ⟨-, hMoved⟩
            · simp [hBound] at hOld
            · simp [hMode] at hMoved
        | added first group hGroup hFree hAdds =>
            exact hAdds.replica hRegistered hUnderway hGroup hMethod hUsed hBound hGet

/-- Nothing comes in between what stands in for a method and what stands in for one that it
overrides: both came with the run, each for its method alone, and go by one name; the method
does not stand in for another one itself; and what could be taken for what the copy overrides
was given the root in place of what could be taken for what the method overrides. -/
structure Untangled (p : Program) (s : Propagation) (base derived : MethodId) (b d : Binding) :
    Prop where
  fresh : p.methods.length ≤ b.replacement.index ∧ p.methods.length ≤ d.replacement.index
  sole : s.bindings.Sole base b ∧ s.bindings.Sole derived d
  named : (s.program.method? d.replacement).map (·.name)
    = (s.program.method? b.replacement).map (·.name)
  genuine : s.bindings.isReplacement derived = false
  clear : ∀ m ∈ p.method? derived, ∀ m' ∈ s.program.method? d.replacement,
    ∀ other ∈ s.program.methodIds, s.program.Matches d.replacement m' other = true →
      ∃ original ∈ p.methodIds, p.Matches derived m original = true ∧
        ∃ c ∈ s.bindings.get? original, c.mode = .addedParameter ∧ c.replacement = other

instance (p : Program) (s : Propagation) (base derived : MethodId) (b d : Binding) :
    Decidable (Untangled p s base derived b d) :=
  decidable_of_iff ((p.methods.length ≤ b.replacement.index ∧
      p.methods.length ≤ d.replacement.index) ∧
    (s.bindings.Sole base b ∧ s.bindings.Sole derived d) ∧
    (s.program.method? d.replacement).map (·.name)
      = (s.program.method? b.replacement).map (·.name) ∧
    s.bindings.isReplacement derived = false ∧
    ∀ m ∈ p.method? derived, ∀ m' ∈ s.program.method? d.replacement,
      ∀ other ∈ s.program.methodIds, s.program.Matches d.replacement m' other = true →
        ∃ original ∈ p.methodIds, p.Matches derived m original = true ∧
          ∃ c ∈ s.bindings.get? original, c.mode = .addedParameter ∧ c.replacement = other)
    ⟨fun h => ⟨h.1, h.2.1, h.2.2.1, h.2.2.2.1, h.2.2.2.2⟩,
      fun h => ⟨h.fresh, h.sole, h.named, h.genuine, h.clear⟩⟩

/-- What could be taken on a type for what a copy overrides was made there of what could be
taken for what the original overrides. -/
theorem Untangled.original {base derived other : MethodId} {b d : Binding} {type : TypeId}
    {m m' : MethodDef} (h : Untangled p s base derived b d) (hRegistered : p.Registered)
    (hUnderway : Underway p s) (hReplicated : Replicated p s) (hMethod : p.method? derived = some m)
    (hCopy : s.program.method? d.replacement = some m') (hListed : s.program.Lists type other)
    (hMatch : s.program.Matches d.replacement m' other = true) :
    ∃ original c, p.Matches derived m original = true ∧ p.Lists type original ∧
      s.bindings.get? original = some c ∧ c.replacement = other := by
  obtain ⟨x, hOther, hOwner⟩ := hUnderway.grows.owned hRegistered.owned type other hListed
  obtain ⟨original, -, hBefore, c, hGet, hMode, rfl⟩ :=
    h.clear m hMethod m' hCopy other (Program.mem_methodIds hOther) hMatch
  obtain ⟨hAny, -⟩ := Bool.and_eq_true_iff.mp hBefore
  obtain ⟨y, hOriginal, hAll⟩ := (Option.any_eq_true ..).mp hAny
  simp only [Bool.and_eq_true, Bool.not_eq_true'] at hAll
  obtain ⟨⟨n, n', hThere, hStands, hSameOwner⟩, -⟩ :=
    hReplicated original y c hOriginal hAll.1.1 hGet hMode
  obtain rfl : x = n' := Option.some_inj.mp (hOther.symm.trans hStands)
  have hTypes : y.owner = type :=
    (hUnderway.grows.method_persists hOriginal hThere).owner.symm.trans (hSameOwner.symm.trans hOwner)
  exact ⟨original, c, hBefore, hTypes ▸ hRegistered.lists hOriginal hAll.1.1, hGet, rfl⟩

end Propagation

namespace Program

variable {p : Program} {type : TypeId} {id base : MethodId} {m : MethodDef}

/-- The match on a type is the first method that matches of those that it lists. -/
theorem lists_of_matching? (h : p.matching? type id m = some base) :
    p.Lists type base ∧ p.Matches id m base = true := by
  rw [matching?_eq] at h
  cases hType : p.type? type with
  | none => simp [hType] at h
  | some t =>
      rw [hType, Option.map_some, Option.bind_some] at h
      exact ⟨⟨t, hType, List.mem_of_find?_eq_some h⟩, List.find?_some h⟩

theorem exists_matching? (hListed : p.Lists type base) (hMatch : p.Matches id m base = true) :
    ∃ found, p.matching? type id m = some found := by
  obtain ⟨t, hType, hMem⟩ := hListed
  rw [matching?_eq, hType, Option.map_some, Option.bind_some]
  exact Option.isSome_iff_exists.mp (List.find?_isSome.mpr ⟨base, hMem, hMatch⟩)

/-- Two methods of one type that are a match for a third one are the same. -/
theorem Registered.matches_unique (h : p.Registered) {other : MethodId}
    (hListed : p.Lists type base) (hListed' : p.Lists type other)
    (hMatch : p.Matches id m base = true) (hMatch' : p.Matches id m other = true) :
    other = base := by
  obtain ⟨b, hBase, rfl⟩ := h.owned type base hListed
  obtain ⟨t, hType, hMem⟩ := hListed'
  obtain ⟨hAny, -⟩ := Bool.and_eq_true_iff.mp hMatch
  obtain ⟨hAny', -⟩ := Bool.and_eq_true_iff.mp hMatch'
  obtain ⟨b₀, hBase₀, hAll⟩ := (Option.any_eq_true ..).mp hAny
  obtain rfl : b = b₀ := Option.some_inj.mp (hBase.symm.trans hBase₀)
  obtain ⟨o, hOther, hAll'⟩ := (Option.any_eq_true ..).mp hAny'
  simp only [Bool.and_eq_true, Bool.not_eq_true'] at hAll hAll'
  have hNone := h.distinct base (mem_methodIds hBase) b hBase hAll.1.1 hAll.1.2 t hType other hMem
  by_contra hDiffer
  have hSame : o.sameSignature b = true := by
    have hFirst := hAll.2
    have hSecond := hAll'.2
    unfold MethodDef.sameSignature at hFirst hSecond ⊢
    simp only [Bool.and_eq_true, beq_iff_eq] at hFirst hSecond ⊢
    simp [hFirst, hSecond]
  simp [Matches, hOther, hAll'.1.1, hAll'.1.2, hSame, hDiffer] at hNone

end Program

namespace Propagate

open Propagation

variable {p : Program} {s : Propagation}

/-- Virtual dispatch survives a run. Where a method overrides another one and both are given
the root, what stands in for it overrides what stands in for the other one, unless the two
are tangled. A virtual call of the one then reaches the other if that has code. -/
theorem bound_overrides {plan : ContextPlan} {options : PropagationOptions}
    (h : propagate p plan options = .ok () s) (hRegistered : p.Registered)
    {base derived : MethodId} {b d : Binding} (hBase : s.bindings.get? base = some b)
    (hDerived : s.bindings.get? derived = some d) (hBaseMode : b.mode = .addedParameter)
    (hDerivedMode : d.mode = .addedParameter)
    (hEdge : derived ∈ (OverrideGraph.build p).overriders base)
    (hUntangled : Untangled p s base derived b d) :
    d.replacement ∈ (OverrideGraph.build s.program).overriders b.replacement ∧
      (s.program.HasCode d.replacement →
        d.replacement ∈ (OverrideGraph.build s.program).implementations b.replacement) := by
  obtain ⟨hUnderway, hReplicated⟩ := run_preserved h (replicated_preserved hRegistered) trivial
    fun t hNew _ method m b _ _ hGet hMode => by
      obtain ⟨context, hMoved⟩ := ContextPlan.mode_given (hNew method b hGet).1
      simp [hMode] at hMoved
  suffices hStays : s.program.Overrides d.replacement b.replacement from
    ⟨OverrideGraph.mem_overriders_build.mpr hStays,
      fun hCode => OverrideGraph.mem_implementations_build hCode (.single hStays)⟩
  have hOverrides : p.Overrides derived base := OverrideGraph.mem_overriders_build.mp hEdge
  obtain ⟨-, x, hX, hXUsed⟩ := hOverrides.used
  obtain ⟨y, hY, hYUsed, hYVirtual, hBases⟩ := id hOverrides
  obtain ⟨x₀, x', hX₀, hXCopy, hXWidens, hXUsed', hXListed, -⟩ :=
    (hReplicated base x b hX hXUsed hBase hBaseMode).2 hUntangled.fresh.1 hUntangled.sole.1
  obtain rfl : x = x₀ := Option.some_inj.mp (hX.symm.trans hX₀)
  obtain ⟨y₀, y', hY₀, hYCopy, hYWidens, hYUsed', -, hDeclares⟩ :=
    (hReplicated derived y d hY hYUsed hDerived hDerivedMode).2 hUntangled.fresh.2
      hUntangled.sole.2
  obtain rfl : y = y₀ := Option.some_inj.mp (hY.symm.trans hY₀)
  have hNames : x'.name = y'.name := by
    have hNamed := hUntangled.named
    rw [hYCopy, hXCopy] at hNamed
    exact (Option.some_inj.mp hNamed).symm
  have hTracks : Program.Tracks p s.program derived base y d.replacement b.replacement y' := by
    refine ⟨fun type hFound => ?_, fun type t hType hMissed => ?_⟩
    · obtain ⟨hListed, hMatch⟩ := Program.lists_of_matching? hFound
      obtain ⟨hAny, hOther⟩ := Bool.and_eq_true_iff.mp hMatch
      obtain ⟨x₁, hX₁, hAll⟩ := (Option.any_eq_true ..).mp hAny
      obtain rfl : x = x₁ := Option.some_inj.mp (hX.symm.trans hX₁)
      simp only [Bool.and_eq_true, Bool.not_eq_true'] at hAll
      obtain ⟨x₁, hX₁, rfl⟩ := hRegistered.owned type base hListed
      obtain rfl : x = x₁ := Option.some_inj.mp (hX.symm.trans hX₁)
      have hDiffer : b.replacement ≠ d.replacement := fun hSame => by
        obtain rfl := hUntangled.sole.2.2 base b hBase hSame
        simp at hOther
      have hMatch' : s.program.Matches d.replacement y' b.replacement = true := by
        have hSame := hYWidens.sameSignature hXWidens hNames hAll.2
        have hVirtual := hXWidens.isVirtual.trans hAll.1.2
        simp [Program.Matches, hXCopy, hXUsed', hVirtual, hSame, hDiffer]
      obtain ⟨found, hFound'⟩ := Program.exists_matching? (hXWidens.owner ▸ hXListed) hMatch'
      obtain ⟨hListed', hMatch''⟩ := Program.lists_of_matching? hFound'
      obtain ⟨original, c, hBefore, hListedBefore, hGet, rfl⟩ :=
        hUntangled.original hRegistered hUnderway hReplicated hY hYCopy hListed' hMatch''
      obtain rfl := hRegistered.matches_unique hListed hListedBefore hMatch hBefore
      obtain rfl : b = c := Option.some_inj.mp (hBase.symm.trans hGet)
      exact hFound'
    · cases hFound' : s.program.matching? type d.replacement y' with
      | none => rfl
      | some found =>
          obtain ⟨hListed', hMatch'⟩ := Program.lists_of_matching? hFound'
          obtain ⟨original, c, hBefore, hListedBefore, -⟩ :=
            hUntangled.original hRegistered hUnderway hReplicated hY hYCopy hListed' hMatch'
          obtain ⟨found', hFound⟩ := Program.exists_matching? hListedBefore hBefore
          simp [hMissed] at hFound
  refine ⟨y', hYCopy, hYUsed', hYWidens.isVirtual.trans hYVirtual, ?_⟩
  refine hUnderway.steady.mem_basesOf hUnderway.grows hTracks hYWidens.owner
    (hYWidens.flags .newSlot rfl) (fun hDeclared => ?_) ⟨x', hXCopy, hXUsed'⟩ hBases
  obtain ⟨c, hGet, hMapped⟩ :=
    hDeclares (BindingMap.not_standsIn hUntangled.genuine) base hDeclared hOverrides
  obtain rfl : b = c := Option.some_inj.mp (hBase.symm.trans hGet)
  exact hMapped hUntangled.sole.1.1

end Propagate

section Examples

open Program Propagation

/-- `Square` overrides the method of `Shape` by one that reads a static field that moves. It may
have an overload that takes the root already. -/
def areas (overloaded : Bool) : Edit ContextPlan := do
  let (plan, x, base, derived) ← shapes
  [base, derived].forM fun owner => do
    let area ← addMethod owner "Area" [] .int32 (.ofList [.virtual])
    if owner = derived then setBody area (.fresh [.onField .ldsfld x, .plain .ret])
    else setBody area (.fresh [.plain .ldnull, .plain .ret])
  if overloaded then
    let area ← addMethod derived "Area" [⟨"r", .named plan.root⟩] .int32 ⟨0⟩
    setBody area (.fresh [.plain .ldnull, .plain .ret])
  pure plan

/-- What stands in for the method of `Shape` and of `Square` after a run. -/
def Areas (p : Program) (s : Propagation) (b d : Binding) : Prop :=
  s.bindings.get? ⟨2⟩ = some b ∧ s.bindings.get? ⟨3⟩ = some d ∧ b.mode = .addedParameter ∧
    d.mode = .addedParameter ∧ ⟨3⟩ ∈ (OverrideGraph.build p).overriders ⟨2⟩

instance (p : Program) (s : Propagation) (b d : Binding) : Decidable (Areas p s b d) :=
  inferInstanceAs (Decidable (s.bindings.get? ⟨2⟩ = some b ∧ s.bindings.get? ⟨3⟩ = some d ∧
    b.mode = .addedParameter ∧ d.mode = .addedParameter ∧
    ⟨3⟩ ∈ (OverrideGraph.build p).overriders ⟨2⟩))

theorem areas_run :
    ∃ s, propagate (built (areas false)).1 (built (areas false)).2 default = .ok () s ∧
      Areas (built (areas false)).1 s ⟨⟨2⟩, ⟨4⟩, .addedParameter⟩ ⟨⟨3⟩, ⟨5⟩, .addedParameter⟩ ∧
      Untangled (built (areas false)).1 s ⟨2⟩ ⟨3⟩ ⟨⟨2⟩, ⟨4⟩, .addedParameter⟩
        ⟨⟨3⟩, ⟨5⟩, .addedParameter⟩ := by
  have hCheck : Step.yields (propagate (built (areas false)).1 (built (areas false)).2 default)
      (fun _ s => decide (
        Areas (built (areas false)).1 s ⟨⟨2⟩, ⟨4⟩, .addedParameter⟩ ⟨⟨3⟩, ⟨5⟩, .addedParameter⟩ ∧
        Untangled (built (areas false)).1 s ⟨2⟩ ⟨3⟩ ⟨⟨2⟩, ⟨4⟩, .addedParameter⟩
          ⟨⟨3⟩, ⟨5⟩, .addedParameter⟩)) = true := by decide +kernel
  obtain ⟨_, s, hRun, hCheck⟩ := Step.ok_of_yields hCheck
  exact ⟨s, hRun, of_decide_eq_true hCheck⟩

theorem areas_registered : (built (areas false)).1.Registered :=
  ⟨by decide +kernel, by decide +kernel, by decide +kernel⟩

theorem areas_override :
    ∃ s, propagate (built (areas false)).1 (built (areas false)).2 default = .ok () s ∧
      MethodId.mk 5 ∈ (OverrideGraph.build s.program).overriders ⟨4⟩ := by
  obtain ⟨s, hRun, ⟨hBase, hDerived, hBaseMode, hDerivedMode, hEdge⟩, hUntangled⟩ := areas_run
  refine ⟨s, hRun, ?_⟩
  exact (Propagate.bound_overrides hRun areas_registered hBase hDerived hBaseMode hDerivedMode hEdge
    hUntangled).1

/-- The copy of the method of `Square` gives way to the overload, and goes by another name than
the one of the method of `Shape`. -/
theorem overloadedAreas_split :
    ∃ s, propagate (built (areas true)).1 (built (areas true)).2 default = .ok () s ∧
      ¬ ∀ base derived b d, s.bindings.get? base = some b → s.bindings.get? derived = some d →
        b.mode = .addedParameter → d.mode = .addedParameter →
        derived ∈ (OverrideGraph.build (built (areas true)).1).overriders base →
        d.replacement ∈ (OverrideGraph.build s.program).overriders b.replacement := by
  have hCheck : Step.yields (propagate (built (areas true)).1 (built (areas true)).2 default)
      (fun _ s => decide (
        Areas (built (areas true)).1 s ⟨⟨2⟩, ⟨5⟩, .addedParameter⟩ ⟨⟨3⟩, ⟨6⟩, .addedParameter⟩ ∧
        ¬ MethodId.mk 6 ∈ (OverrideGraph.build s.program).overriders ⟨5⟩)) = true := by
    decide +kernel
  obtain ⟨_, s, hRun, hCheck⟩ := Step.ok_of_yields hCheck
  obtain ⟨⟨hBase, hDerived, hBaseMode, hDerivedMode, hEdge⟩, hLost⟩ := of_decide_eq_true hCheck
  exact ⟨s, hRun, fun hAll => hLost (hAll _ _ _ _ hBase hDerived hBaseMode hDerivedMode hEdge)⟩

end Examples

end ContextBinding
