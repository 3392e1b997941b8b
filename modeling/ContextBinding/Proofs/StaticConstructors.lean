import ContextBinding.Proofs.Conclusion
import ContextBinding.Proofs.Replica

/-! Static constructors in a run. No batch begins with one, whatever its code accesses. But callers
of bound methods come to be visited, and those that construct a display class that is given its field
for the root, and nothing sets static constructors apart there. A static constructor is bound for
what it calls or constructs, or together with another method, or where a context says so. -/

namespace ContextBinding

open Relation

namespace Propagation

/-- By what a graph tells of it, a method calls or constructs what the callers of are visited for. -/
def Drawn (g : ReferenceGraph) (s : Propagation) (id : MethodId) : Prop :=
  ∃ target, id ∈ g.callerMethods target ∧ s.Needed target

/-- Another method is visited in a run, and this one changes together with it. -/
def Joins (p : Program) (plan : ContextPlan) (options : PropagationOptions) (id : MethodId) : Prop :=
  ∃ method rest s withOverrides group, Reached p plan options (some (method :: rest), s) ∧
    method ≠ id ∧ Propagate.bindingGroup method withOverrides s.visited = .ok group s.visited ∧
      id ∈ group

/-- At a point of a run, a method is not bound and not about to be visited, and calls no more than a
graph tells of it. -/
structure Unsought (g : ReferenceGraph) (c : Point) (id : MethodId) : Prop where
  free : c.2.bindings.get? id = none
  calls : ∀ target, id ∈ c.2.graph.callerMethods target → id ∈ g.callerMethods target
  behind : id ∉ c.1.getD []
  idle : id ∉ c.2.pending

/-- The reasons for which a run may come to bind a method, though no batch begins with it. -/
inductive Sought (p : Program) (plan : ContextPlan) (options : PropagationOptions)
    (g : ReferenceGraph) (s : Propagation) (id : MethodId) : Prop where
  /-- A context brings along what stands in for it. -/
  | given (b : Binding) (hGiven : b ∈ plan.given) (hMethod : b.method = id)
  /-- It changes together with a method that is visited. -/
  | joined (hJoins : Joins p plan options id)
  /-- It stands in for a method itself. -/
  | standing (hStands : s.bindings.StandsIn id)
  /-- It calls a bound method, or constructs a display class that was given its field. -/
  | drawn (hDrawn : Drawn g s id)

variable {plan : ContextPlan} {options : PropagationOptions} {g : ReferenceGraph} {copying : Prop} {ahead : List MethodId} {c d : Point}
  {p : Program} {id method : MethodId} {s t : Propagation}

theorem Drawn.later (h : Drawn g s id) (hLater : s.Advances t)
    (hRoots : ∀ type, s.closures.displayRoot? type ≠ none → t.closures.displayRoot? type ≠ none) :
    Drawn g t id := by
  obtain ⟨target, hCaller, hNeeded⟩ := h
  exact ⟨target, hCaller, hNeeded.later hLater.grows hLater.bindings hRoots⟩

theorem Sought.later (h : Sought p plan options g s id) (hLater : s.Advances t)
    (hRoots : ∀ type, s.closures.displayRoot? type ≠ none → t.closures.displayRoot? type ≠ none) :
    Sought p plan options g t id := by
  cases h with
  | given b hGiven hMethod => exact .given b hGiven hMethod
  | joined hJoins => exact .joined hJoins
  | standing hStands => exact .standing (hLater.license_le.standing id hStands)
  | drawn hDrawn => exact .drawn (hDrawn.later hLater hRoots)

/-- A step leaves a method unsought that was so before, unless the run is drawn to it or it comes to
have a part in a binding. -/
theorem Settles.unsought (h : s.Settles copying ahead t) (hOwned : s.program.Owned)
    (hOld : id.index < s.program.methods.length) (hOther : ¬ s.Constructs id)
    (hBefore : Unsought g (some ahead, s) id) (hFree : ¬ t.Taken id) (hUndrawn : ¬ Drawn g t id) :
    Unsought g (some ahead, t) id := by
  have hUnexpected : ¬ Expected ahead s t id := fun hExpected =>
    hExpected.elim hBefore.behind fun hEither => hEither.elim hOther hFree
  refine ⟨?_, fun target hCaller => ?_, hBefore.behind, fun hMem => ?_⟩
  · exact Option.eq_none_iff_forall_ne_some.mpr fun b hGet => hFree (Or.inl ⟨b, hGet⟩)
  · exact hBefore.calls target ((h.callers id target hCaller).resolve_right hUnexpected)
  · rcases h.enqueued id hMem with hPending | hExpected | ⟨-, hNew, -⟩ | ⟨target, hCaller, hNeeded⟩
    · exact hBefore.idle hPending
    · exact hUnexpected hExpected
    · exact absurd hOld (Nat.not_lt.mpr hNew)
    · exact hUndrawn ⟨target, hBefore.calls target hCaller, hNeeded hOwned⟩

end Propagation

namespace Propagate

open Propagation

variable {g : ReferenceGraph} {c d : Point} {p : Program} {plan : ContextPlan}
  {options : PropagationOptions} {id : MethodId} {m : MethodDef} {s t : Propagation}

/-- No batch begins with a static constructor. -/
theorem not_mem_seeded (hMethod : s.program.method? id = some m) (hStatic : m.isStaticConstructor = true)
    (hPending : id ∉ s.pending) : id ∉ s.seeded.pending := by
  rw [mem_seeded]
  rintro (hMem | ⟨m', b, hMethod', -, -, hSeed⟩)
  · exact hPending hMem
  · obtain rfl := Option.some_inj.mp (hMethod.symm.trans hMethod')
    simp [isSeed, hStatic] at hSeed

/-- A step of a run leads on, and display classes keep their fields for the root. -/
theorem moves_advance (hMoves : Moves c d) (hRegular : c.2.Regular (c.1.getD [])) :
    c.2.Advances d.2 ∧
      ∀ type, c.2.closures.displayRoot? type ≠ none → d.2.closures.displayRoot? type ≠ none := by
  cases hMoves with
  | given hRun =>
      have hSettles := bindReplacements_settles hRun hRegular
      exact ⟨{ hSettles.toAdvances with }, hSettles.roots⟩
  | opened hSome => exact ⟨{ Advances.refl hRegular.keyed with }, fun _ => id⟩
  | visited hRun =>
      have hSettles := (visit_turns hRun hRegular (List.mem_cons_self ..)).settles
      exact ⟨hSettles.toAdvances, hSettles.roots⟩

/-- A visit binds nothing but what changes together with the method. -/
theorem visit_binds {method : MethodId} {u : Unit} (h : visit method s = .ok u t) {b : Binding}
    (hBound : t.bindings.get? id = some b) (hFree : s.bindings.get? id = none) :
    ∃ withOverrides group, bindingGroup method withOverrides s.visited = .ok group s.visited ∧
      id ∈ group := by
  have hIdle (hSame : t.bindings = s.visited.bindings) : False := by
    rw [hSame] at hBound
    cases hFree.symm.trans hBound
  cases visit_ok h with
  | skipped hDone hEnd => exact (hIdle (hEnd ▸ rfl)).elim
  | settled b hLive hNone hEnd => exact (hIdle (hEnd ▸ rfl)).elim
  | adapted b hLive hFree hSome handle hHandle hAdapt => exact (hIdle (same_adaptInPlace hAdapt)).elim
  | captured b hLive hFree hSome handle u hNone hDisplay hAdapt =>
      exact (hIdle ((same_adaptInPlace hAdapt).trans (same_displayHandle? hDisplay))).elim
  | bound b hLive hFree' hSome hNone hBind =>
      obtain ⟨withOverrides, group, mode, hGroup, hBinds⟩ := bindNeedy_binds hBind
      refine ⟨withOverrides, group, hGroup, ?_⟩
      rcases hBinds.gains.new id _ hBound with hBefore | ⟨hMem, -⟩
      · cases hFree.symm.trans hBefore
      · exact hMem

/-- At each point of a run, a static constructor that was there before is unsought, or there is a
reason to bind it. -/
theorem reached_unsought (hBuild : graph GraphEdit.build (.start p plan options) = .ok () s)
    (hReaches : ReflTransGen Moves (none, s) c) (hOwned : p.Owned) (hMethod : p.method? id = some m)
    (hStatic : m.isStaticConstructor = true) (hOther : ∀ d ∈ plan.contexts, d.constructor ≠ id) :
    s.Advances c.2 ∧ (Unsought s.graph c id ∨ Sought p plan options s.graph c.2 id) := by
  have hRegular := build_regular hBuild
  obtain ⟨rfl, rfl, hEmpty, hNone⟩ : s.plan = plan ∧ s.program = p ∧ s.bindings = .empty ∧
      s.pending = [] := by
    obtain ⟨v, -, rfl⟩ := graph_ok.mp hBuild
    exact ⟨rfl, rfl, rfl, rfl⟩
  induction hReaches with
  | refl =>
      refine ⟨.refl hRegular.keyed, Or.inl ⟨?_, fun _ h => h, List.not_mem_nil, ?_⟩⟩
      · rw [hEmpty]
        rfl
      · rw [hNone]
        exact List.not_mem_nil
  | @tail c d hReaches hMoves ih =>
      obtain ⟨hAdvances, hUnsought | hSought⟩ := ih
      · have hHere : c.2.Regular (c.1.getD []) := reached_regular ⟨s, hBuild, hReaches⟩
        refine ⟨hAdvances.trans (moves_advance hMoves hHere).1, ?_⟩
        have hOwned := hAdvances.grows.owned hOwned
        obtain ⟨m', hMethod', hSame⟩ := hAdvances.grows.method hMethod
        have hStatic' := hSame.isStaticConstructor.trans hStatic
        have hOld : id.index < c.2.program.methods.length :=
          (List.getElem?_eq_some_iff.mp hMethod').1
        have hOther' : ¬ c.2.Constructs id := fun hConstructs => by
          obtain ⟨e, hContext, hId⟩ := hConstructs.earlier hAdvances.plan
          exact hOther e hContext hId
        refine or_iff_not_imp_right.mpr fun hUnfounded => ?_
        cases hMoves with
        | @given s' t' hRun =>
            have hSettles := bindReplacements_settles hRun hHere
            have hFree : ¬ t'.Taken id := by
              rintro (⟨b, hGet⟩ | hStands)
              · rcases (bindReplacements_binds hRun).2.1 id b hGet with hBefore | ⟨hGiven, hId, -⟩
                · cases hUnsought.free.symm.trans hBefore
                · refine hUnfounded (.given b ?_ hId)
                  rwa [← ContextPlan.given_shape, hAdvances.plan, ContextPlan.given_shape] at hGiven
              · exact hUnfounded (.standing hStands)
            have hLater := hSettles.unsought hOwned hOld hOther' { hUnsought with } hFree
              fun hDrawn => hUnfounded (.drawn hDrawn)
            obtain ⟨m'', hMethod'', hSame'⟩ := hSettles.grows.method hMethod'
            exact { hLater with
              idle := not_mem_seeded hMethod'' (hSame'.isStaticConstructor.trans hStatic') hLater.idle }
        | opened hSome =>
            exact ⟨hUnsought.free, hUnsought.calls, hUnsought.idle, List.not_mem_nil⟩
        | @visited method rest s' t' hRun =>
            have hSettles := (visit_turns hRun hHere (List.mem_cons_self ..)).settles
            have hFree : ¬ t'.Taken id := by
              rintro (⟨b, hGet⟩ | hStands)
              · obtain ⟨withOverrides, group, hGroup, hMem⟩ := visit_binds hRun hGet hUnsought.free
                refine hUnfounded (.joined ⟨method, rest, s', withOverrides, group,
                  ⟨s, hBuild, hReaches⟩, ?_, hGroup, hMem⟩)
                rintro rfl
                exact hUnsought.behind (List.mem_cons_self ..)
              · exact hUnfounded (.standing hStands)
            have hLater := hSettles.unsought hOwned hOld hOther' hUnsought hFree
              fun hDrawn => hUnfounded (.drawn hDrawn)
            exact { hLater with
              behind := fun hMem => hLater.behind (List.mem_cons_of_mem _ hMem) }
      · have hHere : c.2.Regular (c.1.getD []) := reached_regular ⟨s, hBuild, hReaches⟩
        obtain ⟨hStep, hRoots⟩ := moves_advance hMoves hHere
        exact ⟨hAdvances.trans hStep, Or.inr (hSought.later hStep hRoots)⟩

/-- A run neither binds a static constructor nor marks it, unless there is one of the reasons for it
that the end of the run and the graph from its start tell of. What it accesses is none. -/
theorem staticConstructor_spared (h : propagate p plan options = .ok () t) (hOwned : p.Owned)
    (hMethod : p.method? id = some m) (hStatic : m.isStaticConstructor = true)
    (hOther : ∀ c ∈ plan.contexts, c.constructor ≠ id) :
    ∃ s, graph GraphEdit.build (.start p plan options) = .ok () s ∧
      ((t.bindings.get? id = none ∧ ∃ m', t.program.method? id = some m' ∧ m'.flags = m.flags) ∨
        Sought p plan options s.graph t id) := by
  obtain ⟨hUnderway, -⟩ := run_preserved (C := always) (I := fun _ => True) h
    ⟨fun _ _ _ _ _ _ _ => trivial, fun _ _ _ _ _ _ _ => trivial⟩ trivial fun _ _ _ => trivial
  obtain ⟨s₁, s₂, s₃, s₄, hBuild, hGiven, hBatches, hRetire, rfl⟩ := run_iff.mp h
  refine ⟨s₁, hBuild, or_iff_not_imp_right.mpr fun hUnfounded => ?_⟩
  have hReaches : ReflTransGen Moves (none, s₁) (some [], s₃) :=
    .head (.given hGiven) (Concludes.reaches (u := ()) (visitAll_concludes hBatches).1)
  have hCode : CodeOnly s₃ s₄ := codeOnly_retireMovedFields hRetire
  have hRetired : s₃.Settles False [] s₄ := by
    refine hCode.settled ?_ (reached_regular ⟨s₁, hBuild, hReaches⟩)
    exact (keeps_retireMovedFields (S := fun _ => False) hRetire).advanced
  obtain ⟨-, hUnsought | hSought⟩ :=
    reached_unsought hBuild hReaches hOwned hMethod hStatic hOther
  · have hFree : s₄.closed.bindings.get? id = none :=
      (congrArg (·.get? id) hCode.bindings).trans hUnsought.free
    obtain ⟨m', hMethod', hStep⟩ := hUnderway.steady.methods id m hMethod
    refine ⟨hFree, m', hMethod', hStep.flags.resolve_left ?_⟩
    rintro (hStands | ⟨-, b, hGet⟩)
    · exact hUnfounded (.standing hStands)
    · cases hFree.symm.trans hGet
  · exact (hUnfounded (hSought.later { hRetired.toAdvances with } hRetired.roots)).elim

end Propagate

section Examples

open Program Propagation

/-- A method reads a static field that moves, and the static constructor of its type calls it. -/
def callingInitializer : Edit ContextPlan := do
  let (plan, x, owner, _) ← shapes
  let reads ← addMethod owner "f" [] .void (.ofList [.static])
  setBody reads (.fresh [.onField .ldsfld x, .plain .pop, .plain .ret])
  let initializer ← addMethod owner ".cctor" [] .void (.ofList [.static, .staticConstructor])
  setBody initializer (.fresh [.onMethod .call reads, .plain .ret])
  pure plan

theorem callingInitializer_run :
    ∃ t m, propagate (built callingInitializer).1 (built callingInitializer).2 default = .ok () t ∧
      (built callingInitializer).1.method? ⟨3⟩ = some m ∧ m.isStaticConstructor = true ∧
      t.bindings.get? ⟨3⟩ ≠ none := by
  have hCheck : Step.yields
      (propagate (built callingInitializer).1 (built callingInitializer).2 default)
      (fun _ t => decide (((built callingInitializer).1.method? ⟨3⟩).any
        (fun m => m.isStaticConstructor) = true ∧ t.bindings.get? ⟨3⟩ ≠ none)) = true := by
    decide +kernel
  obtain ⟨_, t, hRun, hCheck⟩ := Step.ok_of_yields hCheck
  obtain ⟨hThere, hBound⟩ := of_decide_eq_true hCheck
  obtain ⟨m, hMethod, hStatic⟩ := (Option.any_eq_true ..).mp hThere
  exact ⟨t, m, hRun, hMethod, hStatic, hBound⟩

/-- The static constructor is bound, though it accesses nothing that moves itself. -/
theorem callingInitializer_bound :
    ∃ t, propagate (built callingInitializer).1 (built callingInitializer).2 default = .ok () t ∧
      ¬ ∀ id m, (built callingInitializer).1.method? id = some m → m.isStaticConstructor = true →
        t.bindings.get? id = none := by
  obtain ⟨t, m, hRun, hMethod, hStatic, hBound⟩ := callingInitializer_run
  exact ⟨t, hRun, fun hAll => hBound (hAll ⟨3⟩ m hMethod hStatic)⟩

/-- There is a reason for it: it calls a method that is bound. -/
theorem callingInitializer_sought :
    ∃ s t, Propagate.graph GraphEdit.build
        (.start (built callingInitializer).1 (built callingInitializer).2 default) = .ok () s ∧
      propagate (built callingInitializer).1 (built callingInitializer).2 default = .ok () t ∧
      t.bindings.get? ⟨3⟩ ≠ none ∧
      Sought (built callingInitializer).1 (built callingInitializer).2 default s.graph t ⟨3⟩ := by
  obtain ⟨t, m, hRun, hMethod, hStatic, hBound⟩ := callingInitializer_run
  have hOwned : (built callingInitializer).1.Owned := by decide +kernel
  have hOther : ∀ c ∈ (built callingInitializer).2.contexts, c.constructor ≠ ⟨3⟩ := by
    decide +kernel
  obtain ⟨s, hBuild, ⟨hFree, -⟩ | hSought⟩ :=
    Propagate.staticConstructor_spared hRun hOwned hMethod hStatic hOther
  · exact (hBound hFree).elim
  · exact ⟨s, t, hBuild, hRun, hBound, hSought⟩

end Examples

end ContextBinding
