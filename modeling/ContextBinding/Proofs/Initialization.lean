import ContextBinding.Proofs.Adoption

/-! Which init units the constructor of a context calls at the end of a run, and in which order. Units
are called in the order in which they came to be bound; where in the list of the context they stand
plays no part. Units that do not move, and those that a context brings something along for, are
forgotten. -/

namespace ContextBinding

open Relation

namespace Propagation

/-- Wherever in a run the second of two methods is bound, the first one is. -/
def BoundInOrder (p : Program) (plan : ContextPlan) (options : PropagationOptions)
    (b b' : Binding) : Prop :=
  ∀ c, Reached p plan options c → c.2.bindings.isBound b'.method = true →
    c.2.bindings.isBound b.method = true

end Propagation

namespace Propagate

open Propagation (Adopting Adopts BoundInOrder Edited Moves Point Quietly Reached)

variable {s t : Propagation} {p : Program} {plan : ContextPlan} {B : BindingMap}
  {constructor : MethodId} {watched : List MethodId} {options : PropagationOptions}

/-- A step of the batches adopts units. -/
theorem moves_adopts (hTracks : ∀ r ∈ watched, B.Tracks p constructor r)
    (hThere : constructor.index < p.methods.length) {c d : Point} (hMoves : Moves c d)
    (hSome : c.1 ≠ none) :
    Adopts p plan B constructor watched options c.2 d.2 := by
  cases hMoves with
  | given hRun => exact (hSome rfl).elim
  | opened hPending =>
      refine .of_quietly rfl fun hKeyed hShuns => ?_
      exact ⟨{ Propagation.Advances.refl hKeyed with },
        ⟨⟨hShuns.grown, hShuns.after, hShuns.code⟩, hShuns.graph⟩, rfl, fun _ => Iff.rfl⟩
  | visited hRun => exact (visitKeeps_adopts hTracks hThere).visit _ hRun

/-- When the graph is built, the constructor calls no units. -/
theorem build_adopting (h : graph GraphEdit.build (.start p plan options) = .ok () s)
    (hNumbered : p.Numbered) (hSettled : ∀ b, p.body constructor = .ok b → b.Settled)
    (hTracks : ∀ r ∈ watched, B.Tracks p constructor r) :
    Adopting p plan B constructor watched options .empty [] s := by
  obtain ⟨v, hBuild, rfl⟩ := graph_ok.mp h
  have hCode : p.Shuns (fun id => B.Leads watched id ∧ p.Uncalled id) fun _ => False := by
    intro id m b hMethod hBody _ i hi callee hCallee hIn
    exact hIn.2 m (List.mem_of_getElem? hMethod) b hBody i hi hCallee
  refine
    { uncalled := ⟨⟨Nat.le_refl _, ⟨?_, ?_⟩, hCode⟩, GraphEdit.shuns_build hBuild hCode⟩
      keyed := Propagation.keyed_start p plan options
      numbered := hNumbered
      shape := rfl
      sameOptions := rfl
      free := fun _ _ hMem _ => hMem
      listed := fun _ _ hMem => Or.inl hMem
      led := fun b hBody => .start (hSettled b hBody) fun i hi => ?_
      apart := fun b hBody i hi id hCallee hLeads => ?_
      absent := fun _ => rfl
      sound := nofun
      nodup := List.nodup_nil
      called := fun _ _ _ _ _ _ hGet => nomatch hGet }
  · rintro id ⟨key, r, hGet, -⟩
    cases hGet
  · intro pair clone hGet
    cases hGet
  · rw [Instruction.watched?]
    split
    · rename_i hOpcode
      rw [Option.filter_eq_none_iff]
      intro r hMethod hWatched
      have hOther := ((hTracks r (by simpa using hWatched)).code b hBody i hi).1
      simp [Instruction.isMethodOp, hOpcode, hMethod] at hOther
    · rfl
  · obtain ⟨c, hGet, hWatched⟩ := hLeads
    exact ((hTracks _ hWatched).code b hBody i hi).2 id c hCallee hGet rfl

/-- What contexts bring along stands in for no unit that is called. -/
theorem bindReplacements_adopting (hThere : constructor.index < p.methods.length)
    (hBuild : graph GraphEdit.build (.start p plan options) = .ok () s)
    (h : bindReplacements s = .ok () t)
    (hAdopting : Adopting p plan B constructor watched options .empty [] s) :
    Adopting p plan B constructor watched options t.bindings [] t := by
  obtain ⟨-, hNew, -⟩ := bindReplacements_binds h
  obtain ⟨v, -, rfl⟩ := graph_ok.mp hBuild
  have hQuiet : Keeps (Quietly (fun id => B.Leads watched id ∧ p.Uncalled id) p.methods.length
      constructor) bindReplacements := by
    refine Keeps.bind Keeps.get fun s => Keeps.bind (Keeps.mapM fun b _ => ?_) fun made =>
      quietly_complete hThere
    exact Keeps.bind model_keeps fun m =>
      Keeps.ite (Keeps.pure _) (Keeps.bind quietly_bindMethod fun _ => Keeps.pure _)
  refine ⟨(hAdopting.toCalling.quiet (hQuiet h)).rebind nofun, fun _ b _ _ _ hOwn hGet => ?_⟩
  rcases hNew b.method b hGet with hBefore | ⟨hGiven, hMethod, hUsed⟩
  · cases hBefore
  · exact (hOwn ⟨b.mode, hUsed, b, hGiven, hMethod, rfl⟩).elim

/-- What a step leaves bound is bound wherever something is bound that it was the one to bind. -/
theorem reached_extends {c d e : Point} (hReached : Reached p plan options c) (hMoves : Moves c d)
    {id : MethodId} (hFree : c.2.bindings.get? id = none) (hOther : Reached p plan options e)
    (hBound : e.2.bindings.isBound id = true) : d.2.bindings.Extends e.2.bindings := by
  obtain ⟨s, hBuild, hReaches⟩ := hReached
  obtain ⟨s', hBuild', hReaches'⟩ := hOther
  obtain ⟨-, rfl⟩ := EStateM.Result.ok.inj (hBuild.symm.trans hBuild')
  obtain ⟨b, hGet⟩ := Option.isSome_iff_exists.mp hBound
  rcases ReflTransGen.total_of_right_unique Propagation.rightUnique_moves hReaches hReaches' with
    hLater | hEarlier
  · rcases hLater.cases_head with rfl | ⟨d', hFirst, hRest⟩
    · rw [hGet] at hFree
      cases hFree
    · obtain rfl := Propagation.rightUnique_moves hMoves hFirst
      exact (reaches_regular hRest (reached_regular ⟨s, hBuild, hReaches.tail hMoves⟩)).2
  · have hKept := (reaches_regular hEarlier (reached_regular ⟨s, hBuild, hReaches'⟩)).2
    rw [hKept id b hGet] at hFree
    cases hFree

/-- The units that a point of the batches of a run comes with are called in the order in which they
came to be bound. -/
theorem reached_adopting {c : Point} {s₁ s₂ : Propagation}
    (hTracks : ∀ r ∈ watched, B.Tracks p constructor r) (hThere : constructor.index < p.methods.length)
    (hBuild : graph GraphEdit.build (.start p plan options) = .ok () s₁)
    (hGiven : bindReplacements s₁ = .ok () s₂)
    (hStart : Adopting p plan B constructor watched options s₂.bindings [] s₂)
    (hReaches : ReflTransGen Moves (some [], s₂.seeded) c) (hLast : c.2.bindings.Extends B) :
    ∃ units, Adopting p plan B constructor watched options c.2.bindings units c.2 ∧
      units.Pairwise (BoundInOrder p plan options) := by
  induction hReaches with
  | refl =>
      have hSeeded : (modify (.enqueue _) : Propagate PUnit) s₂ = .ok ⟨⟩ s₂.seeded :=
        Step.modify_ok.mpr rfl
      exact ⟨[], ⟨hStart.toCalling.quiet (quietly_enqueue hSeeded), hStart.called⟩, .nil⟩
  | @tail c d hReaches hMoves ih =>
      have hSome : c.1 ≠ none := by
        rcases hReaches.cases_tail with rfl | ⟨_, -, hBefore⟩
        · exact nofun
        · cases hBefore <;> exact nofun
      have hAdopts : Adopts p plan B constructor watched options c.2 d.2 :=
        moves_adopts hTracks hThere hMoves hSome
      obtain ⟨units, hUnits, hOrder⟩ := ih (IsTrans.trans _ _ _ hAdopts.bindings hLast)
      obtain ⟨more, hNew, hMore⟩ := hAdopts.units hLast units hUnits
      have hBehind {b b' : Binding} (hMem : b ∈ units ++ more) (hMem' : b' ∈ more) :
          BoundInOrder p plan options b b' := by
        intro e hOther hBound
        have hKept := reached_extends ⟨s₁, hBuild, .head (.given hGiven) hReaches⟩ hMoves
          (hNew b' hMem') hOther hBound
        rw [BindingMap.isBound, hKept _ _ (hMore.sound b hMem).1]
        rfl
      refine ⟨units ++ more, hMore, List.pairwise_append.mpr ⟨hOrder, ?_, fun b hMem b' hMem' => ?_⟩⟩
      · exact List.pairwise_of_forall_mem_list fun b hMem b' hMem' =>
          hBehind (List.mem_append_right _ hMem) hMem'
      · exact hBehind (List.mem_append_left _ hMem) hMem'

/-- At the end of a run, the units that moved are called in the order in which they came to be
bound. -/
theorem run_adopting (h : propagate p plan options = .ok () t) (hNumbered : p.Numbered)
    (hThere : constructor.index < p.methods.length)
    (hSettled : ∀ b, p.body constructor = .ok b → b.Settled)
    (hTracks : ∀ r ∈ watched, t.bindings.Tracks p constructor r) :
    ∃ units, Adopting p plan t.bindings constructor watched options t.bindings units t ∧
      units.Pairwise (BoundInOrder p plan options) := by
  obtain ⟨s₁, s₂, s₃, s₄, hBuild, hGiven, hBatches, hRetire, rfl⟩ := run_iff.mp h
  have hReaches := Concludes.reaches (u := ()) (visitAll_concludes hBatches).1
  have hEdited : Edited (fun _ => False) s₃ s₄ := keeps_retireMovedFields hRetire
  have hBindings : s₄.closed.bindings = s₃.bindings := hEdited.bindings
  have hBuilt := build_adopting hBuild hNumbered hSettled hTracks
  have hStart := bindReplacements_adopting hThere hBuild hGiven hBuilt
  obtain ⟨units, hUnits, hOrder⟩ :=
    reached_adopting hTracks hThere hBuild hGiven hStart hReaches (hBindings ▸ refl _)
  refine ⟨units, ?_, hOrder⟩
  have hQuiet : Quietly (fun id => s₄.closed.bindings.Leads watched id ∧ p.Uncalled id)
      p.methods.length constructor s₃ s₄ :=
    quietly_changed (S := fun _ => False) (fun h => h) hThere
      (changes_edited keeps_retireMovedFields) shuns_retireMovedFields hRetire
  have hCount : (modify (.count fun n => { n with skippedCaptureSites := s₄.closures.skipped }) :
    Propagate PUnit) s₄ = .ok ⟨⟩ s₄.closed := Step.modify_ok.mpr rfl
  refine ⟨((hUnits.toCalling.quiet hQuiet).quiet (quietly_count hCount)).rebind (hBindings ▸ refl _),
    fun hInline b hMoved hWatched hUncalled hOwn hGet => ?_⟩
  exact hUnits.called hInline b hMoved hWatched hUncalled hOwn (hBindings ▸ hGet)

/-- When a run succeeds, a unit that moved to its context is listed as what stands in for it, unless
its context brought that along, and code ahead of all returns of the constructor calls it if no code
called the unit. Any other unit that is bound is listed as before. -/
theorem run_adopts_units (h : propagate p plan options = .ok () t) {context : ContextId} {i : Nat}
    {b : Binding} (hUnit : (plan.context context).initUnits[i]? = some b.method)
    (hBound : t.bindings.get? b.method = some b) (hLast : t.bindings.get? b.replacement = none) :
    (b.mode ≠ .instanceConverted context ∨ plan.Provides p b.method →
      (t.plan.context context).initUnits[i]? = some b.method) ∧
    (b.mode = .instanceConverted context → ¬ plan.Provides p b.method →
      (t.plan.context context).initUnits[i]? = some b.replacement ∧
      (options.inlineInitUnits = true → p.Uncalled b.method → p.Numbered →
        (plan.context context).constructor.index < p.methods.length →
        (∀ c, p.body (plan.context context).constructor = .ok c → c.Settled) →
        t.bindings.Tracks p (plan.context context).constructor b.replacement →
          ∃ c calls, t.program.body (plan.context context).constructor = .ok c ∧
            c.Announces [b.replacement] (fun _ => calls) ∧ b.replacement ∈ calls)) := by
  have hFinal : t.bindings.Final b.method := fun c hGet => by
    obtain rfl := Option.some_inj.mp (hBound.symm.trans hGet)
    exact hLast
  obtain ⟨hGiven, hListed⟩ := run_relists h hUnit hFinal
  rw [BindingMap.listing, hBound] at hListed
  refine ⟨fun hOther => ?_, fun hMode hOwn => ⟨by simpa [hMode] using hListed hOwn, ?_⟩⟩
  · by_cases hProvides : plan.Provides p b.method
    · exact hGiven hProvides
    · simpa [hOther.resolve_right hProvides] using hListed hProvides
  · intro hInline hUncalled hNumbered hThere hSettled hTracks
    have hWatched : ∀ r ∈ [b.replacement],
        t.bindings.Tracks p (plan.context context).constructor r := by simpa using hTracks
    obtain ⟨units, hUnits, -⟩ := run_adopting h hNumbered hThere hSettled hWatched
    have hMoved : plan.Moved t.bindings (plan.context context).constructor b :=
      ⟨hBound, context, hMode, rfl, List.mem_of_getElem? hUnit⟩
    have hCalled : b.replacement ∈ units.map (·.replacement) :=
      hUnits.called hInline b hMoved (List.mem_singleton_self _) hUncalled hOwn hBound
    cases hBody : t.program.body (plan.context context).constructor with
    | error e =>
        have hNone := hUnits.absent fun c hCode => by
          rw [hBody] at hCode
          cases hCode
        rw [hNone] at hCalled
        cases hCalled
    | ok c => exact ⟨c, _, rfl, (hUnits.led c hBody).announces, hCalled⟩

section Examples

open Program

/-- `H` has two init units. The one that is listed last was declared first. -/
def reversedUnits : Edit ContextPlan := do
  let root ← addType "G" "Root" none ⟨0⟩
  let holder ← addType "G" "H" none ⟨0⟩
  let context ← addType "G" "H_Ctx" none ⟨0⟩
  let rootConstructor ← addMethod root ".ctor" [] .void (.ofList [.constructor])
  let constructor ← addMethod context ".ctor" [] .void (.ofList [.constructor])
  let later ← addMethod holder "initLater" [] .void (.ofList [.static, .initUnit])
  let first ← addMethod holder "initFirst" [] .void (.ofList [.static, .initUnit])
  let slot ← addField root "H_f" (.named context) ⟨0⟩
  let x ← addField holder "x" .int32 (.ofList [.static])
  let moved ← addField context "x" .int32 ⟨0⟩
  let rootField ← addField context "root" (.named root) ⟨0⟩
  [rootConstructor, constructor].forM fun m => setBody m (.fresh [.plain .ret])
  setBody later (.fresh [.onField .ldsfld x, .unplaced .ldcI4 (.int32 1), .plain .add,
    .onField .stsfld x, .plain .ret])
  setBody first (.fresh [.unplaced .ldcI4 (.int32 3), .onField .stsfld x, .plain .ret])
  pure ⟨root, rootConstructor, [{ ContextDescriptor.bare "H" holder context constructor with
    chain := [slot]
    rootField := some rootField
    movedFields := .ofList [(x, moved)]
    initUnits := [first, later] }]⟩

/-- What stands in for the unit that is listed last is listed in its place, and called. -/
theorem reversedUnits_adopted :
    ∃ t, propagate (built reversedUnits).1 (built reversedUnits).2 default = .ok () t ∧
      ((built reversedUnits).2.context ⟨0⟩).initUnits[1]? = some ⟨2⟩ ∧
      t.bindings.get? ⟨2⟩ = some ⟨⟨2⟩, ⟨4⟩, .instanceConverted ⟨0⟩⟩ ∧
      t.bindings.get? ⟨4⟩ = none ∧ (t.plan.context ⟨0⟩).initUnits[1]? = some ⟨4⟩ ∧
      ∃ c calls, t.program.body ⟨1⟩ = .ok c ∧ c.Announces [⟨4⟩] (fun _ => calls) ∧ ⟨4⟩ ∈ calls := by
  have hCheck : Step.yields (propagate (built reversedUnits).1 (built reversedUnits).2 default)
      (fun _ t => decide (t.bindings.get? ⟨2⟩ = some ⟨⟨2⟩, ⟨4⟩, .instanceConverted ⟨0⟩⟩ ∧
        t.bindings.get? ⟨4⟩ = none ∧
          t.bindings.Tracks (built reversedUnits).1 ⟨1⟩ ⟨4⟩)) = true := by decide +kernel
  have hUnit : ((built reversedUnits).2.context ⟨0⟩).initUnits[1]? = some ⟨2⟩ := by decide +kernel
  have hConstructor : ((built reversedUnits).2.context ⟨0⟩).constructor = ⟨1⟩ := by decide +kernel
  have hGiven : (built reversedUnits).2.given = [] := by decide +kernel
  have hOwn : ¬ (built reversedUnits).2.Provides (built reversedUnits).1 ⟨2⟩ := by
    rintro ⟨mode, -, b, hMem, -⟩
    rw [hGiven] at hMem
    cases hMem
  have hUncalled : (built reversedUnits).1.Uncalled ⟨2⟩ := by decide +kernel
  have hNumbered : (built reversedUnits).1.Numbered := by decide +kernel
  have hThere : (⟨1⟩ : MethodId).index < (built reversedUnits).1.methods.length := by decide +kernel
  have hCode : (built reversedUnits).1.body ⟨1⟩ = .ok (.fresh [.plain .ret]) := by decide +kernel
  have hSettled : ∀ b, (built reversedUnits).1.body ⟨1⟩ = .ok b → b.Settled := by
    intro b hBody
    obtain rfl := Except.ok.inj (hBody.symm.trans hCode)
    exact nofun
  obtain ⟨_, t, hRun, hCheck⟩ := Step.ok_of_yields hCheck
  obtain ⟨hBound, hLast, hTracks⟩ := of_decide_eq_true hCheck
  obtain ⟨-, hMoved⟩ :=
    run_adopts_units (b := ⟨⟨2⟩, ⟨4⟩, .instanceConverted ⟨0⟩⟩) hRun hUnit hBound hLast
  obtain ⟨hListed, hCalled⟩ := hMoved rfl hOwn
  rw [hConstructor] at hCalled
  exact ⟨t, hRun, hUnit, hBound, hLast, hListed,
    hCalled rfl hUncalled hNumbered hThere hSettled hTracks⟩

/-- A logger takes over a holder with an init unit, and brings along what stands in for the unit. -/
def reusedLogger : Edit ContextPlan := do
  let root ← addType "G" "Root" none ⟨0⟩
  let holder ← addType "G" "Log" none (.ofList [.static])
  let logger ← addType "G" "Logger" none ⟨0⟩
  let rootConstructor ← addMethod root ".ctor" [] .void (.ofList [.constructor])
  let constructor ← addMethod logger ".ctor" [] .void (.ofList [.constructor])
  let unit ← addMethod holder "init" [] .void (.ofList [.static, .initUnit])
  let given ← addMethod logger "init" [] .void ⟨0⟩
  let slot ← addField root "Log_f" (.named logger) ⟨0⟩
  let level ← addField holder "level" .int32 (.ofList [.static])
  let moved ← addField logger "level" .int32 ⟨0⟩
  let shared ← addField logger "instance" (.named logger) (.ofList [.static])
  [rootConstructor, constructor].forM fun m => setBody m (.fresh [.plain .ret])
  setBody unit (.fresh [.unplaced .ldcI4 (.int32 3), .onField .stsfld level, .plain .ret])
  setBody given (.fresh [.onArg .ldarg 0, .unplaced .ldcI4 (.int32 3), .onField .stfld moved,
    .plain .ret])
  pure ⟨root, rootConstructor, [{ ContextDescriptor.bare "Log" holder logger constructor with
    chain := [slot]
    singleton := some shared
    movedFields := .ofList [(level, moved)]
    replacementMethods := .ofList [(unit, given)]
    initUnits := [unit] }]⟩

/-- The unit is bound and retired, and yet it stays listed, and the constructor calls nothing. -/
theorem reusedLogger_lost :
    ((built reusedLogger).2.context ⟨0⟩).constructor = ⟨1⟩ ∧
      ((built reusedLogger).2.context ⟨0⟩).initUnits = [⟨2⟩] ∧
      (default : PropagationOptions).inlineInitUnits = true ∧
      (built reusedLogger).1.Uncalled ⟨2⟩ ∧
      ∃ t, propagate (built reusedLogger).1 (built reusedLogger).2 default = .ok () t ∧
        t.bindings.get? ⟨2⟩ = some ⟨⟨2⟩, ⟨3⟩, .instanceConverted ⟨0⟩⟩ ∧ t.program.Retired ⟨2⟩ ∧
        (t.plan.context ⟨0⟩).initUnits = [⟨2⟩] ∧ t.program.body ⟨1⟩ = .ok (.fresh [.plain .ret]) := by
  refine ⟨by decide +kernel, by decide +kernel, rfl, by decide +kernel, ?_⟩
  have hCheck : Step.yields (propagate (built reusedLogger).1 (built reusedLogger).2 default)
      (fun _ t => decide (t.bindings.get? ⟨2⟩ = some ⟨⟨2⟩, ⟨3⟩, .instanceConverted ⟨0⟩⟩ ∧
        (t.program.method? ⟨2⟩).any (·.isRetired) = true ∧ (t.plan.context ⟨0⟩).initUnits = [⟨2⟩] ∧
          t.program.body ⟨1⟩ = .ok (.fresh [.plain .ret]))) = true := by decide +kernel
  obtain ⟨_, t, hRun, hCheck⟩ := Step.ok_of_yields hCheck
  obtain ⟨hBound, hRetired, hEnd⟩ := of_decide_eq_true hCheck
  exact ⟨t, hRun, hBound, (Option.any_eq_true ..).mp hRetired, hEnd⟩

end Examples

end Propagate

end ContextBinding
