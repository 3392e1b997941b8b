import ContextBinding.Proofs.Population
import ContextBinding.Proofs.Redefinition
import ContextBinding.Proofs.ReturnCode

/-! What the root constructor runs once it was populated. The code of the statements that were
missing runs on each way to a return, in their order, and leaves nothing on the stack. -/

namespace ContextBinding

open MethodBody (numbers number)

/-- Plain code that turns `n` values of its own into `m`, provided that `sound` holds. -/
structure Program.Turns (p : Program) (method : MethodId) (sound : Prop) (n : Nat)
    (code : List Instruction) (m : Nat) : Prop where
  plain : ∀ i ∈ code, i.Plain
  rises : sound → p.Rises method n code m

namespace Program.Turns

variable {p : Program} {method : MethodId} {sound : Prop} {n m k : Nat}
  {code rest : List Instruction} {i : Instruction}

theorem one (effect : StackEffect) (hPlain : i.Plain)
    (hEffect : sound → p.stackEffect method i = .ok effect) :
    p.Turns method sound effect.pops [i] effect.pushes where
  plain := by simpa using hPlain
  rises hSound := ⟨effect, hEffect hSound, Nat.le_refl _, by simp [Rises]⟩

theorem append (h : p.Turns method sound n code m) (hRest : p.Turns method sound m rest k) :
    p.Turns method sound n (code ++ rest) k where
  plain i hMem := (List.mem_append.mp hMem).elim (h.plain i) (hRest.plain i)
  rises hSound := (h.rises hSound).append (hRest.rises hSound)

theorem above (h : p.Turns method sound n code m) (k : Nat) :
    p.Turns method sound (n + k) code (m + k) where
  plain := h.plain
  rises hSound := (h.rises hSound).above k

/-- Pieces of code that leave the same number of values leave all of them one after the other. -/
theorem flatten {codes : List (List Instruction)}
    (h : ∀ code ∈ codes, p.Turns method sound 0 code m) :
    p.Turns method sound 0 codes.flatten (codes.length * m) := by
  induction codes with
  | nil => exact ⟨nofun, fun _ => by simp [Rises]⟩
  | cons code codes ih =>
      obtain ⟨hFirst, hRest⟩ := List.forall_mem_cons.mp h
      have hLater := (ih hRest).above m
      rw [Nat.zero_add] at hLater
      rw [List.flatten_cons, List.length_cons, Nat.succ_mul]
      exact hFirst.append hLater

/-- Instructions that put one value in the place of another leave as many as there were. -/
theorem of_replacing (h : ∀ i ∈ code, i.Plain ∧ p.stackEffect method i = .ok ⟨1, 1⟩) :
    p.Turns method sound 1 code 1 := by
  induction code with
  | nil => exact ⟨nofun, fun _ => rfl⟩
  | cons i code ih =>
      obtain ⟨hFirst, hRest⟩ := List.forall_mem_cons.mp h
      exact (one ⟨1, 1⟩ hFirst.1 fun _ => hFirst.2).append (ih hRest)

end Program.Turns

namespace ContextPlan

variable {plan : ContextPlan} {p : Program} {c : ContextDescriptor} {method : MethodId}
  {sound : Prop} {code : List Instruction}

/-- What a statement constructs, it constructs by a constructor. -/
def Constructs (plan : ContextPlan) (p : Program) : InstantiationStep → Prop
  | .construct context _ _ =>
    ∀ m ∈ p.method? (plan.context context).constructor, m.isConstructor = true
  | .assign .. => True

theorem linkLoad_replaces {link : FieldId} {i : Instruction} (h : linkLoad p link = .ok i) :
    i.Plain ∧ p.stackEffect method i = .ok ⟨1, 1⟩ := by
  obtain ⟨f, -, h⟩ := Outcome.bind_ok.mp h
  obtain rfl := Outcome.pure_ok.mp h
  split <;> exact ⟨⟨rfl, rfl, rfl⟩, rfl⟩

theorem chainLoad_turns {chain : List FieldId} (h : chainLoad p chain = .ok code) :
    p.Turns method sound 0 code 1 := by
  obtain ⟨loads, hLoads, h⟩ := Outcome.bind_ok.mp h
  obtain rfl := Outcome.pure_ok.mp h
  have hRoot : p.Turns method sound 0 [.onArg .ldarg 0] 1 :=
    .one ⟨0, 1⟩ ⟨rfl, rfl, rfl⟩ fun _ => rfl
  refine hRoot.append (.of_replacing fun i hMem => ?_)
  obtain ⟨link, -, hLoad⟩ := Outcome.mem_mapM_ok hLoads hMem
  exact linkLoad_replaces hLoad

theorem argumentLoad_turns {type : TypeRef} (h : argumentLoad plan p c type = .ok code) :
    p.Turns method sound 0 code 1 := by
  have hNull : p.Turns method sound 0 [.plain .ldnull] 1 :=
    .one ⟨0, 1⟩ ⟨rfl, rfl, rfl⟩ fun _ => rfl
  unfold argumentLoad at h
  split at h
  · obtain rfl := Except.ok.inj h
    exact .one ⟨0, 1⟩ ⟨rfl, rfl, rfl⟩ fun _ => rfl
  · split at h
    · obtain rfl := Except.ok.inj h
      exact hNull
    · dsimp only at h
      split at h
      · exact chainLoad_turns h
      · obtain rfl := Except.ok.inj h
        exact hNull

theorem instanceLoad_turns {step : InstantiationStep} (h : instanceLoad plan p step = .ok code)
    (hSound : sound → plan.Constructs p step) : p.Turns method sound 0 code 1 := by
  cases step with
  | construct context slot parent =>
      obtain ⟨m, hMethod, h⟩ := Outcome.bind_ok.mp h
      obtain ⟨loads, hLoads, h⟩ := Outcome.bind_ok.mp h
      obtain rfl := Outcome.pure_ok.mp h
      have hArguments : p.Turns method sound 0 loads.flatten (loads.length * 1) := by
        refine .flatten fun load hMem => ?_
        obtain ⟨param, -, hLoad⟩ := Outcome.mem_mapM_ok hLoads hMem
        exact argumentLoad_turns hLoad
      rw [Nat.mul_one, Outcome.length_mapM_ok hLoads] at hArguments
      refine hArguments.append (.one m.constructionEffect ⟨rfl, rfl, rfl⟩ fun h => ?_)
      have hThere := Program.methodDef_ok.mp hMethod
      have hConstructor : m.isConstructor = true := hSound h m hThere
      simp [Program.stackEffect, Instruction.onMethod, Instruction.unplaced, OpCode.fixedEffect?,
        Instruction.method?, hThere, hConstructor]
  | assign context slot field =>
      obtain rfl := Outcome.pure_ok.mp h
      exact .one ⟨0, 1⟩ ⟨rfl, rfl, rfl⟩ fun _ => rfl

/-- The code of a statement leaves the stack as it was. -/
theorem stepCode_turns {step : InstantiationStep} (h : plan.stepCode p step = .ok code)
    (hSound : sound → plan.Constructs p step) : p.Turns method sound 0 code 0 := by
  obtain ⟨target, hTarget, h⟩ := Outcome.bind_ok.mp h
  obtain ⟨value, hValue, h⟩ := Outcome.bind_ok.mp h
  obtain rfl := Outcome.pure_ok.mp h
  have hPushed : p.Turns method sound 0 (target ++ value) 2 :=
    (chainLoad_turns hTarget).append ((instanceLoad_turns hValue hSound).above 1)
  exact hPushed.append (.one ⟨2, 0⟩ ⟨rfl, rfl, rfl⟩ fun _ => rfl)

/-- So does that of statements that follow one another. -/
theorem stepCodes_turns {steps : List InstantiationStep} {codes : List (List Instruction)}
    (h : steps.mapM (plan.stepCode p) = .ok codes) :
    p.Turns method (∀ step ∈ steps, plan.Constructs p step) 0 codes.flatten 0 := by
  refine .flatten (m := 0) fun code hMem => ?_
  obtain ⟨step, hStep, hCode⟩ := Outcome.mem_mapM_ok h hMem
  exact stepCode_turns hCode fun hSound => hSound step hStep

end ContextPlan

/-- Code that leaves the stack as it was does so wherever it runs. -/
theorem CodeView.stack_turns {v : CodeView} {p : Program} {first since : Nat} {sound : Prop}
    {code : List Instruction} {start : List Value} {old : List InstrId}
    (hHolds : v.Holds first code) (hEffects : v.program.stackEffect = p.stackEffect)
    (h : p.Turns v.method sound 0 code 0) (hSound : sound) :
    (v.frame since start ((numbers first code).reverse ++ old)).stack
      = (v.frame since start old).stack := by
  have hRises := Program.rises_congr hEffects v.method (h.rises hSound)
  have hOwn : (v.frame since start old).stack = [] ++ (v.frame since start old).stack := rfl
  obtain ⟨top, hStack, hTop, -⟩ := frame_rises hHolds
    (fun i hMem => ⟨(h.plain i hMem).next, (h.plain i hMem).noLocal⟩) hRises hOwn rfl
  rw [hStack, List.eq_nil_of_length_eq_zero hTop, List.nil_append]

namespace Emit

open MethodBody (insertAtReturns_passedOnce)

variable {plan : ContextPlan} {p q : Program} {steps : List InstantiationStep} {emitted : Nat}
  {b : MethodBody} {codes : List (List Instruction)}

theorem code_ne_nil (hCodes : (missing b steps).mapM (plan.stepCode p) = .ok codes)
    (hSome : missing b steps ≠ []) : codes.flatten ≠ [] := by
  obtain ⟨step, hMem⟩ := List.exists_mem_of_ne_nil _ hSome
  obtain ⟨code, hThere, hCode⟩ := Outcome.mapM_mem_ok hCodes hMem
  exact List.ne_nil_of_mem (List.mem_flatten.mpr ⟨code, hThere, ContextPlan.stores_stepCode hCode⟩)

/-- The root constructor runs each statement that was missing once, in order, on every walk that
comes to a return, and old code only ahead of that. The statements leave the stack as it was if they
construct by constructors. A body that returns nowhere gets a return behind them if there are any;
without any the program stays as it is, and so it does when it is populated again. -/
theorem rootConstructor_passedOnce (hBody : p.body plan.rootConstructor = .ok b)
    (hNumbered : b.Numbered) (hClosed : b.references ⊆ b.ids)
    (h : rootConstructor plan steps p = .ok emitted q) :
    ∃ codes b', (missing b steps).mapM (plan.stepCode p) = .ok codes ∧
      (missing b steps).length = emitted ∧ q.body plan.rootConstructor = .ok b' ∧
      (∀ ret ∈ b'.returns, ∃ first,
        (CodeView.ofBody p plan.rootConstructor b).PassedOnce
          (.ofBody q plan.rootConstructor b') codes.flatten first ret ∧
        ((∀ step ∈ missing b steps, plan.Constructs p step) → ∀ since start old,
          ((CodeView.ofBody q plan.rootConstructor b').frame since start
              ((numbers first codes.flatten).reverse ++ old)).stack
            = ((CodeView.ofBody q plan.rootConstructor b').frame since start old).stack)) ∧
      b.returns ⊆ b'.returns ∧
      (missing b steps ≠ [] → b.returns = [] →
        b'.instructions = b.instructions ++ number b.nextId (codes.flatten ++ [.plain .ret])) ∧
      (missing b steps = [] → q = p) ∧ rootConstructor plan steps q = .ok 0 q := by
  obtain ⟨m, b₀, codes, hMethod, hCode, hCodes, hEmitted, hEdit⟩ := rootConstructor_iff.mp h
  obtain rfl : b = b₀ :=
    Except.ok.inj (hBody.symm.trans (Program.body_ok.mpr ⟨m, hMethod, hCode⟩))
  have hTurns : p.Turns plan.rootConstructor (∀ step ∈ missing b steps, plan.Constructs p step) 0
      codes.flatten 0 := ContextPlan.stepCodes_turns hCodes
  have hAgain := rootConstructor_again h
  by_cases hSome : missing b steps = []
  · rw [if_pos hSome] at hEdit
    subst hEdit
    obtain rfl : codes = [] := by
      rw [hSome] at hCodes
      exact (Outcome.pure_ok.mp hCodes).symm
    refine ⟨[], b, hCodes, hEmitted, hBody, fun ret hReturn => ⟨0, ?_, fun _ _ _ _ => rfl⟩,
      List.Subset.refl _, fun hNone => (hNone hSome).elim, fun _ => rfl, hAgain⟩
    refine ⟨nofun, nofun, fun start trail hWalk => ?_, fun _ _ _ => Iff.rfl⟩
    exact ⟨trail, rfl, hWalk.mem_order rfl, hWalk.passes⟩
  · rw [if_neg hSome] at hEdit
    obtain ⟨m', b₁, b', hMethod', hCode', hInsert, rfl⟩ := Program.editBody_ok hEdit
    obtain rfl : b = b₁ :=
      Except.ok.inj (hBody.symm.trans (Program.body_ok.mpr ⟨m', hMethod', hCode'⟩))
    obtain ⟨hPassed, hKept, hPushed⟩ := insertAtReturns_passedOnce hNumbered hClosed hTurns.plain p
      (p.touch.putBody plan.rootConstructor b') plan.rootConstructor (code_ne_nil hCodes hSome)
      hInsert
    have hEffects : (p.touch.putBody plan.rootConstructor b').stackEffect = p.stackEffect :=
      (Program.DiffersIn.putBody p plan.rootConstructor b').stackEffect.symm
    refine ⟨codes, b', hCodes, hEmitted, Program.body_putBody (p := p.touch) hMethod',
      fun ret hReturn => ?_, hKept, fun _ => hPushed, fun hNone => (hSome hNone).elim, hAgain⟩
    obtain ⟨first, hOnce⟩ := hPassed ret hReturn
    refine ⟨first, hOnce, fun hSound since start old => ?_⟩
    exact CodeView.stack_turns hOnce.holds hEffects hTurns hSound

end Emit

section Examples

/-- A root with slots for two contexts, the second of which is constructed by a method with the
given flags. -/
def rooted (flags : FlagSet MethodFlag) (code : MethodBody) : Edit ContextPlan := do
  let root ← Program.addType "G" "Root" none ⟨0⟩
  let near ← Program.addType "G" "Near" none ⟨0⟩
  let far ← Program.addType "G" "Far" none ⟨0⟩
  let nearContext ← Program.addType "G" "NearCtx" none ⟨0⟩
  let farContext ← Program.addType "G" "FarCtx" none ⟨0⟩
  let newRoot ← Program.addMethod root ".ctor" [] .void (.ofList [.constructor])
  let newNear ← Program.addMethod nearContext ".ctor" [] .void (.ofList [.constructor])
  let newFar ← Program.addMethod farContext "make" [] .void flags
  Program.setBody newRoot code
  Program.setBody newNear (.fresh [.plain .ret])
  Program.setBody newFar (.fresh [.plain .ret])
  let nearSlot ← Program.addField root "near" (.named nearContext) ⟨0⟩
  let farSlot ← Program.addField root "far" (.named farContext) ⟨0⟩
  pure ⟨root, newRoot,
    [{ ContextDescriptor.bare "Near" near nearContext newNear with chain := [nearSlot] },
      { ContextDescriptor.bare "Far" far farContext newFar with chain := [farSlot] }]⟩

/-- A root constructor that stores the first slot and returns in two places, of which a jump leads
to the second. -/
def twoReturns : MethodBody :=
  .ofParts [⟨⟨0⟩, .ldarg, .arg 0⟩, ⟨⟨1⟩, .ldnull, .none⟩, ⟨⟨2⟩, .stfld, .field ⟨0⟩⟩,
    ⟨⟨3⟩, .ldarg, .arg 0⟩, ⟨⟨4⟩, .brtrue, .target ⟨6⟩⟩, ⟨⟨5⟩, .ret, .none⟩,
    ⟨⟨6⟩, .ret, .none⟩] [] []

/-- A root constructor whose jump names an instruction that is not there. -/
def strayed : MethodBody := .ofParts [⟨⟨0⟩, .br, .target ⟨3⟩⟩, ⟨⟨1⟩, .ret, .none⟩] [] []

/-- What becomes of it when the first context is constructed ahead of its return. -/
def strayedAfter : MethodBody where
  instructions := [⟨⟨0⟩, .br, .target ⟨3⟩⟩, ⟨⟨2⟩, .ldarg, .arg 0⟩, ⟨⟨3⟩, .newobj, .method ⟨1⟩⟩,
    ⟨⟨4⟩, .stfld, .field ⟨0⟩⟩, ⟨⟨1⟩, .ret, .none⟩]
  locals := []
  handlers := []
  nextId := 5
  revision := 1

namespace Emit

/-- Only the second context is constructed, ahead of both returns. -/
theorem twoReturns_passedOnce :
    let p := (built (rooted (.ofList [.constructor]) twoReturns)).1
    let plan := (built (rooted (.ofList [.constructor]) twoReturns)).2
    let steps : List InstantiationStep := [.construct ⟨0⟩ ⟨0⟩ none, .construct ⟨1⟩ ⟨1⟩ none]
    p.body plan.rootConstructor = .ok twoReturns ∧ twoReturns.Numbered ∧
      twoReturns.references ⊆ twoReturns.ids ∧ ∃ q codes b',
        rootConstructor plan steps p = .ok 1 q ∧
        [.construct ⟨1⟩ ⟨1⟩ none].mapM (plan.stepCode p) = .ok codes ∧
        q.body plan.rootConstructor = .ok b' ∧
        (∀ ret ∈ b'.returns, ∃ first, (CodeView.ofBody p plan.rootConstructor twoReturns).PassedOnce
          (.ofBody q plan.rootConstructor b') codes.flatten first ret ∧ ∀ since start old,
            ((CodeView.ofBody q plan.rootConstructor b').frame since start
                ((numbers first codes.flatten).reverse ++ old)).stack
              = ((CodeView.ofBody q plan.rootConstructor b').frame since start old).stack) ∧
        [⟨5⟩, ⟨6⟩] ⊆ b'.returns ∧ rootConstructor plan steps q = .ok 0 q := by
  intro p plan steps
  have hBody : p.body plan.rootConstructor = .ok twoReturns := rfl
  have hNumbered : twoReturns.Numbered := by decide
  have hClosed : twoReturns.references ⊆ twoReturns.ids := by decide
  have hMissing : missing twoReturns steps = [.construct ⟨1⟩ ⟨1⟩ none] := by decide
  have hSound : ∀ step ∈ missing twoReturns steps, plan.Constructs p step := by
    rw [hMissing]
    intro step hMem
    obtain rfl := List.mem_singleton.mp hMem
    have hThere : ∀ m ∈ p.method? (plan.context ⟨1⟩).constructor, m.isConstructor = true := by
      decide +kernel
    exact hThere
  have hRuns : Step.yields (rootConstructor plan steps p) (fun n _ => decide (n = 1)) = true := by
    decide +kernel
  clear_value p plan
  obtain ⟨n, q, hRun, hOne⟩ := Step.ok_of_yields hRuns
  obtain rfl := of_decide_eq_true hOne
  obtain ⟨codes, b', hCodes, -, hAfter, hPassed, hKept, -, -, hAgain⟩ :=
    rootConstructor_passedOnce hBody hNumbered hClosed hRun
  refine ⟨hBody, hNumbered, hClosed, q, codes, b', hRun, hMissing ▸ hCodes, hAfter,
    fun ret hReturn => ?_, hKept, hAgain⟩
  obtain ⟨first, hOnce, hStack⟩ := hPassed ret hReturn
  exact ⟨first, hOnce, hStack hSound⟩

/-- Without a statement that is missing no return is put behind code that has none. Without a
constructor the height of the stack is not known. And where a jump names a number that is still to
be handed out, it leads into the middle of the code. -/
theorem rootConstructor_exceptions :
    (let p := (built (rooted (.ofList [.constructor]) (.fresh [.plain .nop]))).1
      let plan := (built (rooted (.ofList [.constructor]) (.fresh [.plain .nop]))).2
      p.body plan.rootConstructor = .ok (.fresh [.plain .nop]) ∧
        (MethodBody.fresh [.plain .nop]).returns = [] ∧ rootConstructor plan [] p = .ok 0 p) ∧
    (let p := (built (rooted ⟨0⟩ (.fresh [.plain .ret]))).1
      let plan := (built (rooted ⟨0⟩ (.fresh [.plain .ret]))).2
      ∃ q code, plan.stepCode p (.construct ⟨1⟩ ⟨1⟩ none) = .ok code ∧
        rootConstructor plan [.construct ⟨1⟩ ⟨1⟩ none] p = .ok 1 q ∧
        ∀ n m, ¬ q.Rises plan.rootConstructor n code m) ∧
    (let p := (built (rooted (.ofList [.constructor]) strayed)).1
      let plan := (built (rooted (.ofList [.constructor]) strayed)).2
      ∃ q b' code, plan.stepCode p (.construct ⟨0⟩ ⟨0⟩ none) = .ok code ∧
        rootConstructor plan [.construct ⟨0⟩ ⟨0⟩ none] p = .ok 1 q ∧
        q.body plan.rootConstructor = .ok b' ∧ ⟨1⟩ ∈ b'.returns ∧
        ∀ first, ¬ (CodeView.ofBody p plan.rootConstructor strayed).PassedOnce
          (.ofBody q plan.rootConstructor b') code first ⟨1⟩) := by
  refine ⟨?_, ?_, ?_⟩
  · intro p plan
    have hBody : p.body plan.rootConstructor = .ok (.fresh [.plain .nop]) := rfl
    obtain ⟨m, hMethod, hCode⟩ := Program.body_ok.mp hBody
    refine ⟨hBody, rfl, rootConstructor_iff.mpr ⟨m, _, [], hMethod, hCode, rfl, rfl, ?_⟩⟩
    rw [if_pos (missing_eq_nil.mpr fun _ hMem => (List.not_mem_nil hMem).elim)]
  · intro p plan
    have hCode : plan.stepCode p (.construct ⟨1⟩ ⟨1⟩ none)
        = .ok [.onArg .ldarg 0, .onMethod .newobj ⟨2⟩, .onField .stfld ⟨1⟩] := by decide +kernel
    have hRuns : Step.yields (rootConstructor plan [.construct ⟨1⟩ ⟨1⟩ none] p) (fun n q =>
        decide (n = 1) && (q.stackEffect plan.rootConstructor
          (.onMethod .newobj ⟨2⟩)).toOption.isNone) = true := by decide +kernel
    clear_value p plan
    obtain ⟨n, q, hRun, hCheck⟩ := Step.ok_of_yields hRuns
    obtain ⟨hOne, hNone⟩ := Bool.and_eq_true_iff.mp hCheck
    obtain rfl := of_decide_eq_true hOne
    refine ⟨q, _, hCode, hRun, fun n m => ?_⟩
    rintro ⟨-, -, -, effect, hEffect, -⟩
    rw [hEffect] at hNone
    cases hNone
  · intro p plan
    have hCode : plan.stepCode p (.construct ⟨0⟩ ⟨0⟩ none)
        = .ok [.onArg .ldarg 0, .onMethod .newobj ⟨1⟩, .onField .stfld ⟨0⟩] := by decide +kernel
    have hRuns : Step.yields (rootConstructor plan [.construct ⟨0⟩ ⟨0⟩ none] p) (fun n q =>
        decide (n = 1) && decide ((q.body plan.rootConstructor).toOption = some strayedAfter))
          = true := by decide +kernel
    clear_value p plan
    obtain ⟨n, q, hRun, hCheck⟩ := Step.ok_of_yields hRuns
    obtain ⟨hOne, hAfter⟩ := Bool.and_eq_true_iff.mp hCheck
    obtain rfl := of_decide_eq_true hOne
    have hBody : q.body plan.rootConstructor = .ok strayedAfter := by
      cases hSome : q.body plan.rootConstructor with
      | error e => simp [hSome, Except.toOption] at hAfter
      | ok b' => simpa [hSome, Except.toOption] using hAfter
    refine ⟨q, _, _, hCode, hRun, hBody, by decide, fun first hOnce => ?_⟩
    have hWalk : (CodeView.ofBody q plan.rootConstructor strayedAfter).Walks []
        [⟨4⟩, ⟨3⟩, ⟨0⟩] ⟨1⟩ := by
      have hStart : (CodeView.ofBody q plan.rootConstructor strayedAfter).Walks [] [] ⟨0⟩ :=
        .enter (.start rfl)
      have hJump : (⟨3⟩ : InstrId) ∈ (FlowIndex.build strayedAfter).successors ⟨0⟩ := by decide
      have hNext : (⟨4⟩ : InstrId) ∈ (FlowIndex.build strayedAfter).successors ⟨3⟩ := by decide
      have hLast : (⟨1⟩ : InstrId) ∈ (FlowIndex.build strayedAfter).successors ⟨4⟩ := by decide
      exact ((hStart.step hJump).step hNext).step hLast
    -- The jump leaves out the first of the three instructions.
    obtain ⟨old, hTrail, -, -⟩ := hOnce.once _ _ hWalk
    simp [numbers, number] at hTrail
    omega

end Emit

end Examples

end ContextBinding
