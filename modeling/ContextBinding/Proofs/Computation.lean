import ContextBinding.Proofs.Frame
import ContextBinding.Proofs.Operands

/-! A path is a computation of its own. Its instructions run one after the other, from nothing but
the exception that the path starts with, and never take what is not there; and an exact path leaves
its value at the very bottom, beneath what the last instruction pushed along with it. -/

namespace ContextBinding

/-- What is on the stack when a path starts. -/
def Path.given (path : Path) : List Value :=
  match path.caught with
  | some _ => [.caught]
  | none => []

namespace CodeView

variable {v : CodeView} {start stack : List Value} {trail : List InstrId} {id : InstrId}

/-- The stack after instructions that run one after the other, the latest of them and the top of
the stack first. There is none where an instruction takes more values than there are. -/
def stackAfter? (v : CodeView) (start : List Value) : List InstrId → Option (List Value)
  | [] => some start
  | id :: trail =>
    match v.stackAfter? start trail, v.effect id with
    | some stack, .ok effect =>
      if effect.pops ≤ stack.length then
        some ((List.range effect.pushes).map (.pushed id (trail.count id)) ++
          stack.drop effect.pops)
      else none
    | _, _ => none

theorem stackAfter?_cons {effect : StackEffect} (h : v.stackAfter? start trail = some stack)
    (hEffect : v.effect id = .ok effect) (hPops : effect.pops ≤ stack.length) :
    v.stackAfter? start (id :: trail) = some
      ((List.range effect.pushes).map (.pushed id (trail.count id)) ++
        stack.drop effect.pops) := by
  simp only [stackAfter?, h, hEffect, if_pos hPops]

/-- The value that an instruction pushed at a place comes to a depth just before another one. It
stays where it is beneath what the instructions on the way take. -/
inductive Surfaces (v : CodeView) (source : InstrId) (place : Nat) : InstrId → Nat → Prop where
  | pushed {id : InstrId} {effect : StackEffect} (hEffect : v.effect source = .ok effect)
      (hPlace : place < effect.pushes) (hFlow : id ∈ v.index.successors source) :
      Surfaces v source place id place
  | passed {a id : InstrId} {depth : Nat} {effect : StackEffect}
      (prior : Surfaces v source place a depth) (hEntry : v.index.handlerEntry? id = none)
      (hStays : ¬ v.Leaves a) (hEffect : v.effect a = .ok effect) (hDepth : effect.pops ≤ depth)
      (hFlow : id ∈ v.index.successors a) :
      Surfaces v source place id (depth - effect.pops + effect.pushes)

/-- The instructions of a path run on their own and, if the path is exact, leave the value that
comes to a depth just before `id` at the bottom of the stack, with nothing above it that the last of
them did not push. -/
def Computes (v : CodeView) (id : InstrId) (depth : Nat) (path : Path) : Prop :=
  ∃ stack, v.stackAfter? path.given path.instrs.reverse = some stack ∧
    (path.exact = true → path.caught = none ∧ ∃ earlier last place,
      path.instrs = earlier ++ [last] ∧ v.Surfaces last place id depth ∧
      stack = (List.range (place + 1)).map (.pushed last (earlier.count last)))

/-- The instructions of a path run on their own and leave a number of values, and no others if the
path is exact. -/
def Supplies (v : CodeView) (need : Nat) (path : Path) : Prop :=
  ∃ stack, v.stackAfter? path.given path.instrs.reverse = some stack ∧ need ≤ stack.length ∧
    (path.exact = true → path.caught = none ∧ stack.length = need)

/-- One more instruction runs after a path that supplies what it takes. -/
theorem Supplies.run {path : Path} {need : Nat} {effect : StackEffect} (h : v.Supplies need path)
    (hEffect : v.effect id = .ok effect) (hPops : effect.pops ≤ need) (exact : Bool) :
    ∃ stack, v.stackAfter? path.given path.instrs.reverse = some stack ∧ need ≤ stack.length ∧
      (path.exact = true → path.caught = none ∧ stack.length = need) ∧
      v.stackAfter? (path.extend id exact).given (path.extend id exact).instrs.reverse = some
        ((List.range effect.pushes).map (.pushed id (path.instrs.count id)) ++
          stack.drop effect.pops) := by
  obtain ⟨stack, hRun, hNeed, hExact⟩ := h
  refine ⟨stack, hRun, hNeed, hExact, ?_⟩
  have hCons := stackAfter?_cons hRun hEffect (hPops.trans hNeed)
  rw [List.count_reverse] at hCons
  rwa [Path.extend, List.reverse_append]

/-- What is derived for values that are owed supplies them. -/
theorem Derives.supplies {sought : Nat × WalkAim} {trail : List WalkTask} {path : Path}
    (h : v.Derives id sought trail path) (hAim : sought.2 = .supply) :
    v.Supplies sought.1 path := by
  induction h with
  | nothing => exact ⟨[], rfl, Nat.le_refl _, fun _ => ⟨rfl, rfl⟩⟩
  | @caught id sought type hEntry hLast =>
      rw [hAim] at hLast
      exact ⟨[.caught], rfl, hLast.le, nofun⟩
  | @pass id task effect trail path hEntry hSome hPrior hStays hEffect rest ih =>
      have hAim : task.aim = .supply := hAim
      have hAhead : task.ahead effect = (task.owed - effect.pushes + effect.pops, .supply) := by
        simp only [WalkTask.ahead, hAim]
      have ih := ih (by rw [hAhead])
      rw [hAhead] at ih
      by_cases hNeutral : effect.pops = 0 ∧ effect.pushes = 0
      · have hSame : task.passed effect path = path := by
          simp only [WalkTask.passed, hAim, if_pos hNeutral]
        rw [hSame]
        simpa only [hNeutral.1, hNeutral.2, Nat.sub_zero, Nat.add_zero] using ih
      · have hJoined : task.passed effect path
            = path.extend task.instr (effect.pushes ≤ task.owed) := by
          simp only [WalkTask.passed, hAim, if_neg hNeutral]
        obtain ⟨stack, -, hNeed, hExact, hRun⟩ := ih.run hEffect (Nat.le_add_left ..)
          (effect.pushes ≤ task.owed)
        rw [hJoined]
        refine ⟨_, hRun, ?_, fun hBoth => ?_⟩
        · simp only [List.length_append, List.length_map, List.length_range, List.length_drop]
          omega
        · obtain ⟨hPath, hPushes⟩ := Bool.and_eq_true_iff.mp hBoth
          obtain ⟨hNone, hLength⟩ := hExact hPath
          have hPushes : effect.pushes ≤ task.owed := of_decide_eq_true hPushes
          refine ⟨hNone, ?_⟩
          simp only [List.length_append, List.length_map, List.length_range, List.length_drop]
          omega

/-- What is derived for a value computes it. The walk goes back over what passes the value on, and
from the instruction that pushed it over what that one takes. -/
theorem Derives.computes {sought : Nat × WalkAim} {trail : List WalkTask} {path : Path}
    (h : v.Derives id sought trail path) (hAim : sought.2 = .beneath) :
    v.Computes id sought.1 path := by
  induction h with
  | nothing => cases hAim
  | caught => exact ⟨[.caught], rfl, nofun⟩
  | @pass id task effect trail path hEntry hSome hPrior hStays hEffect rest ih =>
      have hAim : task.aim = .beneath := hAim
      have hFlow : id ∈ v.index.successors task.instr := FlowIndex.mem_predecessors.mp hPrior
      by_cases hSkip : effect.pushes ≤ task.owed
      · have hAhead : task.ahead effect = (task.owed - effect.pushes + effect.pops, .beneath) := by
          simp only [WalkTask.ahead, hAim, if_pos hSkip]
        have hSame : task.passed effect path = path := by
          simp only [WalkTask.passed, hAim, if_pos hSkip]
        obtain ⟨stack, hRun, hExact⟩ := ih (by rw [hAhead])
        rw [hSame]
        refine ⟨stack, hRun, fun hPath => ?_⟩
        obtain ⟨hNone, earlier, last, place, hInstrs, hSurfaces, hStack⟩ := hExact hPath
        rw [hAhead] at hSurfaces
        have hNext := hSurfaces.passed hEntry hStays hEffect (Nat.le_add_left ..) hFlow
        rw [Nat.add_sub_cancel, Nat.sub_add_cancel hSkip] at hNext
        exact ⟨hNone, earlier, last, place, hInstrs, hNext, hStack⟩
      · have hAhead : task.ahead effect = (effect.pops, .supply) := by
          simp only [WalkTask.ahead, hAim, if_neg hSkip]
        have hJoined : task.passed effect path
            = path.extend task.instr (task.owed + 1 == effect.pushes) := by
          simp only [WalkTask.passed, hAim, if_neg hSkip]
        rw [hAhead] at rest
        obtain ⟨stack, -, -, hExact, hRun⟩ := (rest.supplies rfl).run hEffect (Nat.le_refl _)
          (task.owed + 1 == effect.pushes)
        rw [hJoined]
        refine ⟨_, hRun, fun hBoth => ?_⟩
        obtain ⟨hPath, hPushes⟩ := Bool.and_eq_true_iff.mp hBoth
        obtain ⟨hNone, hLength⟩ := hExact hPath
        have hPushes : task.owed + 1 = effect.pushes := beq_iff_eq.mp hPushes
        refine ⟨hNone, path.instrs, task.instr, task.owed, rfl,
          .pushed hEffect (Nat.not_le.mp hSkip) hFlow, ?_⟩
        rw [List.drop_eq_nil_of_le hLength.le, List.append_nil, hPushes]

/-- Only operands that an instruction has are shown. -/
theorem slot_lt_of_operand {effect : StackEffect} {slot : Nat} {paths : List Path}
    (hEffect : v.effect id = .ok effect) (h : v.operand id slot = .ok paths) :
    slot < effect.pops := by
  obtain ⟨depth, hDepth, -⟩ := Outcome.bind_ok.mp h
  obtain ⟨effect', hEffect', hSlot⟩ := Outcome.bind_ok.mp hDepth
  obtain rfl : effect = effect' := Except.ok.inj (hEffect.symm.trans hEffect')
  dsimp only at hSlot
  split at hSlot
  · assumption
  · cases hSlot

end CodeView

namespace Query

/-- A path that is given for a value at a depth just before an instruction, whether the value is
asked for by its depth or as an operand, alone or together with the others. -/
inductive Shows (p : Program) (method : MethodId) (cache : FlowCache) (id : InstrId) :
    Nat → Path → Prop where
  | value {depth : Nat} {path : Path} {paths : List Path} {after : FlowCache}
      (h : stackValue p method id depth cache = .ok paths after) (hMem : path ∈ paths) :
      Shows p method cache id depth path
  | operand {b : MethodBody} {effect : StackEffect} {slot : Nat} {path : Path} {paths : List Path}
      {after : FlowCache} (hBody : p.body method = .ok b)
      (hEffect : (CodeView.ofBody p method b).effect id = .ok effect)
      (h : operand p method id slot cache = .ok paths after) (hMem : path ∈ paths) :
      Shows p method cache id (effect.pops - 1 - slot) path
  | operands {b : MethodBody} {effect : StackEffect} {slot : Nat} {path : Path} {paths : List Path}
      {groups : List (List Path)} {after : FlowCache} (hBody : p.body method = .ok b)
      (hEffect : (CodeView.ofBody p method b).effect id = .ok effect)
      (h : operands p method id cache = .ok groups after) (hSlot : groups[slot]? = some paths)
      (hMem : path ∈ paths) : Shows p method cache id (effect.pops - 1 - slot) path

variable {p : Program} {method : MethodId} {b : MethodBody} {cache : FlowCache} {id : InstrId}
  {depth : Nat} {path : Path}

/-- The paths that are given are derived. -/
theorem Shows.derived (h : Shows p method cache id depth path) (hBody : p.body method = .ok b)
    (hCache : cache.Describes method b) :
    ∃ trail, (CodeView.ofBody p method b).Derives id (depth, .beneath) trail path := by
  cases h with
  | value h hMem =>
      obtain ⟨memo, hRun⟩ := Walk.run'_ok.mp (of_ask_ok hBody hCache h)
      exact (CodeView.valuePaths_answers .nil hRun).2.derived path hMem
  | @operand b' effect slot _ paths after hBody' hEffect h hMem =>
      obtain rfl : b = b' := Except.ok.inj (hBody.symm.trans hBody')
      have hOperand := of_ask_ok hBody hCache h
      have hSlot := CodeView.slot_lt_of_operand hEffect hOperand
      exact (CodeView.operand_answers hEffect hSlot hOperand).derived path hMem
  | operands hBody' hEffect h hSlot hMem =>
      obtain rfl := Except.ok.inj (hBody.symm.trans hBody')
      obtain ⟨-, hAnswers⟩ := CodeView.operands_answers hEffect (of_ask_ok hBody hCache h)
      exact (hAnswers _ _ hSlot).derived path hMem

/-- A path is a computation of its own, in whatever code. From the empty stack, or from the
exception if it starts at the entry of a handler, its instructions run one after the other without
taking from an empty stack. If the path is exact, the value that it is given for is at the bottom
then, and everything above that was pushed by the last instruction. -/
theorem shows_computes (hBody : p.body method = .ok b) (hCache : cache.Describes method b)
    (h : Shows p method cache id depth path) :
    (CodeView.ofBody p method b).Computes id depth path := by
  obtain ⟨trail, hDerives⟩ := h.derived hBody hCache
  exact hDerives.computes rfl

end Query

/-- A sum that is put on the stack twice. -/
def doubledSum : MethodBody :=
  .ofParts [⟨⟨0⟩, .ldcI4, .int32 1⟩, ⟨⟨1⟩, .ldcI4, .int32 2⟩, ⟨⟨2⟩, .nop, .none⟩,
    ⟨⟨3⟩, .add, .none⟩, ⟨⟨4⟩, .dup, .none⟩, ⟨⟨5⟩, .pop, .none⟩, ⟨⟨6⟩, .pop, .none⟩,
    ⟨⟨7⟩, .ret, .none⟩] [] []

/-- A program with the sum as the code of its only method. -/
def doubledProgram : Program :=
  { Program.empty with
    methods := [⟨⟨0⟩, "Sum", [], .void, .ofList [.static], [], some doubledSum⟩] }

/-- How the lower one of the two sums comes about. -/
def doubledPath : Path := ⟨[⟨0⟩, ⟨1⟩, ⟨3⟩, ⟨4⟩], none, true⟩

/-- The lower sum is at the bottom once its path has run, and the other one above it. -/
theorem doubledSum_computes :
    Query.Shows doubledProgram ⟨0⟩ .empty ⟨5⟩ 1 doubledPath ∧
      (CodeView.ofBody doubledProgram ⟨0⟩ doubledSum).Computes ⟨5⟩ 1 doubledPath ∧
      (CodeView.ofBody doubledProgram ⟨0⟩ doubledSum).stackAfter? doubledPath.given
        doubledPath.instrs.reverse = some [.pushed ⟨4⟩ 0 0, .pushed ⟨4⟩ 0 1] := by
  have hValue : (CodeView.ofBody doubledProgram ⟨0⟩ doubledSum).stackValue ⟨5⟩ 1
      = .ok [doubledPath] := rfl
  obtain ⟨after, hAsk⟩ :=
    Query.ask_ok (p := doubledProgram) (fun v => v.stackValue ⟨5⟩ 1) rfl (.empty _ _) hValue
  have hShows : Query.Shows doubledProgram ⟨0⟩ .empty ⟨5⟩ 1 doubledPath :=
    .value hAsk (List.mem_singleton_self _)
  exact ⟨hShows, Query.shows_computes rfl (.empty _ _) hShows, rfl⟩

end ContextBinding
