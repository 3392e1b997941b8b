import ContextBinding.Proofs.Provenance

/-! Operands that are asked for together, and one at a time. What is kept of the
 operands ahead can stand in for a walk that would have been cut short, and then shows
 paths that go round a loop. Apart from these the paths are the same, and each of them
 can be shortened to one that both questions show and that starts and ends alike. -/

namespace ContextBinding

namespace CodeView

variable {v : CodeView} {height : InstrId → Nat} {id : InstrId} {depth : Nat}

/-- A path goes round no loop, and does without one what another path does: it starts
and ends as that does and passes nothing else. -/
structure Shortens (v : CodeView) (id : InstrId) (depth : Nat) (short path : Path) : Prop where
  simple : ∃ trail, v.Derives id (depth, .beneath) trail short ∧ trail.Nodup
  within : short.instrs.Sublist path.instrs
  root : short.root? = path.root?
  source : short.source? = path.source?
  exact : short.exact = path.exact

/-- Whether a path is exact is settled by where it starts. -/
theorem Fills.exact_congr {need : Nat} {path path' : Path} (h : Fills height id need path)
    (h' : Fills height id need path') (hRoot : path'.root? = path.root?) :
    path'.exact = path.exact := by
  cases hStart : path.root? with
  | none => rw [(h.empty hStart).2, (h'.empty (hRoot.trans hStart)).2]
  | some root =>
      cases root with
      | caught entry => rw [h.caught entry hStart, h'.caught entry (hRoot.trans hStart)]
      | pushed a =>
          rw [Bool.eq_iff_iff, (h.pushed a hStart).2, (h'.pushed a (hRoot.trans hStart)).2]

/-- What is derived for a value can be shortened. -/
theorem Derives.exists_shortens {part : InstrId → Prop} (h : v.Retraceable part height)
    (hPart : part id) (hDepth : depth < height id) {trail : List WalkTask} {path : Path}
    (hDerives : v.Derives id (depth, .beneath) trail path) :
    ∃ short, v.Shortens id depth short path := by
  obtain ⟨trail', short, hShort, hNodup, hWithin, hRoot, hSource⟩ := hDerives.exists_simple
  have hExact := (hDerives.fills h hPart hDepth).exact_congr (hShort.fills h hPart hDepth) hRoot
  exact ⟨short, ⟨trail', hShort, hNodup⟩, hWithin, hRoot, hSource rfl, hExact⟩

section Slots

variable {effect : StackEffect} {slot : Nat} {groups : List (List Path)} {paths : List Path}

theorem operandDepth_ok (hEffect : v.effect id = .ok effect) (hSlot : slot < effect.pops) :
    v.operandDepth id slot = .ok (effect.pops - 1 - slot) := by
  refine Outcome.bind_ok.mpr ⟨effect, hEffect, ?_⟩
  rw [if_pos hSlot]
  rfl

/-- Operands that are asked for one at a time are found. -/
theorem operand_succeeds (hTrace : v.Retraceable v.Reachable height) (hReach : v.Reachable id)
    (hEffect : v.effect id = .ok effect) (hPops : effect.pops ≤ height id)
    (hSlot : slot < effect.pops) : ∃ paths, v.operand id slot = .ok paths := by
  have hBelow : effect.pops - 1 - slot < height id := by omega
  obtain ⟨paths, memo, hRun⟩ := valuePaths_succeeds hTrace hReach hBelow []
  exact ⟨paths, Outcome.bind_ok.mpr ⟨_, operandDepth_ok hEffect hSlot, Walk.run'_of_ok hRun⟩⟩

theorem operand_answers (hEffect : v.effect id = .ok effect) (hSlot : slot < effect.pops)
    (h : v.operand id slot = .ok paths) : v.Answers id (effect.pops - 1 - slot) paths := by
  obtain ⟨depth, hDepth, hRun⟩ := Outcome.bind_ok.mp h
  obtain rfl := Except.ok.inj ((operandDepth_ok hEffect hSlot).symm.trans hDepth)
  obtain ⟨memo, hRun⟩ := Walk.run'_ok.mp hRun
  exact (valuePaths_answers .nil hRun).2

/-- Operands that are asked for together are found. -/
theorem operands_succeeds (hTrace : v.Retraceable v.Reachable height) (hReach : v.Reachable id)
    (hEffect : v.effect id = .ok effect) (hPops : effect.pops ≤ height id) :
    ∃ groups, v.operands id = .ok groups := by
  have hEach : ∀ slot ∈ List.range effect.pops, ∀ memo, v.Recalls memo → ∃ paths memo',
      v.valuePaths id (effect.pops - 1 - slot) memo = .ok (paths, memo') ∧ v.Recalls memo' ∧
        v.Answers id (effect.pops - 1 - slot) paths := by
    intro slot hSlot memo hMemo
    have hBelow : effect.pops - 1 - slot < height id := by
      have hLt := List.mem_range.mp hSlot
      omega
    obtain ⟨paths, memo', hRun⟩ := valuePaths_succeeds hTrace hReach hBelow memo
    exact ⟨paths, memo', hRun, valuePaths_answers hMemo hRun⟩
  obtain ⟨groups, memo, hRuns, -⟩ := Recalls.nil.mapM_succeeds hEach
  exact ⟨groups, Outcome.bind_ok.mpr ⟨effect, hEffect, Walk.run'_of_ok hRuns⟩⟩

theorem operands_answers (hEffect : v.effect id = .ok effect) (h : v.operands id = .ok groups) :
    groups.length = effect.pops ∧ ∀ slot paths, groups[slot]? = some paths →
      v.Answers id (effect.pops - 1 - slot) paths := by
  obtain ⟨effect', hEffect', hRuns⟩ := Outcome.bind_ok.mp h
  obtain rfl : effect' = effect := Except.ok.inj (hEffect'.symm.trans hEffect)
  obtain ⟨memo, hRuns⟩ := Walk.run'_ok.mp hRuns
  have hEach : ∀ slot ∈ List.range effect'.pops, ∀ memo paths memo', v.Recalls memo →
      v.valuePaths id (effect'.pops - 1 - slot) memo = .ok (paths, memo') →
      v.Recalls memo' ∧ v.Answers id (effect'.pops - 1 - slot) paths :=
    fun _ _ _ _ _ hMemo hRun => valuePaths_answers hMemo hRun
  obtain ⟨-, hAnswers⟩ := Recalls.nil.mapM_ok hEach hRuns
  obtain ⟨hLength, hAt⟩ := List.forall₂_iff_get.mp hAnswers
  refine ⟨by rw [← hLength, List.length_range], fun slot paths hPaths => ?_⟩
  obtain ⟨hSlot, rfl⟩ := List.getElem?_eq_some_iff.mp hPaths
  have hSame := hAt slot (hLength ▸ hSlot) hSlot
  rwa [List.get_eq_getElem, List.getElem_range] at hSame

/-- Answers to one question differ in no path that goes round no loop, and what either
has beyond these is shortened by one of them. -/
theorem Answers.shortened {part : InstrId → Prop} (hTrace : v.Retraceable part height)
    (hPart : part id) (hDepth : depth < height id) {paths' : List Path}
    (h : v.Answers id depth paths) (h' : v.Answers id depth paths') {path : Path}
    (hPath : path ∈ paths ∨ path ∈ paths') :
    ∃ short, short ∈ paths ∧ short ∈ paths' ∧ v.Shortens id depth short path := by
  obtain ⟨trail, hDerives⟩ := hPath.elim (h.derived path) (h'.derived path)
  obtain ⟨short, hShortens⟩ := hDerives.exists_shortens hTrace hPart hDepth
  obtain ⟨trail', hSimple, hNodup⟩ := hShortens.simple
  exact ⟨short, h.complete _ _ hSimple hNodup, h'.complete _ _ hSimple hNodup, hShortens⟩

end Slots

end CodeView

namespace Query

variable {p : Program} {method : MethodId} {b : MethodBody} {cache cache' : FlowCache}
  {height : InstrId → Nat}

/-- In code with stack heights the paths of an operand are, loops apart, the same
whether it is asked for together with the others or on its own. Every path that goes
round no loop is among both, and each other one is shortened by one of these. Both
questions are answered if every instruction can be reached. -/
theorem operands_agree (hBody : p.body method = .ok b) (hCache : cache.Describes method b)
    (hCache' : cache'.Describes method b)
    (hHeights : (CodeView.ofBody p method b).HasHeights height) {id : InstrId}
    (hMem : id ∈ b.instructions.map (·.id)) {effect : StackEffect}
    (hEffect : (CodeView.ofBody p method b).effect id = .ok effect) {slot : Nat}
    (hSlot : slot < effect.pops) :
    ((∀ other ∈ b.instructions.map (·.id), (CodeView.ofBody p method b).Reachable other) →
      ∃ groups after paths after', operands p method id cache = .ok groups after ∧
        operand p method id slot cache' = .ok paths after') ∧
    ∀ groups after paths after', operands p method id cache = .ok groups after →
      operand p method id slot cache' = .ok paths after' →
      ∃ shared, groups[slot]? = some shared ∧
        (CodeView.ofBody p method b).Answers id (effect.pops - 1 - slot) shared ∧
        (CodeView.ofBody p method b).Answers id (effect.pops - 1 - slot) paths ∧
        ∀ path, path ∈ shared ∨ path ∈ paths → ∃ short, short ∈ shared ∧ short ∈ paths ∧
          (CodeView.ofBody p method b).Shortens id (effect.pops - 1 - slot) short path := by
  have hPops : effect.pops ≤ height id := hHeights.pops_le hEffect
  refine ⟨fun hReach => ?_, fun groups after paths after' hGroups hPaths => ?_⟩
  · have hTrace := hHeights.retraceable hReach
    obtain ⟨groups, hGroups⟩ := CodeView.operands_succeeds hTrace (hReach id hMem) hEffect hPops
    obtain ⟨paths, hPaths⟩ := CodeView.operand_succeeds hTrace (hReach id hMem) hEffect hPops hSlot
    obtain ⟨after, hAsk⟩ := ask_ok (fun v => v.operands id) hBody hCache hGroups
    obtain ⟨after', hAsk'⟩ := ask_ok (fun v => v.operand id slot) hBody hCache' hPaths
    exact ⟨groups, after, paths, after', hAsk, hAsk'⟩
  · obtain ⟨hCount, hAll⟩ := CodeView.operands_answers hEffect (of_ask_ok hBody hCache hGroups)
    have hShared := List.getElem?_eq_getElem (hCount ▸ hSlot)
    have hAnswers := hAll slot _ hShared
    have hAnswers' := CodeView.operand_answers hEffect hSlot (of_ask_ok hBody hCache' hPaths)
    -- Dead code is derived from as well, so that heights have to agree with all of the code.
    have hTrace : (CodeView.ofBody p method b).Retraceable (fun _ => True) height :=
      ⟨hHeights.on _, fun _ _ _ _ => trivial⟩
    exact ⟨_, hShared, hAnswers, hAnswers', fun path hPath =>
      hAnswers.shortened hTrace trivial (by omega) hAnswers' hPath⟩

end Query

/-- A loop that is left from two of its instructions, by a branch that duplicates the
value and by one that puts another on top of it. -/
def crossedLoop : MethodBody :=
  .ofParts [⟨⟨0⟩, .ldcI4, .int32 1⟩, ⟨⟨1⟩, .neg, .none⟩, ⟨⟨2⟩, .ldarg, .arg 0⟩,
    ⟨⟨3⟩, .brtrue, .target ⟨8⟩⟩, ⟨⟨4⟩, .not, .none⟩, ⟨⟨5⟩, .ldarg, .arg 0⟩,
    ⟨⟨6⟩, .brtrue, .target ⟨1⟩⟩, ⟨⟨7⟩, .br, .target ⟨10⟩⟩, ⟨⟨8⟩, .dup, .none⟩,
    ⟨⟨9⟩, .br, .target ⟨12⟩⟩, ⟨⟨10⟩, .neg, .none⟩, ⟨⟨11⟩, .ldcI4, .int32 5⟩, ⟨⟨12⟩, .add, .none⟩,
    ⟨⟨13⟩, .pop, .none⟩, ⟨⟨14⟩, .ret, .none⟩] [] []

/-- The stack heights of the loop with two exits. -/
def crossedHeight (id : InstrId) : Nat :=
  [0, 1, 1, 2, 1, 1, 2, 1, 1, 2, 1, 1, 2, 1, 0].getD id.index 0

/-- A program with the loop with two exits as the code of its only method. -/
def crossedProgram : Program :=
  { Program.empty with
    methods := [⟨⟨0⟩, "Loop", [⟨"flag", .bool⟩], .void, .ofList [.static], [], some crossedLoop⟩] }

theorem crossedLoop_traceable :
    (CodeView.ofBody crossedProgram ⟨0⟩ crossedLoop).Traceable crossedHeight :=
  CodeView.traceable_of_isTraceable rfl (by decide)

/-- The topmost operand of the addition after the loop is found together with the other
one and on its own, with the same paths up to loops. -/
theorem crossedLoop_agree : ∃ groups after paths after',
    Query.operands crossedProgram ⟨0⟩ ⟨12⟩ .empty = .ok groups after ∧
    Query.operand crossedProgram ⟨0⟩ ⟨12⟩ 1 .empty = .ok paths after' ∧
    ∃ shared, groups[1]? = some shared ∧
      (CodeView.ofBody crossedProgram ⟨0⟩ crossedLoop).Answers ⟨12⟩ 0 shared ∧
      (CodeView.ofBody crossedProgram ⟨0⟩ crossedLoop).Answers ⟨12⟩ 0 paths ∧
      ∀ path, path ∈ shared ∨ path ∈ paths → ∃ short, short ∈ shared ∧ short ∈ paths ∧
        (CodeView.ofBody crossedProgram ⟨0⟩ crossedLoop).Shortens ⟨12⟩ 0 short path := by
  have hEffect : (CodeView.ofBody crossedProgram ⟨0⟩ crossedLoop).effect ⟨12⟩ = .ok ⟨2, 1⟩ := rfl
  have hSlot : 1 < 2 := by decide
  obtain ⟨hSucceeds, hAgree⟩ := Query.operands_agree (p := crossedProgram) rfl (.empty _ _)
    (.empty _ _) crossedLoop_traceable.toHasHeights (by decide) hEffect hSlot
  obtain ⟨groups, after, paths, after', hGroups, hPaths⟩ :=
    hSucceeds crossedLoop_traceable.reachable
  exact ⟨groups, after, paths, after', hGroups, hPaths,
    hAgree groups after paths after' hGroups hPaths⟩

/-- The path that goes round the loop once before it leaves it. -/
def crossedRound : Path := ⟨[0, 1, 2, 3, 4, 5, 6, 1, 2, 3, 8].map InstrId.mk, none, false⟩

set_option maxRecDepth 2048 in
/-- Together with the other operand the topmost one is shown on a path round the loop
that it does not have on its own, and that every derivation passes some instruction on
twice with as many values owed. -/
theorem crossedLoop_slots_differ : ∃ groups after paths after' shared,
    Query.operands crossedProgram ⟨0⟩ ⟨12⟩ .empty = .ok groups after ∧
    Query.operand crossedProgram ⟨0⟩ ⟨12⟩ 1 .empty = .ok paths after' ∧
    groups[1]? = some shared ∧ crossedRound ∈ shared ∧ crossedRound ∉ paths ∧
    ∀ trail, (CodeView.ofBody crossedProgram ⟨0⟩ crossedLoop).Derives ⟨12⟩ (0, .beneath) trail
      crossedRound → ¬ trail.Nodup := by
  let v := CodeView.ofBody crossedProgram ⟨0⟩ crossedLoop
  let paths : List Path := [⟨[⟨11⟩], none, true⟩, ⟨[0, 1, 2, 3, 8].map InstrId.mk, none, false⟩]
  let exits : List Path := [⟨[0, 1, 2, 3, 4, 5, 6, 10].map InstrId.mk, none, true⟩,
    ⟨[0, 1, 2, 3, 8].map InstrId.mk, none, true⟩, { crossedRound with exact := true }]
  have hTogether : v.operands ⟨12⟩ = .ok [exits, paths ++ [crossedRound]] := rfl
  have hAlone : v.operand ⟨12⟩ 1 = .ok paths := rfl
  have hNew : crossedRound ∉ paths := by decide
  obtain ⟨after, hGroups⟩ := Query.ask_ok (p := crossedProgram) (fun v => v.operands ⟨12⟩) rfl
    (.empty _ _) hTogether
  obtain ⟨after', hPaths⟩ := Query.ask_ok (p := crossedProgram) (fun v => v.operand ⟨12⟩ 1) rfl
    (.empty _ _) hAlone
  refine ⟨_, after, paths, after', _, hGroups, hPaths, rfl,
    List.mem_append_right _ (List.mem_singleton_self _), hNew, fun trail hTrail hNodup => ?_⟩
  have hEffect : v.effect ⟨12⟩ = .ok ⟨2, 1⟩ := rfl
  have hAnswers := CodeView.operand_answers hEffect (by decide) hAlone
  exact hNew (hAnswers.complete trail crossedRound hTrail hNodup)

end ContextBinding
