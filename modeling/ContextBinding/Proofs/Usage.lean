import ContextBinding.Proofs.Exploration
import ContextBinding.Proofs.Operands

/-! Uses and origins are two readings of one relation. The forward walk meets a value
 that an instruction pushed in exactly the places where the backward walk finds that
 instruction as its origin. -/

namespace ContextBinding

namespace FlowIndex

theorem length_foldl_insertNew_le {α : Type} [DecidableEq α] (l acc : List α) :
    (l.foldl insertNew acc).length ≤ acc.length + l.length := by
  induction l generalizing acc with
  | nil => exact Nat.le_refl _
  | cons a l ih =>
      have hOne : (insertNew acc a).length ≤ acc.length + 1 := by
        unfold insertNew
        split <;> simp
      have hRest := ih (insertNew acc a)
      rw [List.foldl_cons, List.length_cons]
      omega

/-- Where edges start, once for each edge. -/
def sources (index : FlowIndex) : List InstrId := (index.steps ++ index.jumps).map (·.1)

theorem length_sources (index : FlowIndex) : index.sources.length = index.edgeCount := by
  simp [sources, edgeCount]

theorem length_successors_le (index : FlowIndex) (id : InstrId) :
    (index.successors id).length ≤ index.sources.count id := by
  have hCount (edges : List (InstrId × InstrId)) : (edges.map (·.1)).count id =
      ((edges.filter fun edge => edge.1 == id).map (·.2)).length := by
    rw [List.length_map, List.count_eq_countP, List.countP_map, List.countP_eq_length_filter]
    rfl
  rw [sources, List.map_append, List.count_append, hCount, hCount]
  exact length_foldl_insertNew_le _ _

end FlowIndex

theorem Path.source?_eq_pushed {path : Path} {id : InstrId} :
    path.source? = some (.pushed id) ↔ path.producer? = some id := by
  unfold source?
  cases path.producer? <;> cases path.caught <;> simp

namespace CodeView

variable {v : CodeView} {height : InstrId → Nat} {id : InstrId}

/-- Whether an instruction leaves is read off it. -/
theorem leaves_iff {i : Instruction} (hInstr : v.instr id = .ok i) :
    v.Leaves id ↔ i.opcode = .leave := by
  refine ⟨?_, fun h => ⟨i, hInstr, h⟩⟩
  rintro ⟨i', hInstr', hLeave⟩
  obtain rfl : i' = i := Except.ok.inj (hInstr'.symm.trans hInstr)
  exact hLeave

theorem Traces.mem_order (h : v.HasHeights height) {c : InstrId} {depth : Nat}
    (hTraces : v.Traces (.pushed id) c depth) : c ∈ v.index.order := by
  cases hTraces with
  | pushed hFlow => exact h.targets _ _ hFlow
  | passed _ hFlow => exact h.targets _ _ hFlow

/-- A value that an instruction pushed is at a depth that the height accounts for. -/
def Follows (v : CodeView) (height : InstrId → Nat) (id : InstrId) (spot : InstrId × Nat) : Prop :=
  v.Traces (.pushed id) spot.1 spot.2 ∧ spot.2 < height spot.1

/-- Where a value goes next, if it is not taken. -/
theorem carry_ok {spot : InstrId × Nat} {effect : StackEffect}
    (hEffect : v.effect spot.1 = .ok effect) :
    ∃ l, v.carry spot = .ok l ∧ l.length ≤ (v.index.successors spot.1).length ∧
      ∀ next, next ∈ l ↔ ¬ v.Leaves spot.1 ∧ effect.pops ≤ spot.2 ∧
        next.1 ∈ v.index.successors spot.1 ∧ next.2 = spot.2 - effect.pops + effect.pushes := by
  obtain ⟨i, hInstr, -⟩ := Outcome.bind_ok.mp hEffect
  unfold carry
  rw [hInstr, hEffect, leaves_iff hInstr]
  by_cases hLeave : i.opcode = .leave
  · exact ⟨[], by simp [bind, Except.bind, pure, Except.pure, hLeave], Nat.zero_le _,
      by simp [hLeave]⟩
  · by_cases hTaken : spot.2 < effect.pops
    · exact ⟨[], by simp [bind, Except.bind, pure, Except.pure, hLeave, hTaken], Nat.zero_le _,
        by simp [hTaken]⟩
    · refine ⟨(v.index.successors spot.1).map fun b => (b, spot.2 - effect.pops + effect.pushes),
        by simp [bind, Except.bind, pure, Except.pure, hLeave, hTaken],
        (List.length_map ..).le, fun next => ?_⟩
      simp only [List.mem_map, hLeave, not_false_eq_true, Nat.not_lt.mp hTaken, true_and]
      constructor
      · rintro ⟨b, hFlow, rfl⟩
        exact ⟨hFlow, rfl⟩
      · rintro ⟨hFlow, hDepth⟩
        exact ⟨next.1, hFlow, Prod.ext rfl hDepth.symm⟩

/-- A value that goes on stays among those that the height accounts for. -/
theorem Follows.next (h : v.HasHeights height) {spot next : InstrId × Nat}
    (hSpot : v.Follows height id spot) {effect : StackEffect}
    (hEffect : v.effect spot.1 = .ok effect) (hStays : ¬ v.Leaves spot.1)
    (hDepth : effect.pops ≤ spot.2) (hFlow : next.1 ∈ v.index.successors spot.1)
    (hNext : next.2 = spot.2 - effect.pops + effect.pushes) : v.Follows height id next := by
  obtain ⟨b, depth⟩ := next
  obtain rfl : depth = _ := hNext
  refine ⟨.passed hSpot.1 hFlow hEffect hDepth, ?_⟩
  have hHeight := h.flow _ _ _ hFlow hStays hEffect
  have hBelow := hSpot.2
  simp only at hHeight ⊢
  omega

/-- The depths at which a value can be met ahead of where an edge starts. -/
def spots (v : CodeView) : List (InstrId × Nat) :=
  v.index.sources ×ˢ List.range (v.traffic + 1)

theorem length_spots (v : CodeView) : v.spots.length = v.index.edgeCount * (v.traffic + 1) := by
  rw [spots, List.length_product, FlowIndex.length_sources, List.length_range]

theorem count_sources_le (v : CodeView) {depth : Nat} (hDepth : depth ≤ v.traffic) :
    v.index.sources.count id ≤ allowance (v.spots.map fun spot => (spot, 1)) (id, depth) := by
  rw [allowance_map_one]
  unfold spots
  induction v.index.sources with
  | nil => exact Nat.zero_le _
  | cons a sources ih =>
      rw [List.product_cons, List.countP_append, List.count_cons]
      by_cases hSame : a = id
      · subst hSame
        have hMem : (a, depth) ∈ (List.range (v.traffic + 1)).map fun depth => (a, depth) :=
          List.mem_map_of_mem (List.mem_range.mpr (Nat.lt_succ_of_le hDepth))
        rw [if_pos (beq_self_eq_true a), Nat.add_comm]
        exact Nat.add_le_add (List.countP_pos_iff.mpr ⟨_, hMem, decide_eq_true rfl⟩) ih
      · rw [if_neg (by simpa using hSame)]
        exact ih.trans (Nat.le_add_left _ _)

/-- Leaving takes nothing off the stack by itself. -/
theorem effect_of_leaves (hLeaves : v.Leaves id) {effect : StackEffect}
    (hEffect : v.effect id = .ok effect) : effect = ⟨0, 0⟩ := by
  obtain ⟨i, hInstr, hLeave⟩ := hLeaves
  obtain ⟨i', hInstr', hStack⟩ := Outcome.bind_ok.mp hEffect
  obtain rfl : i' = i := Except.ok.inj (hInstr'.symm.trans hInstr)
  rw [Program.stackEffect, hLeave] at hStack
  exact (Except.ok.inj hStack).symm

/-- What an instruction pushes is followed from the instructions after it. -/
theorem Follows.pushed (h : v.HasHeights height) {effect : StackEffect}
    (hEffect : v.effect id = .ok effect) {spot : InstrId × Nat}
    (hFlow : spot.1 ∈ v.index.successors id) (hDepth : spot.2 < effect.pushes) :
    v.Follows height id spot := by
  refine ⟨.pushed hFlow hEffect hDepth, ?_⟩
  have hStays : ¬ v.Leaves id := by
    intro hLeaves
    rw [effect_of_leaves hLeaves hEffect] at hDepth
    exact Nat.not_lt_zero _ hDepth
  have hHeight := h.flow _ _ _ hFlow hStays hEffect
  omega

/-- Whatever is met of a value that an instruction pushed, what it goes on to is met
as well, and there is not too much of it. -/
theorem Follows.carry (h : v.HasHeights height) (hReach : ∀ id ∈ v.index.order, v.Reachable id)
    {spot : InstrId × Nat} (hSpot : v.Follows height id spot) :
    ∃ l, v.carry spot = .ok l ∧ (∀ next ∈ l, v.Follows height id next) ∧
      l.length ≤ allowance (v.spots.map fun spot => (spot, 1)) spot := by
  have hMem := hSpot.1.mem_order h
  obtain ⟨effect, hEffect, -⟩ := h.effects _ hMem
  obtain ⟨l, hCarry, hLength, hIff⟩ := carry_ok hEffect
  refine ⟨l, hCarry, fun next hNext => ?_, ?_⟩
  · obtain ⟨hStays, hDepth, hFlow, hAt⟩ := (hIff next).mp hNext
    exact hSpot.next h hEffect hStays hDepth hFlow hAt
  · have hHeight := (h.on v.Reachable).height_le_traffic (hReach _ hMem)
    have hDepth : spot.2 ≤ v.traffic := Nat.le_of_lt_succ (hSpot.2.trans_le hHeight)
    exact hLength.trans ((v.index.length_successors_le _).trans (v.count_sources_le hDepth))

/-- A set of places that a value starts at and that holds wherever it goes on to
holds all places where it can be. -/
theorem Traces.mem_of_closed (h : v.HasHeights height) {effect : StackEffect}
    (hEffect : v.effect id = .ok effect) {visited : List (InstrId × Nat)}
    (hStart : ∀ next ∈ v.index.successors id, ∀ depth < effect.pushes, (next, depth) ∈ visited)
    (hClosed : ∀ spot ∈ visited, ∃ l, v.carry spot = .ok l ∧ ∀ next ∈ l, next ∈ visited)
    {c : InstrId} {depth : Nat} (hTraces : v.Traces (.pushed id) c depth)
    (hBelow : depth < height c) : (c, depth) ∈ visited := by
  generalize hOrigin : Origin.pushed id = o at hTraces
  induction hTraces with
  | caught => cases hOrigin
  | pushed hFlow hPush hDepth =>
      obtain rfl := Origin.pushed.inj hOrigin
      obtain rfl := Except.ok.inj (hPush.symm.trans hEffect)
      exact hStart _ hFlow _ hDepth
  | @passed o a b depth passing _ hFlow hPass hDepth ih =>
      -- Only what is beneath an emptied stack could come over an edge from a `leave`.
      have hStays : ¬ v.Leaves a := by
        intro hLeaves
        rw [h.left _ _ hFlow hLeaves] at hBelow
        exact Nat.not_lt_zero _ hBelow
      obtain ⟨passing', hPass', hPops⟩ := h.effects a (h.mem_order hFlow)
      obtain rfl := Except.ok.inj (hPass'.symm.trans hPass)
      have hHeight := h.flow _ _ _ hFlow hStays hPass
      obtain ⟨l, hCarry, hLed⟩ := hClosed (a, depth) (ih (by omega) hOrigin)
      obtain ⟨l', hCarry', -, hIff⟩ := carry_ok (show v.effect (a, depth).1 = _ from hPass)
      obtain rfl : l' = l := Except.ok.inj (hCarry'.symm.trans hCarry)
      exact hLed _ ((hIff _).mpr ⟨hStays, hDepth, hFlow, rfl⟩)

/-- The forward walk from an instruction meets every place where a value that it
pushed can be, and no other. -/
theorem explore_carry (h : v.HasHeights height) (hReach : ∀ id ∈ v.index.order, v.Reachable id)
    {effect : StackEffect} (hEffect : v.effect id = .ok effect) {fuel : Nat}
    {start : List (InstrId × Nat)} (hFuel : start.length + v.spots.length ≤ fuel)
    (hStart : ∀ spot, spot ∈ start ↔ spot.1 ∈ v.index.successors id ∧ spot.2 < effect.pushes) :
    ∃ visited, explore v.carry fuel [] start = .ok visited ∧
      ∀ spot, spot ∈ visited ↔ v.Follows height id spot := by
  let counts := v.spots.map fun spot => (spot, 1)
  have hFrom (spot : InstrId × Nat) (hMem : spot ∈ start) : v.Follows height id spot :=
    have hSpot := (hStart spot).mp hMem
    Follows.pushed h hEffect hSpot.1 hSpot.2
  have hNext (spot : InstrId × Nat) (hSpot : v.Follows height id spot) :
      ∃ l, v.carry spot = .ok l ∧ ∀ next ∈ l, v.Follows height id next := by
    obtain ⟨l, hCarry, hLed, -⟩ := hSpot.carry h hReach
    exact ⟨l, hCarry, hLed⟩
  have hCounts (spot : InstrId × Nat) (l : List (InstrId × Nat)) (hSpot : v.Follows height id spot)
      (hCarry : v.carry spot = .ok l) :
      l.length ≤ allowance counts spot ∧ ∀ next ∈ l, v.Follows height id next := by
    obtain ⟨l', hCarry', hLed, hLength⟩ := hSpot.carry h hReach
    obtain rfl : l' = l := Except.ok.inj (hCarry'.symm.trans hCarry)
    exact ⟨hLength, hLed⟩
  have hSum : unseenAllowance counts [] = v.spots.length := by
    simp [unseenAllowance_nil, counts, Function.comp_def]
  have hNone : ∀ spot ∈ ([] : List (InstrId × Nat)), v.Follows height id spot := by simp
  obtain ⟨visited, hRun, hSound⟩ := explore_within hNext hNone hFrom
  obtain ⟨hHeld, hClosed⟩ := explore_closed hCounts hFrom hRun (hSum ▸ hFuel)
  refine ⟨visited, hRun, fun spot => ⟨hSound spot, fun hSpot => ?_⟩⟩
  refine hSpot.1.mem_of_closed h hEffect (fun next hFlow depth hDepth => ?_) ?_ hSpot.2
  · exact hHeld _ (Or.inl ((hStart _).mpr ⟨hFlow, hDepth⟩))
  · exact fun spot hMem => (hClosed spot hMem).resolve_left List.not_mem_nil

/-- An instruction takes a value that is not beneath what it takes. -/
theorem usageAt?_iff {c : InstrId} {depth : Nat} {effect : StackEffect}
    (hEffect : v.effect c = .ok effect) (hStays : ¬ v.Leaves c) {u : Usage} :
    v.usageAt? (c, depth) = some u ↔
      depth < effect.pops ∧ u = ⟨c, effect.pops - 1 - depth⟩ := by
  obtain ⟨i, hInstr, -⟩ := Outcome.bind_ok.mp hEffect
  rw [leaves_iff hInstr] at hStays
  unfold usageAt?
  simp only [hInstr, hEffect, if_neg hStays]
  split <;> simp_all [eq_comm]

theorem consumer_of_usageAt? {c : InstrId} {depth : Nat} {u : Usage}
    (h : v.usageAt? (c, depth) = some u) : c = u.consumer := by
  unfold usageAt? at h
  grind

/-- The uses of an instruction are the places where a value that it pushed is taken,
apart from where the stack is emptied. -/
theorem usage_ok (h : v.HasHeights height) (hReach : ∀ id ∈ v.index.order, v.Reachable id)
    (hMem : id ∈ v.index.order) :
    ∃ usages, v.usage id = .ok usages ∧ ∀ c slot effect, v.effect c = .ok effect →
      ¬ v.Leaves c → effect.pops ≤ height c → (⟨c, slot⟩ ∈ usages ↔
        slot < effect.pops ∧ v.Traces (.pushed id) c (effect.pops - 1 - slot)) := by
  obtain ⟨effect, hEffect, -⟩ := h.effects id hMem
  let start := (List.range effect.pushes).flatMap fun depth =>
    (v.index.successors id).map fun next => (next, depth)
  have hStart (spot : InstrId × Nat) :
      spot ∈ start.reverse ↔ spot.1 ∈ v.index.successors id ∧ spot.2 < effect.pushes := by
    simp only [start, List.mem_reverse, List.mem_flatMap, List.mem_range, List.mem_map]
    constructor
    · rintro ⟨depth, hDepth, next, hFlow, rfl⟩
      exact ⟨hFlow, hDepth⟩
    · rintro ⟨hFlow, hDepth⟩
      exact ⟨spot.2, hDepth, spot.1, hFlow, rfl⟩
  have hFuel : start.reverse.length + v.spots.length ≤
      v.walkBound effect.pushes + start.length := by
    have hEdges : v.index.edgeCount * (v.traffic + 1) ≤
        v.walkBound effect.pushes := by
      refine Nat.mul_le_mul (by omega) ?_
      have hOnce : v.traffic + 1 ≤ (v.index.size + v.index.edgeCount + 1) * (v.traffic + 1) :=
        Nat.le_mul_of_pos_left _ (Nat.succ_pos _)
      omega
    rw [List.length_reverse, length_spots]
    omega
  obtain ⟨visited, hRun, hVisited⟩ := explore_carry h hReach hEffect hFuel hStart
  refine ⟨v.sortUsages (visited.reverse.filterMap v.usageAt?), ?_, ?_⟩
  · refine Outcome.bind_ok.mpr ⟨effect, hEffect, ?_⟩
    exact Outcome.bind_ok.mpr ⟨visited, hRun, rfl⟩
  · intro c slot taking hTaking hStays hPops
    unfold sortUsages
    rw [mem_dedupAdjacent, mem_sortOrdered, List.mem_filterMap]
    simp only [List.mem_reverse, hVisited]
    constructor
    · rintro ⟨⟨place, depth⟩, ⟨hTraces, -⟩, hUsage⟩
      obtain rfl : place = c := consumer_of_usageAt? hUsage
      obtain ⟨hDepth, hSlot⟩ := (usageAt?_iff hTaking hStays).mp hUsage
      obtain rfl := (Usage.mk.inj hSlot).2
      refine ⟨by omega, ?_⟩
      rwa [show taking.pops - 1 - (taking.pops - 1 - depth) = depth by omega]
    · rintro ⟨hSlot, hTraces⟩
      refine ⟨(c, taking.pops - 1 - slot), ⟨hTraces, ?_⟩, (usageAt?_iff hTaking hStays).mpr ⟨?_, ?_⟩⟩
      · show taking.pops - 1 - slot < height c
        omega
      · omega
      · rw [show taking.pops - 1 - (taking.pops - 1 - slot) = slot by omega]

/-- The operands of an instruction are the values that it takes, the deepest first,
and the paths of each end in what can have pushed it. -/
theorem operands_ok (hTrace : v.Traceable height) {c : InstrId} (hMem : c ∈ v.index.order)
    {effect : StackEffect} (hEffect : v.effect c = .ok effect) (hPops : effect.pops ≤ height c) :
    ∃ slots, v.operands c = .ok slots ∧ ∀ slot o, (∃ paths, slots[slot]? = some paths ∧
        ∃ path ∈ paths, path.source? = some o) ↔
      slot < effect.pops ∧ v.Traces o c (effect.pops - 1 - slot) := by
  have hReach := hTrace.reachable c hMem
  obtain ⟨slots, hSlots⟩ :=
    operands_succeeds (hTrace.retraceable hTrace.reachable) hReach hEffect hPops
  obtain ⟨hCount, hAnswers⟩ := operands_answers hEffect hSlots
  have hOrigins {slot : Nat} {paths : List Path} (hPaths : slots[slot]? = some paths)
      (hSlot : slot < effect.pops) (o : Origin) :
      some o ∈ paths.map Path.source? ↔ v.Traces o c (effect.pops - 1 - slot) :=
    (hAnswers slot paths hPaths).mem_sources_iff hTrace hReach (by omega)
  refine ⟨slots, hSlots, fun slot o => ⟨?_, ?_⟩⟩
  · rintro ⟨paths, hPaths, path, hPath, hSource⟩
    have hSlot : slot < effect.pops := hCount ▸ (List.getElem?_eq_some_iff.mp hPaths).1
    exact ⟨hSlot, (hOrigins hPaths hSlot o).mp (List.mem_map.mpr ⟨path, hPath, hSource⟩)⟩
  · rintro ⟨hSlot, hTraces⟩
    have hPaths := List.getElem?_eq_getElem (hCount.symm ▸ hSlot)
    obtain ⟨path, hPath, hSource⟩ := List.mem_map.mp ((hOrigins hPaths hSlot o).mpr hTraces)
    exact ⟨_, hPaths, path, hPath, hSource⟩

end CodeView

namespace Query

variable {p : Program} {method : MethodId} {b : MethodBody} {cache cache' : FlowCache}
  {height : InstrId → Nat}

/-- In code with stack heights, an instruction uses a value in a slot exactly if the
paths of that operand show that the value was pushed where it was asked for. -/
theorem mem_usage_iff (hBody : p.body method = .ok b) (hCache : cache.Describes method b)
    (hCache' : cache'.Describes method b) (hTrace : (CodeView.ofBody p method b).Traceable height)
    {id c : InstrId} (hProducer : id ∈ b.instructions.map (·.id))
    (hConsumer : c ∈ b.instructions.map (·.id)) (hStays : ¬ (CodeView.ofBody p method b).Leaves c) :
    ∃ usages after, usage p method id cache = .ok usages after ∧
      ∃ slots after', operands p method c cache' = .ok slots after' ∧
        ∀ slot, ⟨c, slot⟩ ∈ usages ↔
          ∃ paths, slots[slot]? = some paths ∧ ∃ path ∈ paths, path.producer? = some id := by
  obtain ⟨effect, hEffect, hPops⟩ := hTrace.effects c hConsumer
  obtain ⟨usages, hUsages, hUses⟩ :=
    CodeView.usage_ok hTrace.toHasHeights hTrace.reachable hProducer
  obtain ⟨slots, hSlots, hOrigins⟩ := CodeView.operands_ok hTrace hConsumer hEffect hPops
  obtain ⟨after, hUsage⟩ := ask_ok (fun v => v.usage id) hBody hCache hUsages
  obtain ⟨after', hOperands⟩ := ask_ok (fun v => v.operands c) hBody hCache' hSlots
  refine ⟨usages, after, hUsage, slots, after', hOperands, fun slot => ?_⟩
  rw [hUses c slot effect hEffect hStays hPops, ← hOrigins]
  simp only [Path.source?_eq_pushed]

end Query

/-- The branch at the end of the loop takes what the duplication in it pushed. -/
theorem loopedValue_usage :
    ∃ usages after, Query.usage loopedProgram ⟨0⟩ ⟨5⟩ .empty = .ok usages after ∧
      ∃ slots after', Query.operands loopedProgram ⟨0⟩ ⟨6⟩ .empty = .ok slots after' ∧
        ∀ slot, ⟨⟨6⟩, slot⟩ ∈ usages ↔
          ∃ paths, slots[slot]? = some paths ∧ ∃ path ∈ paths, path.producer? = some ⟨5⟩ := by
  have hStays : ¬ (CodeView.ofBody loopedProgram ⟨0⟩ loopedValue).Leaves ⟨6⟩ := by
    rintro ⟨i, hInstr, hLeave⟩
    cases hInstr
    cases hLeave
  exact Query.mem_usage_iff rfl (.empty _ _) (.empty _ _) loopedValue_traceable (by decide)
    (by decide) hStays

end ContextBinding
