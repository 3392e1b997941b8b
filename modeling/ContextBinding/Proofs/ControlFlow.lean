import ContextBinding.Proofs.Splice

/-! The flow index of a body holds its control flow: the edges over which control falls through
 and those over which it jumps, from both ends. Each edge is kept once, and the lists of
 predecessors are in order. -/

namespace ContextBinding

namespace MethodBody

/-- Control falls through from `a` to `y`, the instruction behind it. -/
def FallsTo (b : MethodBody) (a y : InstrId) : Prop :=
  ∃ position i j, b.instructions[position]? = some i ∧ b.instructions[position + 1]? = some j ∧
    i.opcode.fallsThrough = true ∧ i.id = a ∧ j.id = y

/-- Control jumps from `a`, a branch or a switch, to its target `y`. -/
def JumpsTo (b : MethodBody) (a y : InstrId) : Prop :=
  ∃ i ∈ b.instructions, i.opcode.isBranch = true ∧ i.id = a ∧ y ∈ i.targetIds

end MethodBody

namespace FlowIndex

section Collecting

variable {α : Type} [DecidableEq α]

theorem nodup_foldl_insertNew {l acc : List α} (h : acc.Nodup) : (l.foldl insertNew acc).Nodup := by
  induction l generalizing acc with
  | nil => exact h
  | cons a l ih =>
      refine ih ?_
      unfold insertNew
      split
      · exact h
      · rename_i hNew
        exact List.nodup_append_comm.mp (List.nodup_cons.mpr ⟨hNew, h⟩)

/-- Repeated entries are collected once at most. -/
theorem foldl_insertNew_repeated {a : α} {l : List α} (hSame : ∀ b ∈ l, b = a) (acc : List α) :
    l.foldl insertNew acc = acc ∨ l.foldl insertNew acc = acc ++ [a] := by
  have hKept {l acc : List α} (hSame : ∀ b ∈ l, b = a) (hMem : a ∈ acc) :
      l.foldl insertNew acc = acc := by
    induction l with
    | nil => rfl
    | cons b l ih =>
        obtain rfl := hSame b (List.mem_cons_self ..)
        rw [List.foldl_cons, insertNew, if_pos hMem]
        exact ih fun c hMem => hSame c (List.mem_cons_of_mem _ hMem)
  cases l with
  | nil => exact Or.inl rfl
  | cons b l =>
      obtain rfl := hSame b (List.mem_cons_self ..)
      have hRest : ∀ c ∈ l, c = b := fun c hMem => hSame c (List.mem_cons_of_mem _ hMem)
      by_cases hMem : b ∈ acc
      · exact Or.inl (hKept hSame hMem)
      · right
        rw [List.foldl_cons, insertNew, if_neg hMem]
        exact hKept hRest (List.mem_append_right _ (List.mem_singleton_self b))

theorem nodup_of_length_le_one {l : List α} (h : l.length ≤ 1) : l.Nodup :=
  List.nodup_iff_count_le_one.mpr fun _ => List.count_le_length.trans h

/-- Of entries whose keys are distinct, one at most has a given key. -/
theorem length_filter_le_one {β : Type} {entries : List β} {key : β → α}
    (hDistinct : (entries.map key).Nodup) (a : α) :
    (entries.filter fun e => key e == a).length ≤ 1 := by
  rw [← List.countP_eq_length_filter, ← Function.comp_def (· == a) key, ← List.countP_map]
  exact List.nodup_iff_count_le_one.mp hDistinct a

end Collecting

section Edges

variable {code : List Instruction} {b : MethodBody} {a y : InstrId}

theorem mem_stepsOf : (a, y) ∈ stepsOf code ↔
    ∃ position i j, code[position]? = some i ∧ code[position + 1]? = some j ∧
      i.opcode.fallsThrough = true ∧ i.id = a ∧ j.id = y := by
  fun_induction stepsOf code with
  | case1 first second rest hFalls ih =>
      rw [List.mem_cons, ih]
      constructor
      · rintro (hHere | ⟨position, hLater⟩)
        · obtain ⟨rfl, rfl⟩ := Prod.mk.inj hHere
          exact ⟨0, first, second, rfl, rfl, hFalls, rfl, rfl⟩
        · exact ⟨position + 1, hLater⟩
      · rintro ⟨position, i, j, hAt, hNext, hEdge⟩
        cases position with
        | zero =>
            obtain rfl := Option.some_inj.mp hAt
            obtain rfl := Option.some_inj.mp hNext
            exact Or.inl (Prod.ext hEdge.2.1.symm hEdge.2.2.symm)
        | succ position => exact Or.inr ⟨position, i, j, hAt, hNext, hEdge⟩
  | case2 first second rest hStops ih =>
      rw [ih]
      constructor
      · rintro ⟨position, hLater⟩
        exact ⟨position + 1, hLater⟩
      · rintro ⟨position, i, j, hAt, hNext, hEdge⟩
        cases position with
        | zero =>
            obtain rfl := Option.some_inj.mp hAt
            exact absurd hEdge.1 hStops
        | succ position => exact ⟨position, i, j, hAt, hNext, hEdge⟩
  | case3 code hShort =>
      constructor
      · intro h
        cases h
      · rintro ⟨position, i, j, -, hNext, -⟩
        obtain ⟨hBound, -⟩ := List.getElem?_eq_some_iff.mp hNext
        rcases code with _ | ⟨first, _ | ⟨second, rest⟩⟩
        · simp at hBound
        · simp at hBound
        · exact (hShort first second rest rfl).elim

theorem mem_steps : (a, y) ∈ (build b).steps ↔ b.FallsTo a y := mem_stepsOf

theorem mem_jumps : (a, y) ∈ (build b).jumps ↔ b.JumpsTo a y := by
  change (a, y) ∈ b.instructions.flatMap jumpsFrom ↔ _
  rw [List.mem_flatMap]
  refine exists_congr fun i => and_congr_right fun _ => ?_
  unfold jumpsFrom
  split
  · rename_i hBranch
    simp only [List.mem_map, Prod.mk.injEq, hBranch, true_and]
    constructor
    · rintro ⟨target, hTarget, hSource, rfl⟩
      exact ⟨hSource, hTarget⟩
    · exact fun ⟨hSource, hTarget⟩ => ⟨y, hTarget, hSource, rfl⟩
  · rename_i hOther
    simp [hOther]

/-- Control flow as the index has it, read from where it starts. -/
theorem mem_successors_build : y ∈ (build b).successors a ↔ b.FallsTo a y ∨ b.JumpsTo a y := by
  rw [mem_successors, mem_steps, mem_jumps]

/-- No two steps start at one place. -/
theorem stepsOf_map_fst_sublist (code : List Instruction) :
    ((stepsOf code).map (·.1)).Sublist (code.map (·.id)) := by
  fun_induction stepsOf code with
  | case1 first second rest _ ih => exact ih.cons_cons first.id
  | case2 first second rest _ ih => exact ih.cons first.id
  | case3 => exact List.nil_sublist _

/-- No two steps end at one place. -/
theorem stepsOf_map_snd_sublist (first : Instruction) (rest : List Instruction) :
    ((stepsOf (first :: rest)).map (·.2)).Sublist (rest.map (·.id)) := by
  induction rest generalizing first with
  | nil => exact List.nil_sublist _
  | cons second rest ih =>
      rw [stepsOf]
      split
      · exact (ih second).cons_cons second.id
      · exact (ih second).cons second.id

theorem nodup_steps_fst (hDistinct : (b.instructions.map (·.id)).Nodup) :
    ((build b).steps.map (·.1)).Nodup :=
  (stepsOf_map_fst_sublist b.instructions).nodup hDistinct

theorem nodup_steps_snd (hDistinct : (b.instructions.map (·.id)).Nodup) :
    ((build b).steps.map (·.2)).Nodup := by
  change ((stepsOf b.instructions).map (·.2)).Nodup
  cases hCode : b.instructions with
  | nil => exact List.nodup_nil
  | cons first rest =>
      rw [hCode] at hDistinct
      exact (stepsOf_map_snd_sublist first rest).nodup (List.nodup_cons.mp hDistinct).2

/-- What jumps to `y` is put behind what is known, in the order of the code. -/
theorem collect_jumps (code : List Instruction) (y : InstrId) (acc : List InstrId) :
    ∃ sources, (((code.flatMap jumpsFrom).filter fun edge => edge.2 == y).map (·.1)).foldl
        insertNew acc = acc ++ sources ∧ sources.Sublist (code.map (·.id)) := by
  induction code generalizing acc with
  | nil => exact ⟨[], (List.append_nil acc).symm, List.nil_sublist _⟩
  | cons i code ih =>
      have hSame : ∀ c ∈ ((jumpsFrom i).filter fun edge => edge.2 == y).map (·.1), c = i.id := by
        intro c hMem
        obtain ⟨edge, hEdge, rfl⟩ := List.mem_map.mp hMem
        have hFrom := (List.mem_filter.mp hEdge).1
        unfold jumpsFrom at hFrom
        split at hFrom
        · obtain ⟨target, -, rfl⟩ := List.mem_map.mp hFrom
          rfl
        · cases hFrom
      rw [List.flatMap_cons, List.filter_append, List.map_append, List.foldl_append]
      rcases foldl_insertNew_repeated hSame acc with hOld | hNew
      · obtain ⟨sources, hSources, hOrder⟩ := ih acc
        exact ⟨sources, by rw [hOld, hSources], hOrder.cons i.id⟩
      · obtain ⟨sources, hSources, hOrder⟩ := ih (acc ++ [i.id])
        refine ⟨i.id :: sources, ?_, hOrder.cons_cons i.id⟩
        rw [hNew, hSources, List.append_assoc, List.singleton_append]

/-- The edges of the index that end in `y`, by where they start. -/
theorem mem_sources {edges : List (InstrId × InstrId)} :
    a ∈ (edges.filter fun edge => edge.2 == y).map (·.1) ↔ (a, y) ∈ edges := by
  simp only [List.mem_map, List.mem_filter, beq_iff_eq]
  constructor
  · rintro ⟨⟨_, _⟩, ⟨hEdge, rfl⟩, rfl⟩
    exact hEdge
  · exact fun hEdge => ⟨_, ⟨hEdge, rfl⟩, rfl⟩

theorem nodup_successors (hDistinct : (b.instructions.map (·.id)).Nodup) (a : InstrId) :
    ((build b).successors a).Nodup := by
  refine nodup_foldl_insertNew (nodup_of_length_le_one ?_)
  rw [List.length_map]
  exact length_filter_le_one (nodup_steps_fst hDistinct) a

/-- The predecessor that falls through stands first, then come the others that jump, in order. -/
theorem predecessors_build (hDistinct : (b.instructions.map (·.id)).Nodup) (y : InstrId) :
    ∃ falls jumps, (build b).predecessors y = falls ++ jumps ∧ (falls ++ jumps).Nodup ∧
      falls.length ≤ 1 ∧ (∀ a, a ∈ falls ↔ b.FallsTo a y) ∧
      (∀ a, a ∈ jumps ↔ b.JumpsTo a y ∧ ¬ b.FallsTo a y) ∧
      jumps.Sublist (b.instructions.map (·.id)) := by
  let falls := ((build b).steps.filter fun edge => edge.2 == y).map (·.1)
  have hFalls (a : InstrId) : a ∈ falls ↔ b.FallsTo a y := mem_sources.trans mem_steps
  have hShort : falls.length ≤ 1 := by
    rw [List.length_map]
    exact length_filter_le_one (nodup_steps_snd hDistinct) y
  obtain ⟨jumps, hJumps, hOrder⟩ := collect_jumps b.instructions y falls
  have hPredecessors : (build b).predecessors y = falls ++ jumps := hJumps
  have hOnce : (falls ++ jumps).Nodup := by
    rw [← hPredecessors]
    exact nodup_foldl_insertNew (nodup_of_length_le_one hShort)
  refine ⟨falls, jumps, hPredecessors, hOnce, hShort, hFalls, fun a => ?_, hOrder⟩
  have hAll : a ∈ falls ∨ a ∈ jumps ↔ b.FallsTo a y ∨ b.JumpsTo a y := by
    rw [← List.mem_append, ← hPredecessors, mem_predecessors, mem_successors_build]
  have hApart (hFall : a ∈ falls) (hJump : a ∈ jumps) : False :=
    (List.nodup_append.mp hOnce).2.2 a hFall a hJump rfl
  rw [← hFalls a] at hAll ⊢
  constructor
  · intro hJump
    exact ⟨(hAll.mp (Or.inr hJump)).resolve_left fun h => hApart h hJump, fun h => hApart h hJump⟩
  · exact fun ⟨hJump, hOther⟩ => (hAll.mpr (Or.inr hJump)).resolve_left hOther

end Edges

/-- The index has the control flow of the body. -/
structure Follows (index : FlowIndex) (b : MethodBody) : Prop where
  /-- An edge is found from both of its ends. -/
  bothWays : ∀ a y, y ∈ index.successors a ↔ a ∈ index.predecessors y
  edge : ∀ a y, y ∈ index.successors a ↔ b.FallsTo a y ∨ b.JumpsTo a y
  successorsOnce : ∀ a, (index.successors a).Nodup
  predecessorsOnce : ∀ y, (index.predecessors y).Nodup
  /-- What falls through comes ahead of the jumps, which stand in the order of the code. -/
  ordered : ∀ y, ∃ falls jumps, index.predecessors y = falls ++ jumps ∧ falls.length ≤ 1 ∧
    (∀ a, a ∈ falls ↔ b.FallsTo a y) ∧ (∀ a, a ∈ jumps ↔ b.JumpsTo a y ∧ ¬ b.FallsTo a y) ∧
    jumps.Sublist (b.instructions.map (·.id))

/-- The index of a body with distinct numbers has its control flow, wherever its jumps lead. -/
theorem build_follows {b : MethodBody} (hDistinct : (b.instructions.map (·.id)).Nodup) :
    (build b).Follows b where
  bothWays _ _ := mem_predecessors.symm
  edge _ _ := mem_successors_build
  successorsOnce := nodup_successors hDistinct
  predecessorsOnce y := by
    obtain ⟨falls, jumps, hPredecessors, hOnce, -⟩ := predecessors_build hDistinct y
    rwa [hPredecessors]
  ordered y := by
    obtain ⟨falls, jumps, hPredecessors, -, hRest⟩ := predecessors_build hDistinct y
    exact ⟨falls, jumps, hPredecessors, hRest⟩

section Examples

/-- A branch to the instruction behind it, a switch that names one target twice, and an operation
that names a target without a jump. -/
def crossedFlow : MethodBody :=
  .ofParts [⟨⟨7⟩, .ldcI4, .int32 1⟩, ⟨⟨1⟩, .brtrue, .target ⟨2⟩⟩, ⟨⟨2⟩, .nop, .target ⟨7⟩⟩,
    ⟨⟨3⟩, .switch, .targets [⟨2⟩, ⟨4⟩, ⟨2⟩]⟩, ⟨⟨4⟩, .br, .target ⟨2⟩⟩, ⟨⟨0⟩, .ret, .none⟩] [] []

theorem crossedFlow_follows :
    (crossedFlow.instructions.map (·.id)).Nodup ∧ (build crossedFlow).Follows crossedFlow ∧
      (build crossedFlow).predecessors ⟨2⟩ = [⟨1⟩, ⟨3⟩, ⟨4⟩] ∧
      (build crossedFlow).predecessors ⟨7⟩ = [] ∧
      (build crossedFlow).successors ⟨3⟩ = [⟨4⟩, ⟨2⟩] :=
  ⟨by decide, build_follows (by decide), by decide, by decide, by decide⟩

end Examples

end FlowIndex

end ContextBinding
