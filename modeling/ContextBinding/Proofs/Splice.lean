import ContextBinding.Proofs.Edit
import ContextBinding.Proofs.Stack

/-! Control flow through code that is put in ahead of an instruction. What led to the
 instruction leads to the first of the new ones, they lead on to it, and every other
 edge is as it was. -/

namespace ContextBinding

/-- Where control goes in place of an instruction once references to `source` were passed
to `target`. -/
def InstrId.redirect (source target id : InstrId) : InstrId := if id = source then target else id

theorem InstrId.redirect_self (source target : InstrId) : source.redirect target source = target :=
  if_pos rfl

theorem InstrId.redirect_of_ne {source id : InstrId} (h : id ≠ source) (target : InstrId) :
    source.redirect target id = id :=
  if_neg h

/-- References to instructions other than the target are told apart after they were passed on. -/
theorem InstrId.redirect_inj {source target c d : InstrId} (hc : c ≠ target) (hd : d ≠ target)
    (h : source.redirect target c = source.redirect target d) : c = d := by
  unfold redirect at h
  split at h
  · split at h
    · simp_all
    · exact (hd h.symm).elim
  · split at h
    · exact (hc h).elim
    · exact h

/-- Control goes on behind an instruction, and nowhere else. -/
structure Instruction.PassesOn (i : Instruction) : Prop where
  falls : i.opcode.fallsThrough = true
  stays : i.opcode.isBranch = true → i.targetIds = []

theorem Instruction.passesOn_of_next {i : Instruction} (h : i.opcode.flow = .next) : i.PassesOn :=
  ⟨by simp [OpCode.fallsThrough, h], by simp [OpCode.isBranch, h]⟩

namespace FlowIndex

open MethodBody (number)

variable {code before after : List Instruction} {a y : InstrId}

theorem mem_successors {index : FlowIndex} :
    y ∈ index.successors a ↔ (a, y) ∈ index.steps ∨ (a, y) ∈ index.jumps := by
  have hEdges (edges : List (InstrId × InstrId)) :
      y ∈ (edges.filter fun edge => edge.1 == a).map (·.2) ↔ (a, y) ∈ edges := by
    simp only [List.mem_map, List.mem_filter, beq_iff_eq]
    constructor
    · rintro ⟨⟨_, _⟩, ⟨hEdge, rfl⟩, rfl⟩
      exact hEdge
    · exact fun hEdge => ⟨_, ⟨hEdge, rfl⟩, rfl⟩
  unfold successors
  rw [mem_foldl_insertNew, hEdges, hEdges]

section Steps

theorem stepsOf_append (before : List Instruction) (i : Instruction) (after : List Instruction) :
    stepsOf (before ++ i :: after) = stepsOf (before ++ [i]) ++ stepsOf (i :: after) := by
  induction before with
  | nil => rfl
  | cons first before ih =>
      cases before with
      | nil =>
          simp only [List.cons_append, List.nil_append, stepsOf]
          split <;> rfl
      | cons second before =>
          simp only [List.cons_append, stepsOf] at ih ⊢
          split <;> simp [ih]

/-- Steps of code put together stay in one part, or lead from the first to where the second starts.
-/
theorem of_mem_stepsOf_append (h : (a, y) ∈ stepsOf (before ++ after)) :
    (a, y) ∈ stepsOf before ∨ (a ∈ before.map (·.id) ∧ (after.map (·.id)).head? = some y) ∨
      (a, y) ∈ stepsOf after := by
  induction before with
  | nil => exact Or.inr (Or.inr h)
  | cons first before ih =>
      have hRest (h : (a, y) ∈ stepsOf (before ++ after)) :
          (a, y) ∈ stepsOf (first :: before) ∨
            (a ∈ (first :: before).map (·.id) ∧ (after.map (·.id)).head? = some y) ∨
            (a, y) ∈ stepsOf after := by
        rcases ih h with hBefore | ⟨hMem, hHead⟩ | hAfter
        · left
          cases before with
          | nil => cases hBefore
          | cons second before =>
              rw [stepsOf]
              split
              · exact List.mem_cons_of_mem _ hBefore
              · exact hBefore
        · exact Or.inr (Or.inl ⟨List.mem_cons_of_mem _ hMem, hHead⟩)
        · exact Or.inr (Or.inr hAfter)
      cases hNext : before ++ after with
      | nil =>
          rw [List.cons_append, hNext] at h
          cases h
      | cons second rest =>
          rw [List.cons_append, hNext, stepsOf, ← hNext] at h
          split at h
          · rcases List.mem_cons.mp h with hSame | h
            · obtain ⟨rfl, rfl⟩ := Prod.mk.inj hSame
              cases before with
              | nil =>
                  obtain rfl : after = second :: rest := hNext
                  exact Or.inr (Or.inl ⟨List.mem_cons_self .., rfl⟩)
              | cons third before =>
                  obtain ⟨rfl, -⟩ := List.cons.inj hNext
                  left
                  rw [stepsOf, if_pos ‹_›]
                  exact List.mem_cons_self ..
            · exact hRest h
          · exact hRest h

/-- Steps depend on numbers and operations only. -/
theorem stepsOf_map {f : Instruction → Instruction}
    (hSame : ∀ i, (f i).id = i.id ∧ (f i).opcode = i.opcode) (code : List Instruction) :
    stepsOf (code.map f) = stepsOf code := by
  induction code with
  | nil => rfl
  | cons first code ih =>
      cases code with
      | nil => rfl
      | cons second code =>
          simp only [List.map_cons, stepsOf, hSame] at ih ⊢
          rw [ih]

theorem snd_mem_of_mem_stepsOf {i : Instruction} (h : (a, y) ∈ stepsOf (i :: code)) :
    y ∈ code.map (·.id) := by
  induction code generalizing i with
  | nil => cases h
  | cons second code ih =>
      rw [List.map_cons, List.mem_cons]
      rw [stepsOf] at h
      split at h
      · rcases List.mem_cons.mp h with h | h
        · exact Or.inl (Prod.ext_iff.mp h).2
        · exact Or.inr (ih h)
      · exact Or.inr (ih h)

theorem of_mem_stepsOf (h : (a, y) ∈ stepsOf code) :
    ∃ i ∈ code, i.id = a ∧ i.opcode.fallsThrough = true := by
  fun_induction stepsOf code with
  | case1 i j rest hFalls ih =>
      rcases List.mem_cons.mp h with hSame | h
      · exact ⟨i, List.mem_cons_self .., (Prod.mk.inj hSame).1.symm, hFalls⟩
      · obtain ⟨k, hMem, hRest⟩ := ih h
        exact ⟨k, List.mem_cons_of_mem _ hMem, hRest⟩
  | case2 i j rest _ ih =>
      obtain ⟨k, hMem, hRest⟩ := ih h
      exact ⟨k, List.mem_cons_of_mem _ hMem, hRest⟩
  | case3 => cases h

/-- Steps to the end of some code lead elsewhere once its last instruction is another. -/
theorem stepsOf_concat {i : Instruction} (hOther : ∀ j ∈ before, j.id ≠ i.id)
    (other : Instruction) : stepsOf (before ++ [other])
      = (stepsOf (before ++ [i])).map fun e => (e.1, i.id.redirect other.id e.2) := by
  induction before with
  | nil => rfl
  | cons first before ih =>
      have ih := ih fun j hMem => hOther j (List.mem_cons_of_mem _ hMem)
      cases before with
      | nil =>
          simp only [List.cons_append, List.nil_append, stepsOf]
          split <;> simp [InstrId.redirect_self]
      | cons second before =>
          have hSecond : second.id ≠ i.id :=
            hOther second (List.mem_cons_of_mem _ (List.mem_cons_self ..))
          simp only [List.cons_append, stepsOf] at ih ⊢
          split <;> simp [ih, InstrId.redirect_of_ne hSecond]

/-- Numbered code that passes control on is gone through in its order. -/
theorem mem_stepsOf_number (hOn : ∀ i ∈ code, i.PassesOn) {first : Nat}
    {last : Instruction} : (a, y) ∈ stepsOf (number first code ++ [last]) ↔
      ∃ n < code.length, a = ⟨first + n⟩ ∧
        y = if n + 1 = code.length then last.id else ⟨first + (n + 1)⟩ := by
  induction code generalizing first with
  | nil => simp [number, stepsOf]
  | cons i code ih =>
      have hFalls : i.opcode.fallsThrough = true := (hOn i (List.mem_cons_self ..)).falls
      have ih := @ih (fun j hMem => hOn j (List.mem_cons_of_mem _ hMem)) (first + 1)
      cases code with
      | nil => simp [number, stepsOf, hFalls]
      | cons second code =>
          simp only [number, List.cons_append, stepsOf, hFalls, if_true, List.mem_cons,
            Prod.mk.injEq] at ih ⊢
          rw [ih]
          constructor
          · rintro (⟨rfl, rfl⟩ | ⟨n, hn, rfl, rfl⟩)
            · exact ⟨0, by simp, rfl, by simp⟩
            · refine ⟨n + 1, by simpa using hn, by congr 1; omega, ?_⟩
              simp only [List.length_cons, Nat.add_right_cancel_iff]
              congr 2
              omega
          · rintro ⟨n, hn, rfl, rfl⟩
            cases n with
            | zero => exact Or.inl ⟨rfl, by simp⟩
            | succ n =>
                refine Or.inr ⟨n, by simpa using hn, by congr 1; omega, ?_⟩
                simp only [List.length_cons, Nat.add_right_cancel_iff]
                congr 2
                omega

end Steps

theorem jumpsFrom_retarget (source target : InstrId) (i : Instruction) :
    jumpsFrom (i.retarget source target)
      = (jumpsFrom i).map fun e => (e.1, source.redirect target e.2) := by
  have hTargets : (i.retarget source target).targetIds
      = i.targetIds.map (source.redirect target) := by
    unfold Instruction.targetIds Instruction.retarget Operand.mapTargets
    cases i.operand <;> rfl
  unfold jumpsFrom
  rw [hTargets]
  change (if i.opcode.isBranch then _ else _) = _
  split
  · simp [Instruction.retarget, Function.comp_def]
  · rfl

/-- Edges that were redirected, one by one. -/
theorem mem_map_redirect {source target : InstrId} {edges : List (InstrId × InstrId)} :
    (a, y) ∈ edges.map (fun e => (e.1, source.redirect target e.2)) ↔
      ∃ c, (a, c) ∈ edges ∧ source.redirect target c = y := by
  simp only [List.mem_map, Prod.mk.injEq, Prod.exists]
  constructor
  · rintro ⟨_, c, hEdge, rfl, rfl⟩
    exact ⟨c, hEdge, rfl⟩
  · rintro ⟨c, hEdge, rfl⟩
    exact ⟨a, c, hEdge, rfl, rfl⟩

theorem jumps_number (hOn : ∀ i ∈ code, i.PassesOn) (first : Nat) :
    (number first code).flatMap jumpsFrom = [] := by
  induction code generalizing first with
  | nil => rfl
  | cons i code ih =>
      have hStays := (hOn i (List.mem_cons_self ..)).stays
      have hNone : jumpsFrom { i with id := ⟨first⟩ } = [] := by
        unfold jumpsFrom
        split
        · rename_i hBranch
          exact List.map_eq_nil_iff.mpr (hStays hBranch)
        · rfl
      rw [number, List.flatMap_cons, hNone, List.nil_append]
      exact ih (fun j hMem => hOn j (List.mem_cons_of_mem _ hMem)) (first + 1)

/-- Edges start at instructions that control goes on from. -/
theorem of_successor {b : MethodBody} (h : y ∈ (build b).successors a) :
    ∃ i ∈ b.instructions, i.id = a ∧ (i.opcode.fallsThrough = true ∨ i.opcode.isBranch = true) := by
  rcases mem_successors.mp h with hStep | hJump
  · obtain ⟨i, hMem, hId, hFalls⟩ := of_mem_stepsOf hStep
    exact ⟨i, hMem, hId, Or.inl hFalls⟩
  · obtain ⟨i, hMem, hFrom⟩ := List.mem_flatMap.mp hJump
    unfold jumpsFrom at hFrom
    split at hFrom
    · rename_i hBranch
      obtain ⟨target, -, hSame⟩ := List.mem_map.mp hFrom
      exact ⟨i, hMem, (Prod.mk.inj hSame).1, Or.inr hBranch⟩
    · cases hFrom

/-- Edges end at instructions of the code, or at targets that these name. -/
theorem mem_of_successor {b : MethodBody} (h : y ∈ (build b).successors a) :
    y ∈ b.instructions.map (·.id) ∨ ∃ i ∈ b.instructions, y ∈ i.targetIds := by
  rcases mem_successors.mp h with hStep | hJump
  · left
    change (a, y) ∈ stepsOf b.instructions at hStep
    cases hCode : b.instructions with
    | nil => simp [hCode, stepsOf] at hStep
    | cons i code => exact List.mem_cons_of_mem _ (snd_mem_of_mem_stepsOf (hCode ▸ hStep))
  · right
    obtain ⟨i, hMem, hFrom⟩ := List.mem_flatMap.mp hJump
    unfold jumpsFrom at hFrom
    split at hFrom
    · obtain ⟨target, hTarget, hSame⟩ := List.mem_map.mp hFrom
      obtain ⟨-, rfl⟩ := Prod.mk.inj hSame
      exact ⟨i, hMem, hTarget⟩
    · cases hFrom

/-- In a body whose numbers are distinct, an instruction is found at its place. -/
theorem lastPosition?_of_getElem? {order : List InstrId} (hDistinct : order.Nodup) {position : Nat}
    {id : InstrId} (h : order[position]? = some id) : lastPosition? id order = some position := by
  induction order generalizing position with
  | nil => cases h
  | cons first order ih =>
      obtain ⟨hFirst, hRest⟩ := List.nodup_cons.mp hDistinct
      rw [lastPosition?]
      cases position with
      | succ position => rw [ih hRest h]
      | zero =>
          obtain rfl := Option.some_inj.mp h
          have hGone : lastPosition? first order = none := by
            cases hLast : lastPosition? first order with
            | none => rfl
            | some k => exact (hFirst (List.mem_of_getElem? (getElem?_of_lastPosition? hLast))).elim
          rw [hGone]
          exact if_pos rfl

end FlowIndex

namespace CodeView

variable {p : Program} {method : MethodId} {b : MethodBody}

/-- The number of an instruction leads to it. -/
theorem ofBody_instr (hDistinct : (b.instructions.map (·.id)).Nodup) {i : Instruction}
    (hMem : i ∈ b.instructions) : (ofBody p method b).instr i.id = .ok i := by
  obtain ⟨k, hAt⟩ := List.mem_iff_getElem?.mp hMem
  have hOrder : (FlowIndex.build b).order[k]? = some i.id := by
    simp [FlowIndex.build, hAt]
  have hPosition : (FlowIndex.build b).position? i.id = some k :=
    FlowIndex.lastPosition?_of_getElem? hDistinct hOrder
  simp [instr, ofBody, hPosition, MethodBody.at?, hAt]

theorem of_ofBody_instr {id : InstrId} {i : Instruction}
    (h : (ofBody p method b).instr id = .ok i) : i ∈ b.instructions ∧ i.id = id := by
  unfold instr at h
  split at h
  · rename_i j hAt
    obtain rfl := Except.ok.inj h
    obtain ⟨k, hPosition, hAt⟩ := Option.bind_eq_some_iff.mp hAt
    have hOrder := FlowIndex.getElem?_of_lastPosition? hPosition
    have hAt : b.instructions[k]? = some j := hAt
    have hId : some j.id = some id := by
      rw [← hOrder]
      simp [ofBody, FlowIndex.build, hAt]
    exact ⟨List.mem_of_getElem? hAt, Option.some_inj.mp hId⟩
  · cases h

end CodeView

namespace MethodBody

/-- A body has `code` ahead of `anchor` that another one lacks. What named `anchor` names the first
new instruction. -/
structure Inserts (b : MethodBody) (anchor : InstrId) (code : List Instruction)
    (b' : MethodBody) : Prop where
  nonempty : code ≠ []
  spliced : ∃ before i after, b.instructions = before ++ i :: after ∧ i.id = anchor ∧
    b'.instructions = before.map (Instruction.retarget anchor ⟨b.nextId⟩) ++ number b.nextId code ++
      (i :: after).map (Instruction.retarget anchor ⟨b.nextId⟩)
  handlers : b'.handlers = b.handlers.map (Handler.mapBoundaries (anchor.redirect ⟨b.nextId⟩))

namespace Inserts

open FlowIndex (build stepsOf jumpsFrom)

variable {b b' : MethodBody} {anchor : InstrId} {code : List Instruction}

/-- What led ahead leads to the new code, which falls through to where it was put. -/
theorem mem_steps (h : b.Inserts anchor code b') (hNumbered : b.Numbered)
    (hOn : ∀ i ∈ code, i.PassesOn) {a y : InstrId} :
    (a, y) ∈ (build b').steps ↔
      (∃ c, (a, c) ∈ (build b).steps ∧ anchor.redirect ⟨b.nextId⟩ c = y) ∨
      ∃ n < code.length, a = ⟨b.nextId + n⟩ ∧
        y = if n + 1 = code.length then anchor else ⟨b.nextId + (n + 1)⟩ := by
  obtain ⟨before, i, after, hBefore, rfl, hAfter⟩ := h.spliced
  let f := Instruction.retarget i.id ⟨b.nextId⟩
  have hSame (code : List Instruction) : stepsOf (code.map f) = stepsOf code :=
    FlowIndex.stepsOf_map (f := f) (fun _ => ⟨rfl, rfl⟩) code
  have hDistinct := hNumbered.distinct
  rw [hBefore, List.map_append, List.map_cons, List.nodup_append] at hDistinct
  have hAhead : ∀ j ∈ before.map f, j.id ≠ i.id := by
    intro j hMem
    obtain ⟨j', hMem', rfl⟩ := List.mem_map.mp hMem
    exact hDistinct.2.2 _ (List.mem_map_of_mem hMem') _ (List.mem_cons_self ..)
  -- Nothing behind the anchor falls through to it.
  have hBehind : ∀ c, (a, c) ∈ stepsOf (i :: after) → i.id.redirect ⟨b.nextId⟩ c = c := by
    refine fun c hStep => InstrId.redirect_of_ne (fun hAnchor => ?_) _
    have hMem := FlowIndex.snd_mem_of_mem_stepsOf hStep
    exact (List.nodup_cons.mp hDistinct.2.1).1 (hAnchor ▸ hMem)
  obtain ⟨first, rest, hNew, hFirst⟩ : ∃ first rest, number b.nextId code = first :: rest ∧
      first.id = ⟨b.nextId⟩ := by
    cases code with
    | nil => exact (h.nonempty rfl).elim
    | cons first rest => exact ⟨_, _, rfl, rfl⟩
  have hLeft : stepsOf (before.map f ++ [first])
      = (stepsOf (before ++ [i])).map fun e => (e.1, i.id.redirect ⟨b.nextId⟩ e.2) := by
    rw [← hSame (before ++ [i]), List.map_append, List.map_singleton, ← hFirst]
    exact FlowIndex.stepsOf_concat (i := f i) hAhead first
  have hSteps : (build b').steps = stepsOf (before.map f ++ [first]) ++
      (stepsOf (number b.nextId code ++ [f i]) ++ stepsOf (i :: after)) := by
    change stepsOf b'.instructions = _
    rw [hAfter, List.append_assoc, hNew, List.cons_append, FlowIndex.stepsOf_append,
      ← List.cons_append, ← hNew, List.map_cons, FlowIndex.stepsOf_append _ (f i), ← List.map_cons,
      hSame]
  have hOld : (build b).steps = stepsOf (before ++ [i]) ++ stepsOf (i :: after) := by
    change stepsOf b.instructions = _
    rw [hBefore, FlowIndex.stepsOf_append]
  have hId : (f i).id = i.id := rfl
  simp only [hSteps, hOld, hLeft, List.mem_append, FlowIndex.mem_map_redirect,
    FlowIndex.mem_stepsOf_number hOn, hId, or_and_right, exists_or]
  have hTail : (∃ c, (a, c) ∈ stepsOf (i :: after) ∧ i.id.redirect ⟨b.nextId⟩ c = y) ↔
      (a, y) ∈ stepsOf (i :: after) := by
    constructor
    · rintro ⟨c, hStep, rfl⟩
      rwa [hBehind c hStep]
    · exact fun hStep => ⟨y, hStep, hBehind y hStep⟩
  rw [hTail, or_right_comm, or_assoc]

theorem jumps_eq (h : b.Inserts anchor code b') (hOn : ∀ i ∈ code, i.PassesOn) :
    (build b').jumps = (build b).jumps.map fun e => (e.1, anchor.redirect ⟨b.nextId⟩ e.2) := by
  obtain ⟨before, i, after, hBefore, rfl, hAfter⟩ := h.spliced
  change b'.instructions.flatMap jumpsFrom = (b.instructions.flatMap jumpsFrom).map _
  rw [hAfter, hBefore, List.flatMap_append, List.flatMap_append, FlowIndex.jumps_number hOn,
    List.append_nil, ← List.flatMap_append, ← List.map_append, List.flatMap_map, List.map_flatMap]
  exact List.flatMap_congr fun j _ => FlowIndex.jumpsFrom_retarget ..

/-- The edges of the body with the new code: what led to the anchor leads to the new code, which
leads on to the anchor. -/
theorem mem_successors (h : b.Inserts anchor code b') (hNumbered : b.Numbered)
    (hOn : ∀ i ∈ code, i.PassesOn) {a y : InstrId} :
    y ∈ (build b').successors a ↔
      (∃ c ∈ (build b).successors a, anchor.redirect ⟨b.nextId⟩ c = y) ∨
      ∃ n < code.length, a = ⟨b.nextId + n⟩ ∧
        y = if n + 1 = code.length then anchor else ⟨b.nextId + (n + 1)⟩ := by
  simp only [FlowIndex.mem_successors, h.mem_steps hNumbered hOn, h.jumps_eq hOn,
    FlowIndex.mem_map_redirect, or_and_right, exists_or]
  rw [or_right_comm]

section Instructions

variable {p : Program} {method : MethodId}

theorem ids_nodup (h : b.Inserts anchor code b') (hNumbered : b.Numbered) :
    (b'.instructions.map (·.id)).Nodup := by
  obtain ⟨before, i, after, hBefore, rfl, hAfter⟩ := h.spliced
  have hSame : b'.instructions.map (·.id)
      = (b.splice before.length code).instructions.map (·.id) := by
    simp [hAfter, splice, hBefore, Function.comp_def, Instruction.retarget]
  exact hSame ▸ (hNumbered.splice before.length code).distinct

/-- Instructions that were there are the same up to what they name. -/
theorem instr (h : b.Inserts anchor code b') (hNumbered : b.Numbered) {i : Instruction}
    (hMem : i ∈ b.instructions) :
    (CodeView.ofBody p method b').instr i.id = .ok (i.retarget anchor ⟨b.nextId⟩) := by
  refine CodeView.ofBody_instr (i := i.retarget anchor ⟨b.nextId⟩) (h.ids_nodup hNumbered) ?_
  obtain ⟨before, j, after, hBefore, rfl, hAfter⟩ := h.spliced
  rw [hBefore, List.mem_append] at hMem
  rw [hAfter, List.append_assoc, List.mem_append, List.mem_append]
  exact hMem.imp List.mem_map_of_mem fun hMem => Or.inr (List.mem_map_of_mem hMem)

theorem number_infix (h : b.Inserts anchor code b') :
    number b.nextId code <:+: b'.instructions := by
  obtain ⟨before, i, after, -, -, hAfter⟩ := h.spliced
  exact ⟨_, _, hAfter.symm⟩

/-- The new instructions are those of the code. -/
theorem instr_number (h : b.Inserts anchor code b') (hNumbered : b.Numbered) {i : Instruction}
    (hMem : i ∈ number b.nextId code) : (CodeView.ofBody p method b').instr i.id = .ok i :=
  CodeView.ofBody_instr (h.ids_nodup hNumbered) (h.number_infix.subset hMem)

theorem anchor_mem (h : b.Inserts anchor code b') : anchor ∈ b.instructions.map (·.id) := by
  obtain ⟨before, i, after, hBefore, rfl, -⟩ := h.spliced
  rw [hBefore]
  exact List.mem_map_of_mem (List.mem_append_right _ (List.mem_cons_self ..))

end Instructions

section Entries

/-- A call starts with the new code if it started with the anchor. -/
theorem head?_ids (h : b.Inserts anchor code b') (hNumbered : b.Numbered) :
    (b'.instructions.map (·.id)).head?
      = (b.instructions.map (·.id)).head?.map (anchor.redirect ⟨b.nextId⟩) := by
  obtain ⟨before, i, after, hBefore, rfl, hAfter⟩ := h.spliced
  have hDistinct := hNumbered.distinct
  rw [hBefore] at hDistinct ⊢
  rw [hAfter]
  cases before with
  | nil =>
      cases code with
      | nil => exact (h.nonempty rfl).elim
      | cons first rest => simp [number, InstrId.redirect_self]
  | cons first before =>
      have hOther : first.id ≠ i.id := by
        have hFirst := (List.nodup_cons.mp hDistinct).1
        exact fun hSame => hFirst (List.mem_map.mpr ⟨i, by simp, hSame.symm⟩)
      simp [Instruction.retarget, InstrId.redirect_of_ne hOther]

variable (hHandlers : ∀ handler ∈ b.handlers, handler.handlerStart.index < b.nextId)

include hHandlers

theorem handlerEntry?_redirect (h : b.Inserts anchor code b') {c : InstrId}
    (hOld : c.index < b.nextId) : FlowIndex.handlerEntry? (build b')
      (anchor.redirect ⟨b.nextId⟩ c) = FlowIndex.handlerEntry? (build b) c := by
  have hEntries : (build b').entries
      = (build b).entries.map fun e => (anchor.redirect ⟨b.nextId⟩ e.1, e.2) := by
    change b'.handlers.map _ = (b.handlers.map _).map _
    simp [h.handlers, Handler.mapBoundaries]
  have hNew {id : InstrId} (hOld : id.index < b.nextId) : id ≠ ⟨b.nextId⟩ := by
    rintro rfl
    exact Nat.lt_irrefl _ hOld
  have hFilter : (build b').entries.filter (fun e => e.1 == anchor.redirect ⟨b.nextId⟩ c)
      = ((build b).entries.filter fun e => e.1 == c).map
        fun e => (anchor.redirect ⟨b.nextId⟩ e.1, e.2) := by
    rw [hEntries, List.filter_map]
    congr 1
    refine List.filter_congr fun e hMem => ?_
    obtain ⟨handler, hHandler, rfl⟩ := List.mem_map.mp hMem
    rw [Bool.eq_iff_iff, Function.comp_apply, beq_iff_eq, beq_iff_eq]
    exact ⟨InstrId.redirect_inj (hNew (hHandlers handler hHandler)) (hNew hOld),
      congrArg (anchor.redirect ⟨b.nextId⟩)⟩
  unfold FlowIndex.handlerEntry?
  rw [hFilter, List.getLast?_map, Option.map_map]
  rfl

/-- Control enters the new body where it enters the old one, with as much on the stack. -/
theorem enters_iff (h : b.Inserts anchor code b') (hNumbered : b.Numbered) {p p' : Program}
    {method : MethodId} {x : InstrId} {n : Nat} :
    (∃ stack, (CodeView.ofBody p' method b').Enters x stack ∧ stack.length = n) ↔
      ∃ c stack, (CodeView.ofBody p method b).Enters c stack ∧ stack.length = n ∧
        anchor.redirect ⟨b.nextId⟩ c = x := by
  have hFirst : (b'.instructions.map (·.id)).head? = some x ↔
      ∃ c, (b.instructions.map (·.id)).head? = some c ∧ anchor.redirect ⟨b.nextId⟩ c = x := by
    rw [h.head?_ids hNumbered, Option.map_eq_some_iff]
  have hHandler (e : Option TypeRef) : FlowIndex.handlerEntry? (build b') x = some e ↔
      ∃ c, FlowIndex.handlerEntry? (build b) c = some e ∧ anchor.redirect ⟨b.nextId⟩ c = x := by
    have hStart {body : MethodBody} {id : InstrId}
        (hEntry : FlowIndex.handlerEntry? (build body) id = some e) :
        ∃ handler ∈ body.handlers, handler.handlerStart = id := by
      have hMem := CodeView.mem_entries_of_handler hEntry
      simpa [FlowIndex.build, and_assoc] using hMem
    constructor
    · intro hEntry
      obtain ⟨handler', hMem', rfl⟩ := hStart hEntry
      rw [h.handlers] at hMem'
      obtain ⟨handler, hMem, rfl⟩ := List.mem_map.mp hMem'
      exact ⟨_, (handlerEntry?_redirect hHandlers h (hHandlers handler hMem)).symm.trans hEntry,
        rfl⟩
    · rintro ⟨c, hEntry, rfl⟩
      obtain ⟨handler, hMem, rfl⟩ := hStart hEntry
      exact (handlerEntry?_redirect hHandlers h (hHandlers handler hMem)).trans hEntry
  constructor
  · rintro ⟨stack, hEnters, rfl⟩
    cases hEnters with
    | start hEntry =>
        obtain ⟨c, hEntry, hSame⟩ := hFirst.mp hEntry
        exact ⟨c, [], .start hEntry, rfl, hSame⟩
    | catching hEntry =>
        obtain ⟨c, hEntry, hSame⟩ := (hHandler _).mp hEntry
        exact ⟨c, [.caught c], .catching hEntry, rfl, hSame⟩
    | finishing hEntry =>
        obtain ⟨c, hEntry, hSame⟩ := (hHandler _).mp hEntry
        exact ⟨c, [], .finishing hEntry, rfl, hSame⟩
  · rintro ⟨c, stack, hEnters, rfl, hSame⟩
    cases hEnters with
    | start hEntry => exact ⟨[], .start (hFirst.mpr ⟨c, hEntry, hSame⟩), rfl⟩
    | catching hEntry => exact ⟨[.caught x], .catching ((hHandler _).mpr ⟨c, hEntry, hSame⟩), rfl⟩
    | finishing hEntry => exact ⟨[], .finishing ((hHandler _).mpr ⟨c, hEntry, hSame⟩), rfl⟩

end Entries

end Inserts

/-- Code that is inserted ahead of an instruction is put in there, and touches nothing else. -/
theorem insertBefore_inserts {b b' : MethodBody} {anchor : InstrId} {code : List Instruction}
    {ids : List InstrId} (hSome : code ≠ []) (h : insertBefore anchor code b = .ok ids b') :
    b.Inserts anchor code b' ∧ b'.locals = b.locals := by
  obtain ⟨position, _, hRequire, h⟩ := Step.bind_ok.mp h
  obtain ⟨hPosition, rfl⟩ := require_ok.mp hRequire
  rw [if_neg (by simpa using hSome)] at h
  simp only [Step.bind_ok, Step.get_ok, Step.set_ok, Step.pure_ok] at h
  obtain ⟨_, _, ⟨rfl, rfl⟩, _, _, rfl, -, rfl⟩ := h
  obtain ⟨i, hAt, hId⟩ := getElem?_of_position hPosition
  obtain ⟨hBound, hAt⟩ := List.getElem?_eq_some_iff.mp hAt
  refine ⟨⟨hSome, ⟨b.instructions.take position, i, b.instructions.drop (position + 1), ?_, hId,
    ?_⟩, rfl⟩, rfl⟩
  · rw [← hAt, List.getElem_cons_drop, List.take_append_drop]
  · rw [← hAt, List.getElem_cons_drop]
    simp [splice, retarget, List.map_take, List.map_drop]

end MethodBody

end ContextBinding
