import ContextBinding.Instantiation.RootConstructor
import ContextBinding.Proofs.Expansion
import ContextBinding.Proofs.History

/-! Code that runs ahead of every return. Control comes to a return over old code and then, once,
over the code that was put in, whatever led to the return before; nothing goes on from there, so
that the copies at other returns play no part. -/

namespace ContextBinding

open MethodBody (numbers number)

/-- Control goes on behind the instruction, which names no local and no other instruction. -/
structure Instruction.Plain (i : Instruction) : Prop where
  next : i.opcode.flow = .next
  noLocal : i.localVar? = none
  noTarget : i.targetIds = []

namespace Instruction.Plain

variable {i : Instruction}

theorem renumber (h : i.Plain) (id : InstrId) : Instruction.Plain { i with id := id } :=
  ⟨h.next, h.noLocal, h.noTarget⟩

/-- References that are passed on are none of the instruction. -/
theorem retarget (h : i.Plain) (source target : InstrId) : i.retarget source target = i := by
  obtain ⟨id, opcode, operand⟩ := i
  have hNone := h.noTarget
  unfold Instruction.targetIds at hNone
  unfold Instruction.retarget Operand.mapTargets
  cases operand with
  | target other => cases hNone
  | targets others =>
      obtain rfl : others = [] := hNone
      rfl
  | _ => rfl

theorem number {code : List Instruction} (h : ∀ i ∈ code, i.Plain) (first : Nat) :
    ∀ i ∈ number first code, i.Plain := by
  intro j hMem
  obtain ⟨i, hThere, hSame⟩ := MethodBody.mem_number_same hMem
  exact hSame ▸ (h i hThere).renumber j.id

end Instruction.Plain

namespace CodeView

variable {p q : Program} {method : MethodId} {b : MethodBody} {v v' : CodeView}
  {anchor id other : InstrId} {first : Nat} {code : List Instruction} {start : List Value}
  {trail : List InstrId}

/-- Walks do not depend on the program that the code is part of. -/
theorem Walks.of_program (h : (ofBody p method b).Walks start trail id) :
    (ofBody q method b).Walks start trail id := by
  induction h with
  | enter hEnters =>
      refine .enter ?_
      cases hEnters with
      | start h => exact .start h
      | catching h => exact .catching h
      | finishing h => exact .finishing h
  | step _ hFlow ih => exact ih.step hFlow

/-- Control goes on from each instruction that a walk passes. -/
theorem Walks.goes_on (h : v.Walks start trail id) (hMem : other ∈ trail) :
    ∃ y, y ∈ v.index.successors other := by
  induction h with
  | enter => cases hMem
  | step _ hFlow ih =>
      rcases List.mem_cons.mp hMem with rfl | hMem
      · exact ⟨_, hFlow⟩
      · exact ih hMem

theorem not_successor_of_ret (hNumbered : b.Numbered) (hReturn : id ∈ b.returns) (y : InstrId) :
    y ∉ (ofBody p method b).index.successors id := by
  intro hFlow
  obtain ⟨i, hMem, hRet, rfl⟩ := MethodBody.mem_returns.mp hReturn
  obtain ⟨j, hOther, hId, hOn⟩ := FlowIndex.of_successor hFlow
  obtain rfl := hNumbered.eq_of_id hOther hMem hId
  simp [OpCode.fallsThrough, OpCode.isBranch, hRet, OpCode.flow] at hOn

/-- The instructions of a trail are passed by a walk, wherever it goes from the last of them. -/
def Passes (v : CodeView) (start : List Value) : List InstrId → Prop
  | [] => True
  | a :: rest => v.Walks start rest a

theorem Walks.passes (h : v.Walks start trail id) : v.Passes start trail := by
  cases h with
  | enter => trivial
  | step prior => exact prior

/-- Walks come to `id` as they did before, and pass numbered code then. -/
structure Precedes (v v' : CodeView) (code : List Instruction) (first : Nat) (id : InstrId) :
    Prop where
  holds : v'.Holds first code
  walks : ∀ start trail, v'.Walks start trail id ↔
    ∃ old, v.Walks start old id ∧ trail = (numbers first code).reverse ++ old

/-- Control comes to `ret` over old code and then, once and in its order, over new code that has
numbers from `first` on. Where `ret` is old, the walks that come to it are the same otherwise. -/
structure PassedOnce (v v' : CodeView) (code : List Instruction) (first : Nat) (ret : InstrId) :
    Prop where
  fresh : ∀ id ∈ numbers first code, id ∉ v.index.order
  holds : v'.Holds first code
  once : ∀ start trail, v'.Walks start trail ret → ∃ old,
    trail = (numbers first code).reverse ++ old ∧ (∀ id ∈ old, id ∈ v.index.order) ∧
      v.Passes start old
  same : ret ∈ v.index.order → ∀ start old,
    v'.Walks start ((numbers first code).reverse ++ old) ret ↔ v.Walks start old ret

/-- Numbered code without references to others stays as it is. -/
theorem Spliced.holds_old (h : v.Spliced v' anchor first code) {seq : List Instruction}
    {since : Nat} (hPlain : ∀ i ∈ seq, i.Plain) (hHolds : v.Holds since seq) :
    v'.Holds since seq := by
  intro i hMem
  have hInstr := h.instr i.id i (hHolds i hMem)
  rwa [(Instruction.Plain.number hPlain since i hMem).retarget] at hInstr

/-- Where nothing goes on from the anchor, the new code is passed on the way to it only. -/
theorem Spliced.walks_iff (h : v.Spliced v' anchor first code)
    (hSources : ∀ a b, b ∈ v.index.successors a → a ∈ v.index.order)
    (hTargets : ∀ a b, b ∈ v.index.successors a → b ∈ v.index.order)
    (hEnd : ∀ y, y ∉ v.index.successors anchor) (hOld : id.index < first) (start : List Value)
    (trail : List InstrId) : v'.Walks start trail id ↔ ∃ old, v.Walks start old id ∧
      trail = (if id = anchor then (numbers first code).reverse else []) ++ old := by
  have hSame {old : List InstrId} (hWalk : v.Walks start old id) :
      expand anchor (numbers first code) old = old := by
    refine expand_of_not_mem fun hMem => ?_
    obtain ⟨y, hFlow⟩ := hWalk.goes_on hMem
    exact hEnd y hFlow
  constructor
  · intro hWalk
    obtain ⟨old, hBefore, rfl⟩ := h.of_walks_old hSources hTargets hOld hWalk
    exact ⟨old, hBefore, by rw [expandTo, hSame hBefore]⟩
  · rintro ⟨old, hBefore, rfl⟩
    have hAfter := h.walks_expandTo hBefore
    rwa [expandTo, hSame hBefore] at hAfter

end CodeView

namespace MethodBody

variable {p q : Program} {method : MethodId} {b c c' : MethodBody} {code : List Instruction}
  {ret : InstrId} {rest ids : List InstrId}

theorem mem_ids_of_successor {a y : InstrId} (hClosed : b.references ⊆ b.ids)
    (h : y ∈ (FlowIndex.build b).successors a) : y ∈ b.ids :=
  (FlowIndex.mem_of_successor h).elim (fun hMem => hMem) fun ⟨i, hMem, hTarget⟩ =>
    hClosed (mem_references.mpr (Or.inl ⟨i, hMem, hTarget⟩))

theorem handlerStart_mem {handler : Handler} (hClosed : b.references ⊆ b.ids)
    (hMem : handler ∈ b.handlers) : handler.handlerStart ∈ b.ids :=
  hClosed (mem_references.mpr (Or.inr ⟨handler, hMem, by simp [Handler.boundaries]⟩))

theorem returns_subset : b.returns ⊆ b.ids := List.map_subset _ (List.filter_subset_self _)

/-- The returns of a body are where they were after code was put in that does not return. -/
theorem Inserts.mem_returns (h : b.Inserts ret code c) (hPlain : ∀ i ∈ code, i.Plain)
    (id : InstrId) : id ∈ c.returns ↔ id ∈ b.returns := by
  obtain ⟨before, i, after, hBefore, rfl, hAfter⟩ := h.spliced
  have hNone : (number b.nextId code).filter (fun j => j.opcode == .ret) = [] := by
    refine List.filter_eq_nil_iff.mpr fun j hMem hRet => ?_
    have hNext := (Instruction.Plain.number hPlain b.nextId j hMem).next
    rw [beq_iff_eq.mp hRet] at hNext
    cases hNext
  have hKept (code : List Instruction) :
      ((code.map (Instruction.retarget i.id ⟨b.nextId⟩)).filter (fun j => j.opcode == .ret)).map
        (·.id) = (code.filter fun j => j.opcode == .ret).map (·.id) := by
    rw [List.filter_map, List.map_map]
    rfl
  unfold returns
  rw [hAfter, hBefore, List.filter_append, List.filter_append, hNone, List.append_nil,
    List.map_append, hKept, hKept, ← List.map_append, ← List.filter_append]

/-- A body between the first copy of the code and the last: those ahead of the returns `rest` are
still due. -/
structure Filling (p q : Program) (method : MethodId) (b : MethodBody) (code : List Instruction)
    (rest : List InstrId) (c : MethodBody) : Prop where
  numbered : c.Numbered
  closed : c.references ⊆ c.ids
  next : b.nextId ≤ c.nextId
  returns : ∀ id, id ∈ c.returns ↔ id ∈ b.returns
  distinct : rest.Nodup
  due : ∀ ret ∈ rest, ret ∈ b.returns ∧ ∀ start trail,
    (CodeView.ofBody q method c).Walks start trail ret ↔
      (CodeView.ofBody p method b).Walks start trail ret
  done : ∀ ret ∈ b.returns, ret ∉ rest → ∃ first, b.nextId ≤ first ∧
    (CodeView.ofBody p method b).Precedes (.ofBody q method c) code first ret

theorem Filling.start (hNumbered : b.Numbered) (hClosed : b.references ⊆ b.ids) :
    Filling p q method b code b.returns b where
  numbered := hNumbered
  closed := hClosed
  next := Nat.le_refl _
  returns _ := Iff.rfl
  distinct := hNumbered.distinct.sublist ((List.filter_sublist ..).map _)
  due _ hMem := ⟨hMem, fun _ _ => ⟨CodeView.Walks.of_program, CodeView.Walks.of_program⟩⟩
  done _ hMem hNot := (hNot hMem).elim

/-- One more copy makes walks to its return pass it, and no other walks. -/
theorem Filling.insertBefore (h : Filling p q method b code (ret :: rest) c) (hSome : code ≠ [])
    (hPlain : ∀ i ∈ code, i.Plain) (hInsert : insertBefore ret code c = .ok ids c') :
    Filling p q method b code rest c' := by
  obtain ⟨hInserts, -⟩ := insertBefore_inserts hSome hInsert
  have hEffect : Effect c (code.flatMap (·.targetIds)) ids c' :=
    effect_run (c := .insertBefore ret code) hInsert
  have hGiven : code.flatMap (·.targetIds) = [] :=
    List.flatMap_eq_nil_iff.mpr fun i hMem => (hPlain i hMem).noTarget
  obtain ⟨hNotRest, hDistinct⟩ := List.nodup_cons.mp h.distinct
  have hReturn {id : InstrId} (hMem : id ∈ b.returns) : id.index < c.nextId :=
    h.numbered.below_ids (returns_subset ((h.returns id).mpr hMem))
  have hHandlers : ∀ handler ∈ c.handlers, handler.handlerStart.index < c.nextId :=
    fun handler hMem => h.numbered.below_ids (handlerStart_mem h.closed hMem)
  have hSpliced : (CodeView.ofBody q method c).Spliced (.ofBody q method c') ret c.nextId code :=
    hInserts.spliced_view h.numbered hHandlers (fun i hMem => (hPlain i hMem).next) rfl
  have hTargets : ∀ a y, y ∈ (CodeView.ofBody q method c).index.successors a →
      y ∈ (CodeView.ofBody q method c).index.order := fun _ _ => mem_ids_of_successor h.closed
  have hEnd : ∀ y, y ∉ (CodeView.ofBody q method c).index.successors ret :=
    CodeView.not_successor_of_ret h.numbered
      ((h.returns ret).mpr (h.due ret (List.mem_cons_self ..)).1)
  have hWalks {id : InstrId} (hMem : id ∈ b.returns) (start : List Value) (trail : List InstrId) :=
    hSpliced.walks_iff (fun _ _ => FlowIndex.mem_order_of_successor) hTargets hEnd (hReturn hMem)
      start trail
  refine ⟨hEffect.numbered h.numbered, hEffect.closed h.numbered h.closed (by simp [hGiven]),
    h.next.trans hEffect.next, fun id => (hInserts.mem_returns hPlain id).trans (h.returns id),
    hDistinct, fun other hMem => ?_, fun other hMem hNot => ?_⟩
  · obtain ⟨hThere, hDue⟩ := h.due other (List.mem_cons_of_mem _ hMem)
    have hOther : other ≠ ret := fun hSame => hNotRest (hSame ▸ hMem)
    refine ⟨hThere, fun start trail => ?_⟩
    simp [hWalks hThere, hOther, hDue]
  · by_cases hSame : other = ret
    · subst hSame
      refine ⟨c.nextId, h.next, hSpliced.holds, fun start trail => ?_⟩
      simp [hWalks hMem, (h.due other (List.mem_cons_self ..)).2]
    · obtain ⟨first, hFirst, hDone⟩ := h.done other hMem (by simp [hSame, hNot])
      refine ⟨first, hFirst, hSpliced.holds_old hPlain hDone.holds, fun start trail => ?_⟩
      simp [hWalks hMem, hSame, hDone.walks]

/-- After the last copy no more are due. -/
theorem insertAtReturns_filling {u : Unit} (hNumbered : b.Numbered)
    (hClosed : b.references ⊆ b.ids) (hSome : code ≠ []) (hPlain : ∀ i ∈ code, i.Plain)
    (hReturns : b.returns ≠ []) (h : insertAtReturns code b = .ok u c) :
    Filling p q method b code [] c := by
  obtain ⟨_, _, hGet, h⟩ := Step.bind_ok.mp h
  obtain ⟨rfl, rfl⟩ := Step.get_ok.mp hGet
  have hStart : Filling p q method b code b.returns b := .start hNumbered hClosed
  cases hCases : b.returns with
  | nil => exact (hReturns hCases).elim
  | cons first rest =>
      rw [hCases] at hStart
      simp only [hCases] at h
      refine Step.forM_induct (I := Filling p q method b code) ?_ hStart h
      intro ret rest c u c' hFilling hStep
      obtain ⟨ids, _, hInsert, hPure⟩ := Step.bind_ok.mp hStep
      obtain ⟨-, rfl⟩ := Step.pure_ok.mp hPure
      exact hFilling.insertBefore hSome hPlain hInsert

section Push

variable {a y : InstrId}

theorem push_instructions (b : MethodBody) (code : List Instruction) :
    (b.splice b.size (code ++ [.plain .ret])).instructions = b.instructions ++
      (number b.nextId code ++ [⟨⟨b.nextId + code.length⟩, .ret, .none⟩]) := by
  simp [splice, size, number_append, number, Instruction.plain, Instruction.unplaced]

/-- What is put in starts with the next number, even if it is the return alone. -/
theorem head_push (code : List Instruction) (first : Nat) :
    ((number first code ++ [(⟨⟨first + code.length⟩, .ret, .none⟩ : Instruction)]).map
      (·.id)).head? = some ⟨first⟩ := by
  cases code <;> rfl

/-- Where control goes once code and a return were put in behind a body. -/
theorem of_successor_push (hPlain : ∀ i ∈ code, i.Plain)
    (h : y ∈ (FlowIndex.build (b.splice b.size (code ++ [.plain .ret]))).successors a) :
    y ∈ (FlowIndex.build b).successors a ∨ (a ∈ b.ids ∧ y = ⟨b.nextId⟩) ∨
      ∃ n < code.length, a = ⟨b.nextId + n⟩ ∧ y = ⟨b.nextId + (n + 1)⟩ := by
  have hOn : ∀ i ∈ code, i.PassesOn :=
    fun i hMem => Instruction.passesOn_of_next (hPlain i hMem).next
  rcases FlowIndex.mem_successors.mp h with hStep | hJump
  · change (a, y) ∈
      FlowIndex.stepsOf (b.splice b.size (code ++ [.plain .ret])).instructions at hStep
    rw [push_instructions] at hStep
    rcases FlowIndex.of_mem_stepsOf_append hStep with hOld | ⟨hMem, hHead⟩ | hNew
    · exact Or.inl (FlowIndex.mem_successors.mpr (Or.inl hOld))
    · rw [head_push] at hHead
      exact Or.inr (Or.inl ⟨hMem, (Option.some_inj.mp hHead).symm⟩)
    · obtain ⟨n, hn, rfl, rfl⟩ := (FlowIndex.mem_stepsOf_number hOn).mp hNew
      refine Or.inr (Or.inr ⟨n, hn, rfl, ?_⟩)
      split
      · rename_i hLast
        rw [hLast]
      · rfl
  · change (a, y) ∈ (b.splice b.size (code ++ [.plain .ret])).instructions.flatMap
      FlowIndex.jumpsFrom at hJump
    have hNone : [(⟨⟨b.nextId + code.length⟩, .ret, .none⟩ : Instruction)].flatMap
        FlowIndex.jumpsFrom = [] := rfl
    rw [push_instructions, List.flatMap_append, List.flatMap_append, FlowIndex.jumps_number hOn,
      hNone, List.append_nil, List.append_nil] at hJump
    exact Or.inl (FlowIndex.mem_successors.mpr (Or.inr hJump))

/-- Walks stay in the old code until they leave it for the new code, which they pass in order. -/
theorem of_walks_push (hNumbered : b.Numbered) (hClosed : b.references ⊆ b.ids)
    (hPlain : ∀ i ∈ code, i.Plain) {start : List Value} {trail : List InstrId} {id : InstrId}
    (h : (CodeView.ofBody q method
      (b.splice b.size (code ++ [.plain .ret]))).Walks start trail id) :
    id ∈ b.ids ∧ (CodeView.ofBody p method b).Walks start trail id ∨
      ∃ n ≤ code.length, id = ⟨b.nextId + n⟩ ∧ ∃ old,
        trail = ((numbers b.nextId code).take n).reverse ++ old ∧
          (∀ other ∈ old, other ∈ b.ids) ∧ (CodeView.ofBody p method b).Passes start old := by
  have hHandler {id : InstrId} {e : Option TypeRef}
      (hEntry : FlowIndex.handlerEntry? (.build b) id = some e) : id ∈ b.ids := by
    obtain ⟨_, hMem, rfl⟩ := List.mem_map.mp (CodeView.mem_entries_of_handler hEntry)
    obtain ⟨handler, hThere, rfl⟩ := List.mem_map.mp hMem
    exact handlerStart_mem hClosed hThere
  induction h with
  | @enter id stack hEnters =>
      cases hEnters with
      | catching hEntry =>
          exact Or.inl ⟨hHandler (e := some _) hEntry, .enter (.catching hEntry)⟩
      | finishing hEntry => exact Or.inl ⟨hHandler (e := none) hEntry, .enter (.finishing hEntry)⟩
      | start hEntry =>
          have hHead : ((b.splice b.size (code ++ [.plain .ret])).instructions.map (·.id)).head?
              = some id := hEntry
          rw [push_instructions, List.map_append, List.head?_append] at hHead
          cases hFirst : (b.instructions.map (·.id)).head? with
          | some first =>
              rw [hFirst] at hHead
              obtain rfl : first = id := Option.some_inj.mp hHead
              exact Or.inl ⟨List.mem_of_mem_head? hFirst, .enter (.start hFirst)⟩
          | none =>
              rw [hFirst, Option.none_or, head_push] at hHead
              have hNew : id = ⟨b.nextId⟩ := (Option.some_inj.mp hHead).symm
              exact Or.inr ⟨0, Nat.zero_le _, hNew, [], rfl, nofun, trivial⟩
  | @step start trail a y hWalk hFlow ih =>
      rcases of_successor_push hPlain hFlow with hFlow | ⟨hMem, rfl⟩ | ⟨n, hn, rfl, rfl⟩
      · rcases ih with ⟨-, hBefore⟩ | ⟨n, -, rfl, -⟩
        · exact Or.inl ⟨mem_ids_of_successor hClosed hFlow, hBefore.step hFlow⟩
        · exact absurd (hNumbered.below_ids (FlowIndex.mem_order_of_successor hFlow)) (by simp)
      · rcases ih with ⟨-, hBefore⟩ | ⟨n, -, rfl, -⟩
        · have hBehind : ∀ other ∈ trail, other ∈ b.ids := hBefore.mem_order rfl
          refine Or.inr ⟨0, Nat.zero_le _, rfl, _, rfl, ?_, hBefore⟩
          exact List.forall_mem_cons.mpr ⟨hMem, hBehind⟩
        · exact absurd (hNumbered.below_ids hMem) (by simp)
      · rcases ih with ⟨hMem, -⟩ | ⟨m, hm, hSame, old, rfl, hPassed⟩
        · exact absurd (hNumbered.below_ids hMem) (by simp)
        · obtain rfl : n = m := Nat.add_left_cancel (InstrId.mk.inj hSame)
          exact Or.inr ⟨n + 1, hn, rfl, old, (CodeView.Spliced.take_numbers hn old).symm, hPassed⟩

end Push

section AtReturns

variable {u : Unit} (hNumbered : b.Numbered) (hClosed : b.references ⊆ b.ids)
  (hPlain : ∀ i ∈ code, i.Plain)

include hNumbered hClosed hPlain

theorem push_passedOnce (hReturns : b.returns = [])
    (hReturn : ret ∈ (b.splice b.size (code ++ [.plain .ret])).returns) :
    (CodeView.ofBody p method b).PassedOnce
      (.ofBody q method (b.splice b.size (code ++ [.plain .ret]))) code b.nextId ret := by
  have hFresh : ∀ id ∈ numbers b.nextId code, id ∉ b.ids := fun id hMem hOld =>
    absurd (hNumbered.below_ids hOld) (Nat.not_lt.mpr (mem_numbers.mp hMem).1)
  obtain rfl : ret = ⟨b.nextId + code.length⟩ := by
    obtain ⟨i, hMem, hRet, rfl⟩ := mem_returns.mp hReturn
    rw [push_instructions, List.mem_append, List.mem_append, List.mem_singleton] at hMem
    rcases hMem with hOld | hNew | rfl
    · have hThere : i.id ∈ b.returns := mem_returns.mpr ⟨i, hOld, hRet, rfl⟩
      rw [hReturns] at hThere
      cases hThere
    · have hNext := (Instruction.Plain.number hPlain b.nextId i hNew).next
      rw [hRet] at hNext
      cases hNext
    · rfl
  have hNotOld : (⟨b.nextId + code.length⟩ : InstrId) ∉ b.ids :=
    fun hMem => absurd (hNumbered.below_ids hMem) (by simp)
  refine ⟨hFresh, fun i hMem => ?_, fun start trail hWalk => ?_, fun hOld => (hNotOld hOld).elim⟩
  · have hDistinct := (hNumbered.splice b.size (code ++ [Instruction.plain .ret])).distinct
    refine CodeView.ofBody_instr hDistinct ?_
    rw [push_instructions]
    exact List.mem_append_right _ (List.mem_append_left _ hMem)
  · rcases of_walks_push hNumbered hClosed hPlain (p := p) hWalk with
      ⟨hOld, -⟩ | ⟨n, -, hAt, old, rfl, hOld, hPassed⟩
    · exact (hNotOld hOld).elim
    · obtain rfl : code.length = n := Nat.add_left_cancel (InstrId.mk.inj hAt)
      exact ⟨old, by rw [CodeView.Spliced.take_numbers_all], hOld, hPassed⟩

/-- Code that is run ahead of every return, or ahead of one that is put behind it where there was
none, is passed once on each walk that comes to a return. -/
theorem insertAtReturns_passedOnce (p q : Program) (method : MethodId) (hSome : code ≠ [])
    (h : insertAtReturns code b = .ok u c) :
    (∀ ret ∈ c.returns, ∃ first,
      (CodeView.ofBody p method b).PassedOnce (.ofBody q method c) code first ret) ∧
    b.returns ⊆ c.returns ∧
    (b.returns = [] →
      c.instructions = b.instructions ++ number b.nextId (code ++ [.plain .ret])) := by
  by_cases hReturns : b.returns = []
  · obtain ⟨_, _, hGet, h⟩ := Step.bind_ok.mp h
    obtain ⟨rfl, rfl⟩ := Step.get_ok.mp hGet
    simp only [hReturns, push, Step.bind_ok, Step.get_ok, Step.set_ok, Step.pure_ok] at h
    obtain ⟨_, _, ⟨_, _, ⟨rfl, rfl⟩, _, _, rfl, -, rfl⟩, -, rfl⟩ := h
    refine ⟨fun ret hReturn => ⟨_, push_passedOnce hNumbered hClosed hPlain hReturns hReturn⟩,
      by simp [hReturns], fun _ => ?_⟩
    simp [splice, size]
  · have hFilling : Filling p q method b code [] c :=
      insertAtReturns_filling hNumbered hClosed hSome hPlain hReturns h
    refine ⟨fun ret hReturn => ?_, fun id hMem => (hFilling.returns id).mpr hMem,
      fun hNone => (hReturns hNone).elim⟩
    obtain ⟨first, hFirst, hDone⟩ :=
      hFilling.done ret ((hFilling.returns ret).mp hReturn) List.not_mem_nil
    refine ⟨first, fun id hMem hOld => ?_, hDone.holds, fun start trail hWalk => ?_,
      fun _ start old => ?_⟩
    · have hBelow := hNumbered.below_ids hOld
      have hAbove := (mem_numbers.mp hMem).1
      omega
    · obtain ⟨old, hBefore, rfl⟩ := (hDone.walks start trail).mp hWalk
      exact ⟨old, rfl, hBefore.mem_order rfl, hBefore.passes⟩
    · simp [hDone.walks]

end AtReturns

end MethodBody

end ContextBinding
