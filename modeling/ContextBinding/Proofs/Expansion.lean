import ContextBinding.Proofs.Frame
import ContextBinding.Proofs.Splice

/-! Walks over a body that new code was put into. Each of them is a walk over the old
 body that takes the new code on ahead of every pass of its anchor. -/

namespace ContextBinding

open MethodBody (numbers)

/-- A trail with new code ahead of every pass of an instruction, the latest first. -/
def expand (anchor : InstrId) (new trail : List InstrId) : List InstrId :=
  trail.flatMap fun id => if id = anchor then id :: new.reverse else [id]

/-- The trail on which control comes to an instruction. The anchor comes after the new code. -/
def expandTo (anchor : InstrId) (new : List InstrId) (id : InstrId) (trail : List InstrId) :
    List InstrId :=
  (if id = anchor then new.reverse else []) ++ expand anchor new trail

section Expand

variable {anchor id : InstrId} {new trail : List InstrId}

theorem expand_append (anchor : InstrId) (new trail trail' : List InstrId) :
    expand anchor new (trail ++ trail') = expand anchor new trail ++ expand anchor new trail' :=
  List.flatMap_append

theorem expand_cons_self (anchor : InstrId) (new trail : List InstrId) :
    expand anchor new (anchor :: trail) = anchor :: (new.reverse ++ expand anchor new trail) := by
  simp [expand]

theorem expand_cons_of_ne (h : id ≠ anchor) :
    expand anchor new (id :: trail) = id :: expand anchor new trail := by
  simp [expand, h]

theorem expand_of_not_mem (h : anchor ∉ trail) : expand anchor new trail = trail := by
  induction trail with
  | nil => rfl
  | cons id trail ih =>
      obtain ⟨hOther, hRest⟩ := not_or.mp (mt List.mem_cons.mpr h)
      rw [expand_cons_of_ne (Ne.symm hOther), ih hRest]

theorem count_expand (h : id ∉ new) : (expand anchor new trail).count id = trail.count id := by
  induction trail with
  | nil => rfl
  | cons other trail ih =>
      by_cases hOther : other = anchor
      · subst hOther
        rw [expand_cons_self, List.count_cons, List.count_append, List.count_reverse,
          List.count_eq_zero_of_not_mem h, ih, List.count_cons, Nat.zero_add]
      · rw [expand_cons_of_ne hOther, List.count_cons, ih, List.count_cons]

theorem expand_cons (anchor : InstrId) (new : List InstrId) (id : InstrId) (trail : List InstrId) :
    expand anchor new (id :: trail) = id :: expandTo anchor new id trail := by
  unfold expandTo
  split
  · rename_i hAnchor
    rw [hAnchor, expand_cons_self]
  · rename_i hAnchor
    rw [expand_cons_of_ne hAnchor]
    rfl

theorem count_expandTo (h : id ∉ new) (other : InstrId) :
    (expandTo anchor new other trail).count id = trail.count id := by
  have hNone : (if other = anchor then new.reverse else []).count id = 0 := by
    split
    · rw [List.count_reverse, List.count_eq_zero_of_not_mem h]
    · rfl
  rw [expandTo, List.count_append, hNone, count_expand h, Nat.zero_add]

/-- Without the new code an expanded trail is what it was. -/
theorem filter_expand {keep : InstrId → Bool} (hTrail : ∀ id ∈ trail, keep id = true)
    (hNew : ∀ id ∈ new, keep id = false) : (expand anchor new trail).filter keep = trail := by
  have hGone : new.reverse.filter keep = [] :=
    List.filter_eq_nil_iff.mpr fun id hMem => by simp [hNew id (List.mem_reverse.mp hMem)]
  induction trail with
  | nil => rfl
  | cons other trail ih =>
      obtain ⟨hFirst, hRest⟩ := List.forall_mem_cons.mp hTrail
      by_cases hOther : other = anchor
      · subst hOther
        rw [expand_cons_self, List.filter_cons_of_pos hFirst, List.filter_append, hGone, ih hRest]
        rfl
      · rw [expand_cons_of_ne hOther, List.filter_cons_of_pos hFirst, ih hRest]

theorem filter_expandTo {keep : InstrId → Bool} (hTrail : ∀ id ∈ trail, keep id = true)
    (hNew : ∀ id ∈ new, keep id = false) (other : InstrId) :
    (expandTo anchor new other trail).filter keep = trail := by
  have hGone : (if other = anchor then new.reverse else []).filter keep = [] := by
    refine List.filter_eq_nil_iff.mpr fun id hMem => ?_
    split at hMem
    · simp [hNew id (List.mem_reverse.mp hMem)]
    · cases hMem
  rw [expandTo, List.filter_append, hGone, filter_expand hTrail hNew, List.nil_append]

/-- What is passed after the expansion was passed before, or is new. -/
theorem mem_expand (h : id ∈ expand anchor new trail) : id ∈ trail ∨ anchor ∈ trail ∧ id ∈ new := by
  obtain ⟨other, hMem, hIn⟩ := List.mem_flatMap.mp h
  split at hIn
  · rename_i hAnchor
    subst hAnchor
    rcases List.mem_cons.mp hIn with rfl | hIn
    · exact Or.inl hMem
    · exact Or.inr ⟨hMem, List.mem_reverse.mp hIn⟩
  · exact Or.inl (List.mem_singleton.mp hIn ▸ hMem)

end Expand

/-- The view `v'` is `v` with `code` put in ahead of `anchor`, under numbers from `first` on that
`v` does not use. -/
structure CodeView.Spliced (v v' : CodeView) (anchor : InstrId) (first : Nat)
    (code : List Instruction) : Prop where
  nonempty : code ≠ []
  old : ∀ id ∈ v.index.order, id.index < first
  old_anchor : anchor.index < first
  old_entry : ∀ id stack, v.Enters id stack → id.index < first
  flow : ∀ a y, y ∈ v'.index.successors a ↔
    (∃ c ∈ v.index.successors a, anchor.redirect ⟨first⟩ c = y) ∨
      ∃ n < code.length, a = ⟨first + n⟩ ∧
        y = if n + 1 = code.length then anchor else ⟨first + (n + 1)⟩
  enters : ∀ x n, (∃ stack, v'.Enters x stack ∧ stack.length = n) ↔
    ∃ c stack, v.Enters c stack ∧ stack.length = n ∧ anchor.redirect ⟨first⟩ c = x
  instr : ∀ id i, v.instr id = .ok i → v'.instr id = .ok (i.retarget anchor ⟨first⟩)
  effects : v'.program.stackEffect = v.program.stackEffect
  method : v'.method = v.method
  holds : v'.Holds first code

namespace MethodBody.Inserts

variable {p p' : Program} {method : MethodId} {b b' : MethodBody} {anchor : InstrId}
  {code : List Instruction}

/-- A body with inserted code is a view with spliced code. -/
theorem spliced_view (h : b.Inserts anchor code b') (hNumbered : b.Numbered)
    (hHandlers : ∀ handler ∈ b.handlers, handler.handlerStart.index < b.nextId)
    (hNext : ∀ i ∈ code, i.opcode.flow = .next) (hEffects : p'.stackEffect = p.stackEffect) :
    (CodeView.ofBody p method b).Spliced (.ofBody p' method b') anchor b.nextId code := by
  have hOld : ∀ id ∈ b.instructions.map (·.id), id.index < b.nextId := by
    intro id hMem
    obtain ⟨i, hIn, rfl⟩ := List.mem_map.mp hMem
    exact hNumbered.below i hIn
  have hHandler {id : InstrId} {entry : Option TypeRef}
      (hEntry : FlowIndex.handlerEntry? (.build b) id = some entry) : id.index < b.nextId := by
    obtain ⟨e, hMem, rfl⟩ := List.mem_map.mp (CodeView.mem_entries_of_handler hEntry)
    obtain ⟨handler, hHandler, rfl⟩ := List.mem_map.mp hMem
    exact hHandlers handler hHandler
  refine ⟨h.nonempty, hOld, hOld anchor h.anchor_mem, fun id stack hEnters => ?_,
    fun a y => h.mem_successors hNumbered fun i hMem => Instruction.passesOn_of_next (hNext i hMem),
    fun x n => h.enters_iff hHandlers hNumbered,
    fun id i hInstr => ?_, hEffects, rfl, fun i hMem => h.instr_number hNumbered hMem⟩
  · cases hEnters with
    | start hEntry => exact hOld id (List.mem_of_mem_head? hEntry)
    | catching hEntry => exact hHandler hEntry
    | finishing hEntry => exact hHandler hEntry
  · obtain ⟨hMem, rfl⟩ := CodeView.of_ofBody_instr hInstr
    exact h.instr hNumbered hMem

end MethodBody.Inserts

namespace CodeView.Spliced

variable {v v' : CodeView} {anchor : InstrId} {first : Nat} {code : List Instruction}
  {start : List Value} {trail : List InstrId} {id : InstrId}

theorem pushesOne (h : v.Spliced v' anchor first code) {seq : List Instruction}
    (hOne : v.program.PushesOne v.method seq) : v'.program.PushesOne v'.method seq :=
  ⟨hOne.straight, hOne.noLocal, h.method ▸ Program.rises_congr h.effects _ hOne.rises⟩

theorem numbers_new (hMem : id ∈ numbers first code) : first ≤ id.index :=
  (MethodBody.mem_numbers.mp hMem).1

theorem not_mem_numbers (hOld : id.index < first) : id ∉ numbers first code :=
  fun hMem => Nat.not_le.mpr hOld (numbers_new hMem)

/-- Walks come to instructions of the old code only. -/
theorem old_walk (h : v.Spliced v' anchor first code)
    (hTargets : ∀ a b, b ∈ v.index.successors a → b ∈ v.index.order)
    (hWalk : v.Walks start trail id) : id.index < first := by
  cases hWalk with
  | enter hEnters => exact h.old_entry id _ hEnters
  | step _ hFlow => exact h.old id (hTargets _ _ hFlow)

/-- What the old code does is the same with the new one. -/
theorem instr_effect (h : v.Spliced v' anchor first code) {i : Instruction} {effect : StackEffect}
    (hInstr : v.instr id = .ok i) (hEffect : v.effect id = .ok effect) :
    ∃ j, v'.instr id = .ok j ∧ j.opcode = i.opcode ∧ v'.effect id = .ok effect := by
  have hInstr' := h.instr id i hInstr
  refine ⟨_, hInstr', rfl, ?_⟩
  rw [effect_of_instr hInstr', h.effects, h.method]
  rw [effect_of_instr hInstr] at hEffect
  exact Program.stackEffect_of_gist (i := i) (i.gist_retarget ..) hEffect

/-- Where control is once it passed `n` of the new instructions. -/
def passed (anchor : InstrId) (first : Nat) (code : List Instruction) (n : Nat) : InstrId :=
  if n = code.length then anchor else ⟨first + n⟩

theorem passed_zero (h : v.Spliced v' anchor first code) :
    passed anchor first code 0 = anchor.redirect ⟨first⟩ anchor := by
  have hSome : 0 ≠ code.length := (List.length_pos_iff.mpr h.nonempty).ne
  rw [InstrId.redirect_self, passed, if_neg hSome, Nat.add_zero]

theorem take_numbers {n : Nat} (h : n < code.length) (trail : List InstrId) :
    ((numbers first code).take (n + 1)).reverse ++ trail
      = ⟨first + n⟩ :: (((numbers first code).take n).reverse ++ trail) := by
  have hAt : (numbers first code)[n]? = some ⟨first + n⟩ := by
    unfold numbers
    rw [MethodBody.number_ids, List.getElem?_map, List.getElem?_range' h]
    simp
  rw [List.take_add_one, hAt]
  simp

theorem take_numbers_all : (numbers first code).take code.length = numbers first code :=
  List.take_of_length_le (by simp [numbers, MethodBody.number_ids])

/-- Where a walk over the old body is if it takes the new code on ahead of each pass of the anchor:
at another instruction, or ahead of the anchor after the first `n` instructions of the new code. -/
inductive Expands (v : CodeView) (anchor : InstrId) (first : Nat) (code : List Instruction)
    (start : List Value) : List InstrId → InstrId → Prop where
  | apart {trail : List InstrId} {id : InstrId} (h : v.Walks start trail id)
      (hOther : id ≠ anchor) :
      Expands v anchor first code start (expand anchor (numbers first code) trail) id
  | ahead {trail : List InstrId} {n : Nat} (h : v.Walks start trail anchor) (hn : n ≤ code.length) :
      Expands v anchor first code start
        (((numbers first code).take n).reverse ++ expand anchor (numbers first code) trail)
        (passed anchor first code n)

/-- The new code is passed from its first instruction to the anchor. -/
theorem walks_numbers (h : v.Spliced v' anchor first code)
    (hWalk : v'.Walks start trail (anchor.redirect ⟨first⟩ anchor)) {n : Nat}
    (hn : n ≤ code.length) :
    v'.Walks start (((numbers first code).take n).reverse ++ trail)
      (passed anchor first code n) := by
  induction n with
  | zero => rwa [h.passed_zero]
  | succ n ih =>
      rw [take_numbers hn]
      have hPrior := ih (Nat.le_of_succ_le hn)
      rw [passed, if_neg (Nat.ne_of_lt hn)] at hPrior
      exact hPrior.step ((h.flow _ _).mpr (Or.inr ⟨n, hn, rfl, rfl⟩))

/-- Every walk over the old body is there with the new code. -/
theorem walks_expand (h : v.Spliced v' anchor first code) (hWalk : v.Walks start trail id) :
    v'.Walks start (expand anchor (numbers first code) trail) (anchor.redirect ⟨first⟩ id) := by
  induction hWalk with
  | @enter id stack hEnters =>
      obtain ⟨stack', hEnters', hLength⟩ := (h.enters _ _).mpr ⟨id, stack, hEnters, rfl, rfl⟩
      exact hLength ▸ .enter hEnters'
  | @step start trail a b _ hFlow ih =>
      have hFlow' := (h.flow a _).mpr (Or.inl ⟨b, hFlow, rfl⟩)
      by_cases hAnchor : a = anchor
      · subst hAnchor
        have hPassed := h.walks_numbers ih (Nat.le_refl _)
        rw [passed, if_pos rfl, take_numbers_all] at hPassed
        rw [expand_cons_self]
        exact hPassed.step hFlow'
      · rw [expand_cons_of_ne hAnchor]
        rw [InstrId.redirect_of_ne hAnchor] at ih
        exact ih.step hFlow'

theorem walks_expandTo (h : v.Spliced v' anchor first code) (hWalk : v.Walks start trail id) :
    v'.Walks start (expandTo anchor (numbers first code) id trail) id := by
  have hExpanded := h.walks_expand hWalk
  unfold expandTo
  split
  · rename_i hAnchor
    subst hAnchor
    have hPassed := h.walks_numbers hExpanded (Nat.le_refl _)
    rwa [passed, if_pos rfl, take_numbers_all] at hPassed
  · rename_i hAnchor
    rwa [InstrId.redirect_of_ne hAnchor] at hExpanded

/-- Where the old walk goes, the new one goes, unless it has to pass the new code first. -/
theorem expands_old (h : v.Spliced v' anchor first code) (hOld : v.Walks start trail id) :
    Expands v anchor first code start (expand anchor (numbers first code) trail)
      (anchor.redirect ⟨first⟩ id) := by
  by_cases hAnchor : id = anchor
  · subst hAnchor
    rw [← h.passed_zero]
    exact .ahead hOld (Nat.zero_le _)
  · rw [InstrId.redirect_of_ne hAnchor]
    exact .apart hOld hAnchor

theorem expands_next (h : v.Spliced v' anchor first code)
    (hSources : ∀ a b, b ∈ v.index.successors a → a ∈ v.index.order)
    (hTargets : ∀ a b, b ∈ v.index.successors a → b ∈ v.index.order) {a y : InstrId}
    (hAt : Expands v anchor first code start trail a) (hFlow : y ∈ v'.index.successors a) :
    Expands v anchor first code start (a :: trail) y := by
  have hNew := (h.flow a y).mp hFlow
  cases hAt with
  | apart hOld hAnchor =>
      rcases hNew with ⟨c, hFlow₀, rfl⟩ | ⟨n, -, rfl, -⟩
      · rw [← expand_cons_of_ne hAnchor]
        exact h.expands_old (hOld.step hFlow₀)
      · exact absurd (h.old_walk hTargets hOld) (by simp)
  | @ahead _ n hOld hn =>
      by_cases hLast : n = code.length
      · rw [passed, if_pos hLast] at hNew ⊢
        rcases hNew with ⟨c, hFlow₀, rfl⟩ | ⟨m, -, hSame, -⟩
        · rw [hLast, take_numbers_all, ← expand_cons_self]
          exact h.expands_old (hOld.step hFlow₀)
        · have hOldAnchor := h.old_anchor
          rw [hSame] at hOldAnchor
          exact absurd hOldAnchor (by simp)
      · rw [passed, if_neg hLast] at hNew ⊢
        have hLess : n < code.length := Nat.lt_of_le_of_ne hn hLast
        rcases hNew with ⟨c, hFlow₀, -⟩ | ⟨m, -, hSame, rfl⟩
        · exact absurd (h.old _ (hSources _ _ hFlow₀)) (by simp)
        · obtain rfl : n = m := Nat.add_left_cancel (InstrId.mk.inj hSame)
          have hNext : Expands v anchor first code start _ _ := .ahead hOld hLess
          rwa [take_numbers hLess] at hNext

/-- Every walk with the new code is a walk over the old body that takes the new code on. -/
theorem of_walks (h : v.Spliced v' anchor first code)
    (hSources : ∀ a b, b ∈ v.index.successors a → a ∈ v.index.order)
    (hTargets : ∀ a b, b ∈ v.index.successors a → b ∈ v.index.order)
    (hWalk : v'.Walks start trail id) : Expands v anchor first code start trail id := by
  induction hWalk with
  | @enter id stack hEnters =>
      obtain ⟨c, stack₀, hEnters₀, hLength, rfl⟩ := (h.enters id _).mp ⟨stack, hEnters, rfl⟩
      have hOld : v.Walks (List.replicate stack.length .caught) [] c := hLength ▸ .enter hEnters₀
      exact h.expands_old hOld
  | step _ hFlow ih => exact h.expands_next hSources hTargets ih hFlow

/-- Walks that come to an instruction of the old body have passed all of the new code. -/
theorem of_walks_old (h : v.Spliced v' anchor first code)
    (hSources : ∀ a b, b ∈ v.index.successors a → a ∈ v.index.order)
    (hTargets : ∀ a b, b ∈ v.index.successors a → b ∈ v.index.order)
    (hOld : id.index < first) (hWalk : v'.Walks start trail id) :
    ∃ trail₀, v.Walks start trail₀ id ∧
      trail = expandTo anchor (numbers first code) id trail₀ := by
  cases h.of_walks hSources hTargets hWalk with
  | apart hWalk₀ hAnchor =>
      exact ⟨_, hWalk₀, by rw [expandTo, if_neg hAnchor, List.nil_append]⟩
  | @ahead _ n hWalk₀ hn =>
      have hLast : n = code.length := by
        by_contra hMore
        rw [passed, if_neg hMore] at hOld
        exact absurd hOld (by simp)
      rw [passed, if_pos hLast]
      exact ⟨_, hWalk₀, by rw [expandTo, if_pos rfl, hLast, take_numbers_all]⟩

section Frames

variable {height : InstrId → Nat} {i : Instruction} {effect : StackEffect}

/-- An instruction of the old body does the same with what is there when control comes to it, and
names what it leaves alike. -/
theorem stack_cons (h : v.Spliced v' anchor first code) (hOld : id.index < first)
    (hInstr : v.instr id = .ok i) (hEffect : v.effect id = .ok effect) :
    (v'.frame first start (expand anchor (numbers first code) (id :: trail))).stack =
      if i.opcode = .leave then [] else
        (List.range effect.pushes).map (.pushed id (trail.count id)) ++
          (v'.frame first start (expandTo anchor (numbers first code) id trail)).stack.drop
            effect.pops := by
  obtain ⟨j, hInstr', hOpcode, hEffect'⟩ := h.instr_effect hInstr hEffect
  rw [expand_cons, CodeView.stack_cons hOld hInstr' hEffect', hOpcode,
    count_expandTo (not_mem_numbers hOld)]

/-- What is on the stack above the operands of the anchor is the same with the new code ahead of it,
wherever a walk goes. -/
theorem take_stack (h : v.Spliced v' anchor first code) (hHeights : v.HasHeights height)
    (hAnchor : v.effect anchor = .ok effect) (hWalk : v.Walks start trail id) :
    (v'.frame first start (expand anchor (numbers first code) trail)).stack.take
        (height id - (height anchor - effect.pops))
      = (v.frame first start trail).stack.take (height id - (height anchor - effect.pops)) := by
  induction hWalk with
  | enter => rfl
  | @step start trail a b hWalk hFlow ih =>
      have hMem := hHeights.mem_order hFlow
      have hOld := h.old a hMem
      obtain ⟨taken, hEffect, hPops⟩ := hHeights.effects a hMem
      obtain ⟨i, hInstr⟩ := exists_instr hEffect
      rw [h.stack_cons hOld hInstr hEffect, CodeView.stack_cons hOld hInstr hEffect]
      by_cases hLeave : i.opcode = .leave
      · rw [if_pos hLeave, if_pos hLeave]
      · have hHeight := hHeights.flow a b taken hFlow (not_leaves hInstr hLeave) hEffect
        rw [if_neg hLeave, if_neg hLeave, List.take_append, List.take_append, List.length_map,
          List.length_range]
        congr 1
        by_cases hSame : a = anchor
        · -- What the anchor leaves is all that is above its operands.
          subst hSame
          obtain rfl := Except.ok.inj (hEffect.symm.trans hAnchor)
          have hNone : height b - (height a - taken.pops) - taken.pushes = 0 := by omega
          rw [hNone, List.take_zero, List.take_zero]
        · have hTo : expandTo anchor (numbers first code) a trail
              = expand anchor (numbers first code) trail := by
            rw [expandTo, if_neg hSame, List.nil_append]
          rw [hTo, List.take_drop, List.take_drop]
          by_cases hNone : height b - (height anchor - effect.pops) - taken.pushes = 0
          · rw [hNone, Nat.add_zero, List.drop_take_self, List.drop_take_self]
          · have hAbove : taken.pops + (height b - (height anchor - effect.pops) - taken.pushes)
                = height a - (height anchor - effect.pops) := by omega
            rw [hAbove, ih]

end Frames

end CodeView.Spliced

end ContextBinding
