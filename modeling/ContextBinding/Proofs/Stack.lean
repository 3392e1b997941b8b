import ContextBinding.Proofs.Table
import ContextBinding.Provenance.View
import Mathlib.Algebra.Order.BigOperators.Group.Finset
import Mathlib.Data.Finset.Interval
import Mathlib.Logic.Relation
import Mathlib.Order.Interval.Finset.Nat

/-! Walks over the code of one method. A walk records for each value on the stack
 what pushed it, so that the values that can be at a depth are a property of all
 walks. In code with consistent stack heights every depth below the height is
 filled on each of them. -/

namespace ContextBinding

open Relation

/-- What put a value on the stack. -/
inductive Origin where
  /-- An instruction pushed the value. -/
  | pushed (id : InstrId)
  /-- The value is the exception at the entry of a handler. -/
  | caught (entry : InstrId)
  deriving DecidableEq, Repr

namespace FlowIndex

theorem mem_foldl_insertNew {α : Type} [DecidableEq α] {a : α} {l acc : List α} :
    a ∈ l.foldl insertNew acc ↔ a ∈ acc ∨ a ∈ l := by
  induction l generalizing acc with
  | nil => simp
  | cons b l ih => rw [List.foldl_cons, ih, mem_insertNew, List.mem_cons, or_assoc]

/-- Predecessors and successors are read off the same edges. -/
theorem mem_predecessors {index : FlowIndex} {a b : InstrId} :
    a ∈ index.predecessors b ↔ b ∈ index.successors a := by
  unfold predecessors successors
  simp [mem_foldl_insertNew]

theorem mem_of_mem_stepsOf {code : List Instruction} {a b : InstrId} (h : (a, b) ∈ stepsOf code) :
    a ∈ code.map (·.id) := by
  fun_induction stepsOf code with
  | case1 c d rest _ ih =>
      rcases List.mem_cons.mp h with h | h
      · exact List.mem_map.mpr ⟨c, List.mem_cons_self .., (Prod.ext_iff.mp h).1.symm⟩
      · exact List.mem_cons_of_mem _ (ih h)
  | case2 c d rest _ ih => exact List.mem_cons_of_mem _ (ih h)
  | case3 => cases h

/-- Edges start at instructions of the code. -/
theorem mem_order_of_successor {body : MethodBody} {a b : InstrId}
    (h : b ∈ (build body).successors a) : a ∈ (build body).order := by
  unfold successors at h
  rcases mem_foldl_insertNew.mp h with h | h
  · simp only [List.mem_map, List.mem_filter, beq_iff_eq] at h
    obtain ⟨⟨c, d⟩, ⟨hEdge, rfl⟩, rfl⟩ := h
    exact mem_of_mem_stepsOf hEdge
  · simp only [List.mem_map, List.mem_filter, beq_iff_eq] at h
    obtain ⟨⟨c, d⟩, ⟨hEdge, rfl⟩, rfl⟩ := h
    obtain ⟨i, hMem, hJump⟩ := List.mem_flatMap.mp hEdge
    unfold jumpsFrom at hJump
    split at hJump
    · obtain ⟨target, -, hSame⟩ := List.mem_map.mp hJump
      exact List.mem_map.mpr ⟨i, hMem, (Prod.ext_iff.mp hSame).1⟩
    · cases hJump

/-- The place of an instruction holds it. -/
theorem getElem?_of_lastPosition? {id : InstrId} {order : List InstrId} {position : Nat}
    (h : lastPosition? id order = some position) : order[position]? = some id := by
  induction order generalizing position with
  | nil => cases h
  | cons a order ih =>
      rw [lastPosition?] at h
      split at h
      · rename_i later hLater
        obtain rfl := Option.some_inj.mp h
        simpa using ih hLater
      · split at h
        · rename_i hSame
          obtain rfl := Option.some_inj.mp h
          simp [hSame]
        · cases h

end FlowIndex

namespace CodeView

variable {v : CodeView} {height : InstrId → Nat}

/-- The view of a method's code with the index made from it. -/
def ofBody (p : Program) (method : MethodId) (b : MethodBody) : CodeView :=
  ⟨p, method, b, FlowIndex.build b⟩

/-- The code is entered at an instruction with the given stack, the top first. A
handler that catches starts with the exception. -/
inductive Enters (v : CodeView) : InstrId → List Origin → Prop where
  | start {id : InstrId} (h : v.index.entry? = some id) : Enters v id []
  | catching {id : InstrId} {type : TypeRef} (h : v.index.handlerEntry? id = some (some type)) :
      Enters v id [.caught id]
  | finishing {id : InstrId} (h : v.index.handlerEntry? id = some none) : Enters v id []

/-- Some walk comes to an instruction with the given stack, the top first. A step
takes and leaves as many values as the instruction's stack effect says. -/
inductive Arrives (v : CodeView) : InstrId → List Origin → Prop where
  | enter {id : InstrId} {stack : List Origin} (h : v.Enters id stack) : Arrives v id stack
  | step {a b : InstrId} {stack : List Origin} {effect : StackEffect} (prior : Arrives v a stack)
      (hFlow : b ∈ v.index.successors a) (hEffect : v.effect a = .ok effect)
      (hTaken : effect.pops ≤ stack.length) :
      Arrives v b (List.replicate effect.pushes (.pushed a) ++ stack.drop effect.pops)

/-- Control can come to an instruction from the start or from the entry of a
handler. -/
def Reachable (v : CodeView) (id : InstrId) : Prop :=
  ∃ entry stack, v.Enters entry stack ∧ ReflTransGen (fun a b => b ∈ v.index.successors a) entry id

/-- The instruction leaves a protected region, and with it the stack. -/
def Leaves (v : CodeView) (id : InstrId) : Prop := ∃ i, v.instr id = .ok i ∧ i.opcode = .leave

/-- Stack heights agree with the code. Every instruction takes no more than there
is, and what it leaves is the height wherever control goes from it. A `leave`
empties the stack. -/
structure HasHeights (v : CodeView) (height : InstrId → Nat) : Prop where
  current : v.index = FlowIndex.build v.body
  effects : ∀ id ∈ v.index.order, ∃ effect, v.effect id = .ok effect ∧ effect.pops ≤ height id
  targets : ∀ a b, b ∈ v.index.successors a → b ∈ v.index.order
  start : ∀ id, v.index.entry? = some id → height id = 0
  caught : ∀ id type, v.index.handlerEntry? id = some (some type) → height id = 1
  finishing : ∀ id, v.index.handlerEntry? id = some none → height id = 0
  left : ∀ a b, b ∈ v.index.successors a → v.Leaves a → height b = 0
  flow : ∀ a b effect, b ∈ v.index.successors a → ¬ v.Leaves a → v.effect a = .ok effect →
    height b = height a - effect.pops + effect.pushes

/-- Stack heights agree with a part of the code. Nothing is asked of other code, apart
from that edges start at instructions. -/
structure HasHeightsOn (v : CodeView) (part : InstrId → Prop) (height : InstrId → Nat) : Prop where
  sources : ∀ a b, b ∈ v.index.successors a → a ∈ v.index.order
  effects : ∀ id ∈ v.index.order, part id →
    ∃ effect, v.effect id = .ok effect ∧ effect.pops ≤ height id
  start : ∀ id, v.index.entry? = some id → height id = 0
  caught : ∀ id type, v.index.handlerEntry? id = some (some type) → height id = 1
  finishing : ∀ id, v.index.handlerEntry? id = some none → height id = 0
  left : ∀ a b, b ∈ v.index.successors a → part a → v.Leaves a → height b = 0
  flow : ∀ a b effect, b ∈ v.index.successors a → part a → ¬ v.Leaves a →
    v.effect a = .ok effect → height b = height a - effect.pops + effect.pushes

/-- Stack heights agree with a part of the code that no other code leads into. -/
structure Retraceable (v : CodeView) (part : InstrId → Prop) (height : InstrId → Nat) : Prop extends
    v.HasHeightsOn part height where
  closed : ∀ a b, b ∈ v.index.successors a → part b → part a

/-- Code with stack heights in which every instruction can be reached, and handlers
are only entered from outside. -/
structure Traceable (v : CodeView) (height : InstrId → Nat) : Prop extends
    v.HasHeights height where
  reachable : ∀ id ∈ v.index.order, v.Reachable id
  isolated : ∀ a b, b ∈ v.index.successors a → v.index.handlerEntry? b = none

/-- A value can be at a depth just before an instruction. It was pushed by the
instruction ahead, or was there already, beneath what that instruction took. -/
inductive Traces (v : CodeView) : Origin → InstrId → Nat → Prop where
  | caught {id : InstrId} {type : TypeRef} (h : v.index.handlerEntry? id = some (some type)) :
      Traces v (.caught id) id 0
  | pushed {a b : InstrId} {depth : Nat} {effect : StackEffect} (hFlow : b ∈ v.index.successors a)
      (hEffect : v.effect a = .ok effect) (hDepth : depth < effect.pushes) :
      Traces v (.pushed a) b depth
  | passed {o : Origin} {a b : InstrId} {depth : Nat} {effect : StackEffect}
      (prior : Traces v o a depth) (hFlow : b ∈ v.index.successors a)
      (hEffect : v.effect a = .ok effect) (hDepth : effect.pops ≤ depth) :
      Traces v o b (depth - effect.pops + effect.pushes)

theorem Reachable.of_entry {id : InstrId} {stack : List Origin} (h : v.Enters id stack) :
    v.Reachable id :=
  ⟨id, stack, h, .refl⟩

theorem Reachable.next {a b : InstrId} (h : v.Reachable a) (hFlow : b ∈ v.index.successors a) :
    v.Reachable b := by
  obtain ⟨entry, stack, hEnters, hPath⟩ := h
  exact ⟨entry, stack, hEnters, hPath.tail hFlow⟩

/-- The height after an instruction is the same on every edge, unless the instruction
leaves. -/
theorem HasHeightsOn.height_le {part : InstrId → Prop} (h : v.HasHeightsOn part height)
    {a b : InstrId} (hFlow : b ∈ v.index.successors a) (hPart : part a) {effect : StackEffect}
    (hEffect : v.effect a = .ok effect) : height b ≤ height a - effect.pops + effect.pushes := by
  by_cases hLeaves : v.Leaves a
  · rw [h.left a b hFlow hPart hLeaves]
    exact Nat.zero_le _
  · exact (h.flow a b effect hFlow hPart hLeaves hEffect).le

namespace HasHeights

theorem mem_order (h : v.HasHeights height) {a b : InstrId} (hFlow : b ∈ v.index.successors a) :
    a ∈ v.index.order := by
  rw [h.current] at hFlow ⊢
  exact FlowIndex.mem_order_of_successor hFlow

theorem on (h : v.HasHeights height) (part : InstrId → Prop) : v.HasHeightsOn part height where
  sources _ _ hFlow := h.mem_order hFlow
  effects id hMem _ := h.effects id hMem
  start := h.start
  caught := h.caught
  finishing := h.finishing
  left a b hFlow _ := h.left a b hFlow
  flow a b effect hFlow _ := h.flow a b effect hFlow

theorem retraceable (h : v.HasHeights height) (hReach : ∀ id ∈ v.index.order, v.Reachable id) :
    v.Retraceable v.Reachable height where
  toHasHeightsOn := h.on v.Reachable
  closed a _ hFlow _ := hReach a (h.mem_order hFlow)

/-- Some walk comes to each instruction that can be reached, and brings at least as
many values as the height says. -/
theorem exists_arrives (h : v.HasHeights height) {id : InstrId} (hReach : v.Reachable id) :
    ∃ stack, v.Arrives id stack ∧ height id ≤ stack.length := by
  obtain ⟨entry, stack, hEnters, hPath⟩ := hReach
  induction hPath with
  | refl =>
      refine ⟨stack, .enter hEnters, ?_⟩
      cases hEnters with
      | start hEntry => exact (h.start _ hEntry).le
      | catching hCaught => exact (h.caught _ _ hCaught).le
      | finishing hFinal => exact (h.finishing _ hFinal).le
  | @tail a b hPath hFlow ih =>
      obtain ⟨prior, hArrives, hLength⟩ := ih
      obtain ⟨effect, hEffect, hPops⟩ := h.effects a (h.mem_order hFlow)
      refine ⟨_, .step hArrives hFlow hEffect (hPops.trans hLength), ?_⟩
      have hHeight := (h.on v.Reachable).height_le hFlow ⟨entry, stack, hEnters, hPath⟩ hEffect
      simp only [List.length_append, List.length_replicate, List.length_drop]
      omega

/-- A value is traced to what pushed it exactly if some walk brings it there. -/
theorem traces_iff (h : v.HasHeights height) (hReach : ∀ id ∈ v.index.order, v.Reachable id)
    {o : Origin} {id : InstrId} {depth : Nat} :
    v.Traces o id depth ↔ ∃ stack, v.Arrives id stack ∧ stack[depth]? = some o := by
  constructor
  · intro hTraces
    induction hTraces with
    | caught hCaught => exact ⟨_, .enter (.catching hCaught), rfl⟩
    | @pushed a b depth effect hFlow hEffect hDepth =>
        have hMem := h.mem_order hFlow
        obtain ⟨stack, hArrives, hLength⟩ := h.exists_arrives (hReach a hMem)
        obtain ⟨effect', hEffect', hPops⟩ := h.effects a hMem
        obtain rfl : effect' = effect := Except.ok.inj (hEffect'.symm.trans hEffect)
        refine ⟨_, .step hArrives hFlow hEffect (hPops.trans hLength), ?_⟩
        rw [List.getElem?_append_left (by simpa using hDepth), List.getElem?_replicate,
          if_pos hDepth]
    | @passed o a b depth effect _ hFlow hEffect hDepth ih =>
        obtain ⟨stack, hArrives, hValue⟩ := ih
        have hLength : depth < stack.length := (List.getElem?_eq_some_iff.mp hValue).1
        refine ⟨_, .step hArrives hFlow hEffect (by omega), ?_⟩
        rw [List.getElem?_append_right (by simp), List.getElem?_drop, ← hValue]
        congr 1
        rw [List.length_replicate]
        omega
  · rintro ⟨stack, hArrives, hValue⟩
    induction hArrives generalizing depth with
    | enter hEnters =>
        cases hEnters with
        | start hEntry => cases hValue
        | finishing hFinal => cases hValue
        | catching hCaught =>
            obtain ⟨hDepth, rfl⟩ := List.getElem?_eq_some_iff.mp hValue
            obtain rfl : depth = 0 := by simpa using hDepth
            exact .caught hCaught
    | @step a b stack effect _ hFlow hEffect hTaken ih =>
        by_cases hDepth : depth < effect.pushes
        · rw [List.getElem?_append_left (by simpa using hDepth), List.getElem?_replicate,
            if_pos hDepth] at hValue
          obtain rfl := Option.some_inj.mp hValue
          exact .pushed hFlow hEffect hDepth
        · rw [List.getElem?_append_right (by simpa using hDepth), List.getElem?_drop,
            List.length_replicate] at hValue
          have hPassed := Traces.passed (ih hValue) hFlow hEffect (by omega)
          have hSame : effect.pops + (depth - effect.pushes) - effect.pops + effect.pushes = depth := by
            omega
          rwa [hSame] at hPassed

end HasHeights

section Bound

/-- The number of values that the instruction at a place takes and leaves. -/
def trafficAt (v : CodeView) (position : Nat) : Nat :=
  ((v.body.at? position).map v.trafficOf).getD 0

theorem sum_getD (l : List Nat) : ∑ k ∈ Finset.range l.length, (l[k]?.getD 0) = l.sum := by
  induction l with
  | nil => rfl
  | cons n l ih =>
      rw [List.length_cons, Finset.sum_range_succ', List.sum_cons, ← ih, Nat.add_comm]
      simp

theorem sum_trafficAt : ∑ k ∈ Finset.range v.body.size, v.trafficAt k = v.traffic := by
  have hFold (l : List Instruction) (total : Nat) :
      l.foldl (fun total i => total + v.trafficOf i) total = total + (l.map v.trafficOf).sum := by
    induction l generalizing total with
    | nil => rfl
    | cons i l ih => rw [List.foldl_cons, ih, List.map_cons, List.sum_cons, Nat.add_assoc]
  unfold traffic
  rw [hFold, Nat.zero_add, ← sum_getD, List.length_map]
  refine Finset.sum_congr rfl fun k _ => ?_
  simp [trafficAt, MethodBody.at?]

/-- The instruction of an effect stands at some place of the code. -/
theorem exists_position {id : InstrId} {effect : StackEffect} (h : v.effect id = .ok effect) :
    ∃ k < v.body.size, v.index.order[k]? = some id ∧ effect.pops + effect.pushes = v.trafficAt k := by
  unfold CodeView.effect instr at h
  split at h
  · rename_i i hAt
    obtain ⟨k, hPosition, hAt⟩ := Option.bind_eq_some_iff.mp hAt
    replace h : v.program.stackEffect v.method i = .ok effect := h
    refine ⟨k, (List.getElem?_eq_some_iff.mp hAt).1,
      FlowIndex.getElem?_of_lastPosition? hPosition, ?_⟩
    simp [trafficAt, hAt, trafficOf, h]
  · cases h

/-- An instruction with a stack effect is part of the code. -/
theorem mem_order_of_effect {id : InstrId} {effect : StackEffect} (h : v.effect id = .ok effect) :
    id ∈ v.index.order := by
  obtain ⟨k, -, hOrder, -⟩ := exists_position h
  exact List.mem_of_getElem? hOrder

/-- What an instruction takes is there. -/
theorem HasHeightsOn.pops_le {part : InstrId → Prop} (h : v.HasHeightsOn part height)
    {id : InstrId} (hPart : part id) {effect : StackEffect} (hEffect : v.effect id = .ok effect) :
    effect.pops ≤ height id := by
  obtain ⟨effect', hEffect', hPops⟩ := h.effects id (mem_order_of_effect hEffect) hPart
  obtain rfl : effect' = effect := Except.ok.inj (hEffect'.symm.trans hEffect)
  exact hPops

theorem HasHeights.pops_le (h : v.HasHeights height) {id : InstrId} {effect : StackEffect}
    (hEffect : v.effect id = .ok effect) : effect.pops ≤ height id :=
  (h.on fun _ => True).pops_le trivial hEffect

/-- Each height above that of an entry is passed somewhere on the way up, by an
instruction that pushes past it. -/
theorem HasHeightsOn.exists_push (h : v.HasHeightsOn v.Reachable height) {id : InstrId}
    (hReach : v.Reachable id) {level : Nat} (hAbove : 1 < level) (hBelow : level ≤ height id) :
    ∃ a effect, v.effect a = .ok effect ∧ height a - effect.pops < level ∧
      level ≤ height a - effect.pops + effect.pushes := by
  obtain ⟨entry, stack, hEnters, hPath⟩ := hReach
  induction hPath with
  | refl =>
      have hLow : height entry ≤ 1 := by
        cases hEnters with
        | start hEntry => simp [h.start _ hEntry]
        | catching hCaught => simp [h.caught _ _ hCaught]
        | finishing hFinal => simp [h.finishing _ hFinal]
      omega
  | @tail a b hPath hFlow ih =>
      have hReach : v.Reachable a := ⟨entry, stack, hEnters, hPath⟩
      obtain ⟨effect, hEffect, -⟩ := h.effects a (h.sources a b hFlow) hReach
      have hHeight := h.height_le hFlow hReach hEffect
      by_cases hPushed : height a - effect.pops < level
      · exact ⟨a, effect, hEffect, hPushed, hBelow.trans hHeight⟩
      · exact ih (by omega)

/-- No height is larger than the number of values that all instructions push, one
more in a handler. -/
theorem HasHeightsOn.height_le_traffic (h : v.HasHeightsOn v.Reachable height) {id : InstrId}
    (hReach : v.Reachable id) : height id ≤ v.traffic + 1 := by
  let base (k : Nat) : Nat := (v.index.order[k]?).elim 0 fun a =>
    (v.effect a).toOption.elim 0 fun effect => height a - effect.pops
  have hCover : Finset.Ioc 1 (height id) ⊆
      (Finset.range v.body.size).biUnion fun k => Finset.Ioc (base k) (base k + v.trafficAt k) := by
    intro level hLevel
    obtain ⟨hAbove, hBelow⟩ := Finset.mem_Ioc.mp hLevel
    obtain ⟨a, effect, hEffect, hLow, hHigh⟩ := h.exists_push hReach hAbove hBelow
    obtain ⟨k, hk, hOrder, hTraffic⟩ := exists_position hEffect
    have hBase : base k = height a - effect.pops := by
      simp [base, hOrder, hEffect, Except.toOption]
    refine Finset.mem_biUnion.mpr ⟨k, Finset.mem_range.mpr hk, Finset.mem_Ioc.mpr ?_⟩
    omega
  have hCount : (Finset.Ioc 1 (height id)).card ≤ v.traffic := calc
    _ ≤ _ := Finset.card_le_card hCover
    _ ≤ ∑ k ∈ Finset.range v.body.size, (Finset.Ioc (base k) (base k + v.trafficAt k)).card :=
      Finset.card_biUnion_le
    _ = ∑ k ∈ Finset.range v.body.size, v.trafficAt k := by simp
    _ = v.traffic := sum_trafficAt
  rw [Nat.card_Ioc] at hCount
  omega

end Bound

section Check

/-- Whether the code is entered at an instruction. -/
def isEntry (v : CodeView) (id : InstrId) : Bool :=
  v.index.entry? == some id || (v.index.handlerEntry? id).isSome

/-- Whether each instruction is an entry or follows one that was met ahead of it. -/
def isRooted (v : CodeView) : List InstrId → List InstrId → Bool
  | _, [] => true
  | met, id :: rest =>
    (v.isEntry id || met.any fun a => (v.index.successors a).contains id) &&
      isRooted v (id :: met) rest

/-- Whether heights agree with one instruction and where control goes from it. -/
def agreesAt (v : CodeView) (height : InstrId → Nat) (a : InstrId) : Bool :=
  match v.instr a, v.effect a with
  | .ok i, .ok effect =>
    effect.pops ≤ height a && (v.index.successors a).all fun b =>
      v.index.order.contains b && (v.index.handlerEntry? b).isNone &&
        height b == if i.opcode = .leave then 0 else height a - effect.pops + effect.pushes
  | _, _ => false

/-- Whether heights agree with the stack at an entry. -/
def agreesAtEntry (v : CodeView) (height : InstrId → Nat) (entry : InstrId) : Bool :=
  match v.index.handlerEntry? entry with
  | some (some _) => height entry == 1
  | _ => height entry == 0

/-- Whether heights agree with code in which every instruction can be reached, in the
order of the code. -/
def isTraceable (v : CodeView) (height : InstrId → Nat) : Bool :=
  v.index.order.all (v.agreesAt height) && v.isRooted [] v.index.order &&
    (v.index.entry?.all fun id => height id == 0) &&
    (v.index.entries.map (·.1)).all (v.agreesAtEntry height)

theorem mem_entries_of_handler {index : FlowIndex} {id : InstrId} {entry : Option TypeRef}
    (h : index.handlerEntry? id = some entry) : id ∈ index.entries.map (·.1) := by
  obtain ⟨e, hLast, -⟩ := Option.map_eq_some_iff.mp h
  obtain ⟨hMem, hSame⟩ := List.mem_filter.mp (List.mem_of_getLast? hLast)
  exact List.mem_map.mpr ⟨e, hMem, by simpa using hSame⟩

theorem reachable_of_isEntry {id : InstrId} (h : v.isEntry id = true) : v.Reachable id := by
  unfold isEntry at h
  rcases Bool.or_eq_true_iff.mp h with hStart | hEntry
  · exact .of_entry (.start (by simpa using hStart))
  · obtain ⟨entry, hEntry⟩ := Option.isSome_iff_exists.mp hEntry
    cases entry with
    | none => exact .of_entry (.finishing hEntry)
    | some type => exact .of_entry (.catching hEntry)

theorem reachable_of_isRooted {met rest : List InstrId} (h : v.isRooted met rest = true)
    (hMet : ∀ id ∈ met, v.Reachable id) : ∀ id ∈ rest, v.Reachable id := by
  induction rest generalizing met with
  | nil => exact fun _ hMem => (List.not_mem_nil hMem).elim
  | cons id rest ih =>
      obtain ⟨hFirst, hRest⟩ := Bool.and_eq_true_iff.mp h
      have hReach : v.Reachable id := by
        rcases Bool.or_eq_true_iff.mp hFirst with hEntry | hFollows
        · exact reachable_of_isEntry hEntry
        · obtain ⟨a, hMem, hFlow⟩ := List.any_eq_true.mp hFollows
          exact (hMet a hMem).next (by simpa using hFlow)
      exact List.forall_mem_cons.mpr
        ⟨hReach, ih hRest (List.forall_mem_cons.mpr ⟨hReach, hMet⟩)⟩

/-- Instructions that control does not lead out of, and that all follow an entry, are those
that can be reached. -/
theorem mem_iff_reachable {part : List InstrId} (hRooted : v.isRooted [] part = true)
    (hEntries : ∀ id stack, v.Enters id stack → id ∈ part)
    (hNext : ∀ a ∈ part, ∀ b ∈ v.index.successors a, b ∈ part) {id : InstrId} :
    id ∈ part ↔ v.Reachable id := by
  refine ⟨reachable_of_isRooted hRooted (fun _ h => (List.not_mem_nil h).elim) id, ?_⟩
  rintro ⟨entry, stack, hEnters, hPath⟩
  induction hPath with
  | refl => exact hEntries entry stack hEnters
  | tail _ hFlow ih => exact hNext _ ih _ hFlow

/-- What the check of one instruction says. -/
theorem agreesAt_ok {a : InstrId} (h : v.agreesAt height a = true) : ∃ i effect,
    v.instr a = .ok i ∧ v.effect a = .ok effect ∧ effect.pops ≤ height a ∧
      ∀ b ∈ v.index.successors a, b ∈ v.index.order ∧ v.index.handlerEntry? b = none ∧
        height b = if i.opcode = .leave then 0 else height a - effect.pops + effect.pushes := by
  unfold agreesAt at h
  split at h
  · rename_i i effect hInstr hEffect
    simp only [Bool.and_eq_true, decide_eq_true_eq, List.all_eq_true, List.contains_iff_mem,
      beq_iff_eq, Option.isNone_iff_eq_none] at h
    exact ⟨i, effect, hInstr, hEffect, h.1, fun b hFlow =>
      ⟨(h.2 b hFlow).1.1, (h.2 b hFlow).1.2, (h.2 b hFlow).2⟩⟩
  · cases h

/-- Heights that agree with each instruction of a part and with the entries agree with
the part. -/
theorem HasHeightsOn.of_agreesAt {part : InstrId → Prop}
    (hCurrent : v.index = FlowIndex.build v.body)
    (hCode : ∀ a ∈ v.index.order, part a → v.agreesAt height a = true)
    (hStart : (v.index.entry?.all fun id => height id == 0) = true)
    (hEntries : (v.index.entries.map (·.1)).all (v.agreesAtEntry height) = true) :
    v.HasHeightsOn part height := by
  have hMem {a b : InstrId} (hFlow : b ∈ v.index.successors a) : a ∈ v.index.order := by
    rw [hCurrent] at hFlow ⊢
    exact FlowIndex.mem_order_of_successor hFlow
  have hHandler {id : InstrId} {entry : Option TypeRef}
      (hEntry : v.index.handlerEntry? id = some entry) : v.agreesAtEntry height id = true :=
    List.all_eq_true.mp hEntries id (mem_entries_of_handler hEntry)
  refine ⟨fun _ _ hFlow => hMem hFlow, ?_, ?_, ?_, ?_, ?_, ?_⟩
  · intro a hOrder hPart
    obtain ⟨i, effect, -, hEffect, hPops, -⟩ := agreesAt_ok (hCode a hOrder hPart)
    exact ⟨effect, hEffect, hPops⟩
  · intro id hFirst
    simpa [hFirst] using hStart
  · intro id type hEntry
    simpa [agreesAtEntry, hEntry] using hHandler hEntry
  · intro id hEntry
    simpa [agreesAtEntry, hEntry] using hHandler hEntry
  · rintro a b hFlow hPart ⟨i, hInstr, hLeave⟩
    obtain ⟨i', effect, hInstr', -, -, hNext⟩ := agreesAt_ok (hCode a (hMem hFlow) hPart)
    obtain rfl : i' = i := Except.ok.inj (hInstr'.symm.trans hInstr)
    simpa [hLeave] using (hNext b hFlow).2.2
  · intro a b effect hFlow hPart hStays hEffect
    obtain ⟨i, effect', hInstr, hEffect', -, hNext⟩ := agreesAt_ok (hCode a (hMem hFlow) hPart)
    obtain rfl : effect' = effect := Except.ok.inj (hEffect'.symm.trans hEffect)
    have hOpcode : i.opcode ≠ .leave := fun hLeave => hStays ⟨i, hInstr, hLeave⟩
    simpa [hOpcode] using (hNext b hFlow).2.2

/-- The check is right. -/
theorem traceable_of_isTraceable (hCurrent : v.index = FlowIndex.build v.body)
    (h : v.isTraceable height = true) : v.Traceable height := by
  simp only [isTraceable, Bool.and_eq_true, List.all_eq_true] at h
  obtain ⟨⟨⟨hCode, hRooted⟩, hStart⟩, hEntries⟩ := h
  have hOn : v.HasHeightsOn (fun _ => True) height :=
    .of_agreesAt hCurrent (fun a hOrder _ => hCode a hOrder) hStart (List.all_eq_true.mpr hEntries)
  have hNext {a b : InstrId} (hFlow : b ∈ v.index.successors a) :
      b ∈ v.index.order ∧ v.index.handlerEntry? b = none := by
    obtain ⟨i, effect, -, -, -, hNext⟩ := agreesAt_ok (hCode a (hOn.sources a b hFlow))
    exact ⟨(hNext b hFlow).1, (hNext b hFlow).2.1⟩
  exact {
    current := hCurrent
    effects := fun a hOrder => hOn.effects a hOrder trivial
    targets := fun _ _ hFlow => (hNext hFlow).1
    start := hOn.start
    caught := hOn.caught
    finishing := hOn.finishing
    left := fun a b hFlow => hOn.left a b hFlow trivial
    flow := fun a b effect hFlow => hOn.flow a b effect hFlow trivial
    reachable := reachable_of_isRooted hRooted fun _ h => (List.not_mem_nil h).elim
    isolated := fun _ _ hFlow => (hNext hFlow).2 }

end Check

end CodeView

end ContextBinding
