import ContextBinding.Proofs.Numbering
import ContextBinding.Proofs.Stack
import Mathlib.Logic.Function.Basic

/-! Walks over the code of one method, with what is on the stack along them. A value
 has its name from the instruction that pushed it and from when it did, so that the
 walks of two bodies can be compared value by value. -/

namespace ContextBinding

/-- A value along a walk. An instruction names the values that it pushes by how often
the walk passed it before, and the topmost one has the first place. -/
inductive Value where
  /-- The exception that the walk started with. -/
  | caught
  | pushed (id : InstrId) (time place : Nat)
  deriving DecidableEq, Repr

/-- What a walk has on the stack, the top first, and what it stored last in each local. -/
structure Frame where
  stack : List Value
  stored : Nat → Option Value

namespace Instruction

/-- The local that is loaded. -/
def loads? (i : Instruction) : Option Nat := if i.opcode = .ldloc then i.localVar? else none

/-- The local that is stored. -/
def stores? (i : Instruction) : Option Nat := if i.opcode = .stloc then i.localVar? else none

theorem loads?_eq_none {i : Instruction} (h : i.localVar? = none) : i.loads? = none :=
  ite_eq_right_iff.mpr fun _ => h

theorem stores?_eq_none {i : Instruction} (h : i.localVar? = none) : i.stores? = none :=
  ite_eq_right_iff.mpr fun _ => h

end Instruction

namespace Frame

/-- The value that a load gives back. Locals are followed in the code from number `since` on;
a load of other code names a value of its own, as any other instruction does. -/
def recalled (f : Frame) (since : Nat) (id : InstrId) (i : Instruction) : Option Value :=
  if since ≤ id.index then i.loads?.bind f.stored else none

/-- The values that an instruction leaves. -/
def left (f : Frame) (since : Nat) (id : InstrId) (time : Nat) (i : Instruction)
    (effect : StackEffect) : List Value :=
  match f.recalled since id i with
  | some value => [value]
  | none => (List.range effect.pushes).map (.pushed id time)

/-- What is there after an instruction. A `leave` empties the stack. -/
def pass (f : Frame) (since : Nat) (id : InstrId) (time : Nat) (i : Instruction)
    (effect : StackEffect) : Frame where
  stack :=
    if i.opcode = .leave then [] else f.left since id time i effect ++ f.stack.drop effect.pops
  stored :=
    match i.stores? with
    | some l => Function.update f.stored l f.stack.head?
    | none => f.stored

variable {f : Frame} {since time : Nat} {id : InstrId} {i : Instruction} {effect : StackEffect}

theorem left_of_none (h : f.recalled since id i = none) :
    f.left since id time i effect = (List.range effect.pushes).map (.pushed id time) := by
  rw [left, h]

theorem recalled_of_lt (h : id.index < since) : f.recalled since id i = none :=
  if_neg (Nat.not_le.mpr h)

theorem recalled_of_not_loads (h : i.loads? = none) : f.recalled since id i = none := by
  simp [recalled, h]

theorem stored_pass (h : i.stores? = none) : (f.pass since id time i effect).stored = f.stored := by
  simp [pass, h]

end Frame

namespace CodeView

variable {v : CodeView} {since : Nat} {start : List Value} {trail : List InstrId} {id : InstrId}
  {i : Instruction} {effect : StackEffect}

/-- What there is at the end of a trail that starts with the given stack, the latest
instruction first. -/
def frame (v : CodeView) (since : Nat) (start : List Value) : List InstrId → Frame
  | [] => ⟨start, fun _ => none⟩
  | id :: trail =>
    match v.instr id, v.effect id with
    | .ok i, .ok effect => (v.frame since start trail).pass since id (trail.count id) i effect
    | _, _ => v.frame since start trail

/-- Control comes from an entry, over the instructions of a trail, to an instruction. What
the stack starts with is the exception at the entry of a handler that catches. -/
inductive Walks (v : CodeView) : List Value → List InstrId → InstrId → Prop where
  | enter {id : InstrId} {stack : List Origin} (h : v.Enters id stack) :
      Walks v (List.replicate stack.length .caught) [] id
  | step {start : List Value} {trail : List InstrId} {a b : InstrId} (prior : Walks v start trail a)
      (hFlow : b ∈ v.index.successors a) : Walks v start (a :: trail) b

theorem frame_cons (hInstr : v.instr id = .ok i) (hEffect : v.effect id = .ok effect) :
    v.frame since start (id :: trail)
      = (v.frame since start trail).pass since id (trail.count id) i effect := by
  rw [frame, hInstr, hEffect]

theorem effect_of_instr (hInstr : v.instr id = .ok i) :
    v.effect id = v.program.stackEffect v.method i := by
  rw [effect, hInstr]
  rfl

theorem exists_instr (hEffect : v.effect id = .ok effect) : ∃ i, v.instr id = .ok i := by
  obtain ⟨i, hInstr, -⟩ := Outcome.bind_ok.mp hEffect
  exact ⟨i, hInstr⟩

theorem not_leaves (hInstr : v.instr id = .ok i) (hStays : i.opcode ≠ .leave) : ¬ v.Leaves id := by
  rintro ⟨j, hInstr', hLeave⟩
  obtain rfl := Except.ok.inj (hInstr.symm.trans hInstr')
  exact hStays hLeave

/-- Code that is not followed replaces what it takes by values of its own. -/
theorem stack_cons (hOld : id.index < since) (hInstr : v.instr id = .ok i)
    (hEffect : v.effect id = .ok effect) : (v.frame since start (id :: trail)).stack =
      if i.opcode = .leave then [] else
        (List.range effect.pushes).map (.pushed id (trail.count id)) ++
          (v.frame since start trail).stack.drop effect.pops := by
  rw [frame_cons hInstr hEffect]
  simp only [Frame.pass, Frame.left_of_none (Frame.recalled_of_lt hOld)]

namespace Walks

theorem mem_order (h : v.Walks start trail id) (hCurrent : v.index = FlowIndex.build v.body) :
    ∀ other ∈ trail, other ∈ v.index.order := by
  induction h with
  | enter => exact fun _ hMem => (List.not_mem_nil hMem).elim
  | step _ hFlow ih =>
      refine List.forall_mem_cons.mpr ⟨?_, ih⟩
      rw [hCurrent] at hFlow ⊢
      exact FlowIndex.mem_order_of_successor hFlow

/-- In code with stack heights there are as many values as the height says. -/
theorem length_stack {height : InstrId → Nat} (hHeights : v.HasHeights height)
    (hOld : ∀ other ∈ v.index.order, other.index < since) (h : v.Walks start trail id) :
    (v.frame since start trail).stack.length = height id := by
  induction h with
  | enter hEnters =>
      rw [frame, List.length_replicate]
      cases hEnters with
      | start hEntry => exact (hHeights.start _ hEntry).symm
      | catching hCaught => exact (hHeights.caught _ _ hCaught).symm
      | finishing hFinal => exact (hHeights.finishing _ hFinal).symm
  | @step start trail a b _ hFlow ih =>
      have hMem := hHeights.mem_order hFlow
      obtain ⟨effect, hEffect, hPops⟩ := hHeights.effects a hMem
      obtain ⟨i, hInstr⟩ := exists_instr hEffect
      rw [stack_cons (hOld a hMem) hInstr hEffect]
      by_cases hLeave : i.opcode = .leave
      · rw [if_pos hLeave, hHeights.left a b hFlow ⟨i, hInstr, hLeave⟩]
        rfl
      · have hHeight := hHeights.flow a b effect hFlow (not_leaves hInstr hLeave) hEffect
        rw [if_neg hLeave, hHeight, List.length_append, List.length_map, List.length_range,
          List.length_drop, ih]
        omega

end Walks

end CodeView

open MethodBody (number)

/-- The numbers that code is given from a first one on. -/
def MethodBody.numbers (first : Nat) (code : List Instruction) : List InstrId :=
  (number first code).map (·.id)

/-- Code that only takes values of its own. It starts with `n` of them and ends with `m`. -/
def Program.Rises (p : Program) (method : MethodId) : Nat → List Instruction → Nat → Prop
  | n, [], m => n = m
  | n, i :: code, m => ∃ effect, p.stackEffect method i = .ok effect ∧ effect.pops ≤ n ∧
      Rises p method (n - effect.pops + effect.pushes) code m

/-- Straight code that names no local and leaves one value of its own. -/
structure Program.PushesOne (p : Program) (method : MethodId) (code : List Instruction) : Prop where
  straight : ∀ i ∈ code, i.opcode.flow = .next
  noLocal : ∀ i ∈ code, i.localVar? = none
  rises : p.Rises method 0 code 1

theorem Program.PushesOne.ne_nil {p : Program} {method : MethodId} {code : List Instruction}
    (h : p.PushesOne method code) : code ≠ [] := by
  rintro rfl
  exact Nat.zero_ne_one h.rises

theorem Program.rises_congr {p p' : Program} (hEffects : p'.stackEffect = p.stackEffect)
    (method : MethodId) {n m : Nat} {code : List Instruction} (h : p.Rises method n code m) :
    p'.Rises method n code m := by
  induction code generalizing n with
  | nil => exact h
  | cons i code ih =>
      obtain ⟨effect, hEffect, hPops, hRest⟩ := h
      exact ⟨effect, hEffects ▸ hEffect, hPops, ih hRest⟩

/-- What code does with values of its own it does above others as well. -/
theorem Program.Rises.above {p : Program} {method : MethodId} {n m : Nat} {code : List Instruction}
    (h : p.Rises method n code m) (k : Nat) : p.Rises method (n + k) code (m + k) := by
  induction code generalizing n with
  | nil => exact congrArg (· + k) h
  | cons i code ih =>
      obtain ⟨effect, hEffect, hPops, hRest⟩ := h
      refine ⟨effect, hEffect, Nat.le_add_right_of_le hPops, ?_⟩
      have hSame : n + k - effect.pops + effect.pushes = n - effect.pops + effect.pushes + k := by
        omega
      rw [hSame]
      exact ih hRest

theorem Program.Rises.append {p : Program} {method : MethodId} {n m k : Nat}
    {code rest : List Instruction} (h : p.Rises method n code m) (hRest : p.Rises method m rest k) :
    p.Rises method n (code ++ rest) k := by
  induction code generalizing n with
  | nil =>
      obtain rfl : n = m := h
      exact hRest
  | cons i code ih =>
      obtain ⟨effect, hEffect, hPops, hCode⟩ := h
      exact ⟨effect, hEffect, hPops, ih hCode⟩

/-- What a call of an instruction takes and leaves does not depend on its number and targets. -/
theorem Program.stackEffect_of_gist {p : Program} {method : MethodId} {i j : Instruction}
    {effect : StackEffect} (hGist : j.gist = i.gist) (h : p.stackEffect method i = .ok effect) :
    p.stackEffect method j = .ok effect := by
  simp only [Instruction.gist, Prod.mk.injEq] at hGist
  obtain ⟨hOpcode, -, hMethod⟩ := hGist
  unfold stackEffect at h ⊢
  rw [hOpcode, hMethod]
  split at h
  · exact h
  · split at h
    · exact h
    · split at h
      · split at h
        · rename_i hConstructor
          simpa only [hConstructor, if_true] using h
        · cases h
      · cases h
    · split at h
      · exact h
      · cases h

namespace MethodBody

theorem number_append (first : Nat) (code code' : List Instruction) :
    number first (code ++ code') = number first code ++ number (first + code.length) code' := by
  induction code generalizing first with
  | nil => rfl
  | cons i code ih =>
      simp only [List.cons_append, number, List.length_cons, ih, Nat.add_assoc, Nat.add_comm 1]

theorem numbers_append (first : Nat) (code code' : List Instruction) :
    numbers first (code ++ code') = numbers first code ++ numbers (first + code.length) code' := by
  rw [numbers, number_append, List.map_append]
  rfl

theorem mem_numbers {first : Nat} {code : List Instruction} {id : InstrId} :
    id ∈ numbers first code ↔ first ≤ id.index ∧ id.index < first + code.length := by
  unfold numbers
  rw [number_ids, List.mem_map]
  simp only [List.mem_range'_1]
  exact ⟨by rintro ⟨k, hk, rfl⟩; exact hk, fun h => ⟨id.index, h, rfl⟩⟩

end MethodBody

namespace CodeView

open MethodBody (numbers)

variable {v : CodeView} {since first : Nat} {start : List Value} {trail : List InstrId}
  {code : List Instruction}

/-- A body has numbered code. -/
def Holds (v : CodeView) (first : Nat) (code : List Instruction) : Prop :=
  ∀ i ∈ number first code, v.instr i.id = .ok i

theorem Holds.head {i : Instruction} (h : v.Holds first (i :: code)) :
    v.instr ⟨first⟩ = .ok { i with id := ⟨first⟩ } :=
  h _ (List.mem_cons_self ..)

theorem Holds.tail {i : Instruction} (h : v.Holds first (i :: code)) : v.Holds (first + 1) code :=
  fun j hMem => h j (List.mem_cons_of_mem _ hMem)

theorem Holds.left {code' : List Instruction} (h : v.Holds first (code ++ code')) :
    v.Holds first code :=
  fun i hMem => h i (MethodBody.number_append .. ▸ List.mem_append_left _ hMem)

theorem Holds.right {code' : List Instruction} (h : v.Holds first (code ++ code')) :
    v.Holds (first + code.length) code' :=
  fun i hMem => h i (MethodBody.number_append .. ▸ List.mem_append_right _ hMem)

theorem numbers_trail (first : Nat) (i : Instruction) (code : List Instruction)
    (trail : List InstrId) : (numbers first (i :: code)).reverse ++ trail
      = (numbers (first + 1) code).reverse ++ ⟨first⟩ :: trail := by
  simp [numbers, number]

/-- Code that takes values of its own only leaves what is beneath, and stores nothing. -/
theorem frame_rises (hHolds : v.Holds first code)
    (hPlain : ∀ i ∈ code, i.opcode.flow = .next ∧ i.localVar? = none) {n m : Nat}
    (hRises : v.program.Rises v.method n code m) {top rest : List Value}
    (hStack : (v.frame since start trail).stack = top ++ rest) (hTop : top.length = n) :
    ∃ top', (v.frame since start ((numbers first code).reverse ++ trail)).stack = top' ++ rest ∧
      top'.length = m ∧ (v.frame since start ((numbers first code).reverse ++ trail)).stored
        = (v.frame since start trail).stored := by
  induction code generalizing first trail top n with
  | nil =>
      obtain rfl : n = m := hRises
      exact ⟨top, hStack, hTop, rfl⟩
  | cons i code ih =>
      obtain ⟨hNext, hLocal⟩ := hPlain i (List.mem_cons_self ..)
      obtain ⟨effect, hEffect, hPops, hRises⟩ := hRises
      let j : Instruction := { i with id := ⟨first⟩ }
      have hInstr : v.instr ⟨first⟩ = .ok j := hHolds.head
      have hEffect' : v.effect ⟨first⟩ = .ok effect := by
        rw [effect_of_instr hInstr]
        exact Program.stackEffect_of_gist (i := i) rfl hEffect
      have hStays : j.opcode ≠ .leave := by
        intro hLeave
        rw [show i.opcode = .leave from hLeave] at hNext
        cases hNext
      have hFrame : v.frame since start (⟨first⟩ :: trail) = (v.frame since start trail).pass since
          ⟨first⟩ (trail.count ⟨first⟩) j effect := frame_cons hInstr hEffect'
      have hFresh : (v.frame since start trail).recalled since ⟨first⟩ j = none :=
        Frame.recalled_of_not_loads (Instruction.loads?_eq_none hLocal)
      have hLater : (v.frame since start (⟨first⟩ :: trail)).stack
          = ((List.range effect.pushes).map (.pushed ⟨first⟩ (trail.count ⟨first⟩)) ++
              top.drop effect.pops) ++ rest := by
        rw [hFrame]
        simp only [Frame.pass, if_neg hStays, Frame.left_of_none hFresh, hStack, List.append_assoc]
        rw [List.drop_append_of_le_length (hTop ▸ hPops)]
      have hLength : ((List.range effect.pushes).map (Value.pushed ⟨first⟩ (trail.count ⟨first⟩)) ++
          top.drop effect.pops).length = n - effect.pops + effect.pushes := by
        rw [List.length_append, List.length_map, List.length_range, List.length_drop, hTop]
        omega
      obtain ⟨top', hStack', hTop', hStored⟩ := ih hHolds.tail
        (fun k hMem => hPlain k (List.mem_cons_of_mem _ hMem)) hRises hLater hLength
      rw [numbers_trail]
      refine ⟨top', hStack', hTop', hStored.trans ?_⟩
      exact hFrame ▸ Frame.stored_pass (Instruction.stores?_eq_none hLocal)

/-- Code that leaves one value puts it on top, and stores nothing. -/
theorem frame_pushes (hHolds : v.Holds first code) (hOne : v.program.PushesOne v.method code) :
    ∃ value, (v.frame since start ((numbers first code).reverse ++ trail)).stack
        = value :: (v.frame since start trail).stack ∧
      (v.frame since start ((numbers first code).reverse ++ trail)).stored
        = (v.frame since start trail).stored := by
  obtain ⟨pushed, hPushed, hLength, hStored⟩ := frame_rises hHolds
    (fun i hMem => ⟨hOne.straight i hMem, hOne.noLocal i hMem⟩) hOne.rises (List.nil_append _).symm
    rfl
  obtain ⟨value, rfl⟩ := List.length_eq_one_iff.mp hLength
  exact ⟨value, hPushed, hStored⟩

/-- Stores take as many values off the stack, the topmost one into the first local. -/
theorem frame_stores {locals : List Nat}
    (hHolds : v.Holds first (locals.map (Instruction.onLocal .stloc))) (hDistinct : locals.Nodup)
    {top rest : List Value} (hStack : (v.frame since start trail).stack = top ++ rest)
    (hTop : top.length = locals.length) :
    let after := v.frame since start
      ((numbers first (locals.map (Instruction.onLocal .stloc))).reverse ++ trail)
    after.stack = rest ∧ locals.map after.stored = top.map some ∧
      ∀ l ∉ locals, after.stored l = (v.frame since start trail).stored l := by
  induction locals generalizing first trail top with
  | nil =>
      obtain rfl := List.eq_nil_of_length_eq_zero hTop
      exact ⟨hStack, rfl, fun _ _ => rfl⟩
  | cons l locals ih =>
      obtain ⟨value, top, rfl⟩ := List.exists_cons_of_length_eq_add_one hTop
      obtain ⟨hFirst, hDistinct⟩ := List.nodup_cons.mp hDistinct
      have hFrame : v.frame since start (⟨first⟩ :: trail)
          = (v.frame since start trail).pass since ⟨first⟩ (trail.count ⟨first⟩)
              { Instruction.onLocal .stloc l with id := ⟨first⟩ } ⟨1, 0⟩ :=
        frame_cons hHolds.head ((effect_of_instr hHolds.head).trans rfl)
      have hNone : (v.frame since start trail).recalled since ⟨first⟩
          { Instruction.onLocal .stloc l with id := ⟨first⟩ } = none :=
        Frame.recalled_of_not_loads rfl
      have hLater : (v.frame since start (⟨first⟩ :: trail)).stack = top ++ rest := by
        rw [hFrame, Frame.pass, Frame.left_of_none hNone, hStack]
        rfl
      have hStored : (v.frame since start (⟨first⟩ :: trail)).stored
          = Function.update (v.frame since start trail).stored l (some value) := by
        rw [hFrame]
        change Function.update (v.frame since start trail).stored l
          (v.frame since start trail).stack.head? = _
        rw [hStack]
        rfl
      obtain ⟨hStack', hMoved, hOthers⟩ := ih hHolds.tail hDistinct hLater (Nat.succ.inj hTop)
      simp only [List.map_cons, numbers_trail]
      refine ⟨hStack', ?_, fun other hOther => ?_⟩
      · rw [hMoved, hOthers l hFirst, hStored, Function.update_self]
      · obtain ⟨hHead, hTail⟩ := not_or.mp (List.mem_cons.not.mp hOther)
        rw [hOthers other hTail, hStored, Function.update_of_ne hHead]

/-- Loads that are followed give back what was stored, the last of them on top. -/
theorem frame_loads (hSince : since ≤ first) {locals : List Nat}
    (hHolds : v.Holds first (locals.map (Instruction.onLocal .ldloc))) {values : List Value}
    (hStored : locals.map (v.frame since start trail).stored = values.map some) :
    (v.frame since start
      ((numbers first (locals.map (Instruction.onLocal .ldloc))).reverse ++ trail)).stack
        = values.reverse ++ (v.frame since start trail).stack := by
  induction locals generalizing first trail values with
  | nil =>
      obtain rfl : values = [] := by simpa using hStored.symm
      rfl
  | cons l locals ih =>
      cases values with
      | nil => cases hStored
      | cons value values =>
          obtain ⟨hValue, hStored⟩ := List.cons.inj hStored
          have hFrame : v.frame since start (⟨first⟩ :: trail)
              = (v.frame since start trail).pass since ⟨first⟩ (trail.count ⟨first⟩)
                  { Instruction.onLocal .ldloc l with id := ⟨first⟩ } ⟨0, 1⟩ :=
            frame_cons hHolds.head ((effect_of_instr hHolds.head).trans rfl)
          have hRecalled : (v.frame since start trail).recalled since ⟨first⟩
              { Instruction.onLocal .ldloc l with id := ⟨first⟩ } = some value :=
            (if_pos hSince).trans hValue
          have hSame : (v.frame since start (⟨first⟩ :: trail)).stored
              = (v.frame since start trail).stored := by
            rw [hFrame]
            exact Frame.stored_pass rfl
          have hStack : (v.frame since start (⟨first⟩ :: trail)).stack
              = value :: (v.frame since start trail).stack := by
            rw [hFrame, Frame.pass, Frame.left, hRecalled]
            rfl
          have hKept : locals.map (v.frame since start (⟨first⟩ :: trail)).stored
              = values.map some := hSame ▸ hStored
          rw [List.map_cons, numbers_trail, ih (Nat.le_succ_of_le hSince) hHolds.tail hKept, hStack,
            List.reverse_cons, List.append_assoc]
          rfl

/-- Code that stores values in locals, runs, and loads them again. -/
def between (locals : List Nat) (seq : List Instruction) : List Instruction :=
  locals.reverse.map (Instruction.onLocal .stloc) ++
    (seq ++ locals.map (Instruction.onLocal .ldloc))

theorem numbers_between (first : Nat) (locals : List Nat) (seq : List Instruction) :
    numbers first (between locals seq)
      = numbers first (locals.reverse.map (Instruction.onLocal .stloc)) ++
        (numbers (first + locals.length) seq ++ numbers (first + locals.length + seq.length)
          (locals.map (Instruction.onLocal .ldloc))) := by
  rw [between, MethodBody.numbers_append, MethodBody.numbers_append, List.length_map,
    List.length_reverse]

/-- The value that the code in between pushes comes to lie beneath the stored values, which are
where they were. -/
theorem frame_between (hSince : since ≤ first) {locals : List Nat} (hDistinct : locals.Nodup)
    (hHolds : v.Holds first (between locals code)) (hOne : v.program.PushesOne v.method code)
    (hThere : locals.length ≤ (v.frame since start trail).stack.length) :
    ∃ value, (v.frame since start ((numbers (first + locals.length) code).reverse ++
        ((numbers first (locals.reverse.map (Instruction.onLocal .stloc))).reverse ++
          trail))).stack.head? = some value ∧
      (v.frame since start ((numbers first (between locals code)).reverse ++ trail)).stack
        = (v.frame since start trail).stack.take locals.length ++
          value :: (v.frame since start trail).stack.drop locals.length := by
  have hSplit := (List.take_append_drop locals.length (v.frame since start trail).stack).symm
  have hCount : ((v.frame since start trail).stack.take locals.length).length
      = locals.reverse.length := by
    rw [List.length_take, List.length_reverse, Nat.min_eq_left hThere]
  have hRest := hHolds.right
  rw [List.length_map, List.length_reverse] at hRest
  obtain ⟨hTaken, hMoved, -⟩ :=
    frame_stores hHolds.left (List.nodup_reverse.mpr hDistinct) hSplit hCount
  obtain ⟨value, hPushed, hStored⟩ := frame_pushes hRest.left hOne
  have hKept : locals.map (v.frame since start ((numbers (first + locals.length) code).reverse ++
      ((numbers first (locals.reverse.map (Instruction.onLocal .stloc))).reverse ++ trail))).stored
        = ((v.frame since start trail).stack.take locals.length).reverse.map some := by
    rw [hStored, List.map_reverse (f := some), ← hMoved, ← List.map_reverse, List.reverse_reverse]
  have hLoaded := frame_loads (hSince.trans (by omega)) hRest.right hKept
  refine ⟨value, by rw [hPushed]; rfl, ?_⟩
  rw [numbers_between, List.reverse_append, List.reverse_append, List.append_assoc,
    List.append_assoc, hLoaded, List.reverse_reverse, hPushed, hTaken]

end CodeView

end ContextBinding
