import ContextBinding.Proofs.LocalFlow
import ContextBinding.Proofs.Overriding

/-! Where values go through locals. A value is passed on by the duplications that take it and by the
loads that see the stores that take it; what becomes of it is what becomes of all the values that it
is passed on as. -/

namespace ContextBinding

open Relation

section Exploring

variable {α ε : Type} [DecidableEq α] {next : α → Except ε (List α)}

/-- An exploration that is not led away from where all is well has been there only. -/
theorem explore_led {P : α → Prop} (hNext : ∀ a l, P a → next a = .ok l → ∀ b ∈ l, P b) {fuel : Nat}
    {seen frontier result : List α} (hSeen : ∀ a ∈ seen, P a) (hFrontier : ∀ a ∈ frontier, P a)
    (hRun : explore next fuel seen frontier = .ok result) : ∀ a ∈ result, P a := by
  induction fuel generalizing seen frontier with
  | zero => exact Except.ok.inj hRun ▸ hSeen
  | succ fuel ih =>
      cases frontier with
      | nil => exact Except.ok.inj hRun ▸ hSeen
      | cons a frontier =>
          obtain ⟨hFirst, hRest⟩ := List.forall_mem_cons.mp hFrontier
          rw [explore] at hRun
          split at hRun
          · exact ih hSeen hRest hRun
          · obtain ⟨l, hSucc, hRun⟩ := Outcome.bind_ok.mp hRun
            refine ih (List.forall_mem_cons.mpr ⟨hFirst, hSeen⟩) (fun b hb => ?_) hRun
            rcases List.mem_append.mp hb with hb | hb
            · exact hNext a l hFirst hSucc b (List.mem_reverse.mp hb)
            · exact hRest b hb

/-- With enough fuel an exploration comes to its end, and more fuel changes nothing. -/
theorem explore_settles {counts : List (α × Nat)}
    (hNext : ∀ a l, next a = .ok l → l.length ≤ allowance counts a) {fuel more : Nat}
    {seen frontier : List α} (hFuel : frontier.length + unseenAllowance counts seen ≤ fuel)
    (hMore : fuel ≤ more) : explore next more seen frontier = explore next fuel seen frontier := by
  induction fuel generalizing seen frontier more with
  | zero =>
      obtain rfl : frontier = [] := List.eq_nil_of_length_eq_zero (by omega)
      cases more <;> rfl
  | succ fuel ih =>
      obtain ⟨more, rfl⟩ : ∃ n, more = n + 1 := ⟨more - 1, by omega⟩
      cases frontier with
      | nil => rfl
      | cons a frontier =>
          rw [List.length_cons] at hFuel
          rw [explore, explore]
          split
          · exact ih (by omega) (by omega)
          · rename_i hNew
            cases hSucc : next a with
            | error e => rfl
            | ok l =>
                have hLeft := unseenAllowance_cons counts hNew
                have hLength := hNext a l hSucc
                refine ih ?_ (by omega)
                rw [List.length_append, List.length_reverse]
                omega

end Exploring

section Sorting

variable {α : Type} {le : α → α → Bool} {P : α → Prop} {R : α → α → Prop}

/-- Insertion by a comparison that tells apart all that is well leaves it sorted. -/
theorem pairwise_insertOrdered_on (hLe : ∀ a b, P a → P b → (le a b = true ↔ a = b ∨ R a b))
    (hTotal : ∀ a b, P a → P b → a = b ∨ R a b ∨ R b a) (hTrans : ∀ a b c, R a b → R b c → R a c)
    {a : α} {l : List α} (hFirst : P a) (hAll : ∀ b ∈ l, P b)
    (h : l.Pairwise fun a b => a = b ∨ R a b) :
    (insertOrdered le a l).Pairwise fun a b => a = b ∨ R a b := by
  induction l with
  | nil => exact List.pairwise_singleton ..
  | cons b l ih =>
      obtain ⟨hHead, hRest⟩ := List.pairwise_cons.mp h
      obtain ⟨hSecond, hOthers⟩ := List.forall_mem_cons.mp hAll
      rw [insertOrdered]
      split
      · rename_i hLess
        have hLess := (hLe a b hFirst hSecond).mp hLess
        refine List.pairwise_cons.mpr ⟨fun c hMem => ?_, h⟩
        rcases List.mem_cons.mp hMem with rfl | hLater
        · exact hLess
        · rcases hLess with rfl | hLess
          · exact hHead c hLater
          · exact Or.inr ((hHead c hLater).elim (fun hSame => hSame ▸ hLess) (hTrans _ _ _ hLess))
      · rename_i hMore
        rw [hLe a b hFirst hSecond, not_or] at hMore
        refine List.pairwise_cons.mpr ⟨fun c hMem => ?_, ih hOthers hRest⟩
        rcases mem_insertOrdered.mp hMem with rfl | hMem
        · exact Or.inr (((hTotal _ _ hFirst hSecond).resolve_left hMore.1).resolve_left hMore.2)
        · exact hHead c hMem

theorem pairwise_sortOrdered_on (hLe : ∀ a b, P a → P b → (le a b = true ↔ a = b ∨ R a b))
    (hTotal : ∀ a b, P a → P b → a = b ∨ R a b ∨ R b a) (hTrans : ∀ a b c, R a b → R b c → R a c)
    {l : List α} (hAll : ∀ a ∈ l, P a) : (sortOrdered le l).Pairwise fun a b => a = b ∨ R a b := by
  induction l with
  | nil => exact List.Pairwise.nil
  | cons a l ih =>
      obtain ⟨hFirst, hRest⟩ := List.forall_mem_cons.mp hAll
      refine pairwise_insertOrdered_on hLe hTotal hTrans hFirst (fun b hMem => ?_) (ih hRest)
      exact hRest b (mem_sortOrdered.mp hMem)

/-- What is sorted is in strict order once repetitions are dropped. -/
theorem pairwise_dedupAdjacent [DecidableEq α] (hTrans : ∀ a b c, R a b → R b c → R a c)
    {l : List α} (h : l.Pairwise fun a b => a = b ∨ R a b) : (dedupAdjacent l).Pairwise R := by
  fun_induction dedupAdjacent l with
  | case1 => exact List.Pairwise.nil
  | case2 a => exact List.pairwise_singleton ..
  | case3 b l ih => exact ih (List.pairwise_cons.mp h).2
  | case4 a b l hDiffer ih =>
      obtain ⟨hHead, hRest⟩ := List.pairwise_cons.mp h
      have hNext : R a b := (hHead b (List.mem_cons_self ..)).resolve_left hDiffer
      refine List.pairwise_cons.mpr ⟨fun c hMem => ?_, ih hRest⟩
      rcases List.mem_cons.mp (mem_dedupAdjacent.mp hMem) with rfl | hMem
      · exact hNext
      · exact ((List.pairwise_cons.mp hRest).1 c hMem).elim (fun hSame => hSame ▸ hNext)
          (hTrans _ _ _ hNext)

end Sorting

namespace CodeView

variable {v : CodeView} {id a b : InstrId} {u : Usage}

/-- A usage comes before another, by the place in the code of what takes the value and then by the
slot. -/
def Ahead (v : CodeView) (u w : Usage) : Prop :=
  ∃ m n, v.index.position? u.consumer = some m ∧ v.index.position? w.consumer = some n ∧
    (m < n ∨ u.consumer = w.consumer ∧ u.slot < w.slot)

/-- A value that is taken in a usage is pushed again by `b`: the usage is a duplication and `b` is the
same, or it is a store to a local and `b` is a load that sees the store. -/
inductive CarriedBy (v : CodeView) (u : Usage) : InstrId → Prop
  | duplicated {i : Instruction} (hInstr : v.instr u.consumer = .ok i) (hDup : i.opcode = .dup) :
      CarriedBy v u u.consumer
  | loaded {i load : Instruction} {loads : List InstrId} {b : InstrId}
      (hInstr : v.instr u.consumer = .ok i) (hStore : i.opcode = .stloc)
      (hUses : v.localUses u.consumer = .ok loads) (hSeen : b ∈ loads)
      (hLoadInstr : v.instr b = .ok load) (hLoad : load.opcode = .ldloc) : CarriedBy v u b

/-- A value that is taken in a usage comes to its end in a usage: in the same one if this is neither
a store to a local nor a duplication, or where the address is taken of the local it is stored in. -/
inductive SettlesIn (v : CodeView) (u : Usage) : Usage → Prop
  | taken {i : Instruction} (hInstr : v.instr u.consumer = .ok i) (hNotStore : i.opcode ≠ .stloc)
      (hNotDup : i.opcode ≠ .dup) : SettlesIn v u u
  | addressed {i load : Instruction} {loads : List InstrId} {l : InstrId}
      (hInstr : v.instr u.consumer = .ok i) (hStore : i.opcode = .stloc)
      (hUses : v.localUses u.consumer = .ok loads) (hSeen : l ∈ loads)
      (hLoadInstr : v.instr l = .ok load) (hLoad : load.opcode = .ldloca) : SettlesIn v u ⟨l, 0⟩

/-- A value that `a` pushed is pushed again by `b`. -/
def PassesTo (v : CodeView) (a b : InstrId) : Prop :=
  ∃ usages, v.usage a = .ok usages ∧ ∃ u ∈ usages, v.CarriedBy u b

/-- A value that `a` pushed comes to its end in a usage, before it is pushed again. -/
def EndsIn (v : CodeView) (a : InstrId) (w : Usage) : Prop :=
  ∃ usages, v.usage a = .ok usages ∧ ∃ u ∈ usages, v.SettlesIn u w

section Order

theorem Ahead.trans {u w x : Usage} (h : v.Ahead u w) (h' : v.Ahead w x) : v.Ahead u x := by
  obtain ⟨m, n, hm, hn, hLess⟩ := h
  obtain ⟨n', o, hn', ho, hLess'⟩ := h'
  obtain rfl : n = n' := Option.some_inj.mp (hn.symm.trans hn')
  refine ⟨m, o, hm, ho, ?_⟩
  rcases hLess with hLess | ⟨hSame, hSlot⟩
  · left
    rcases hLess' with hLess' | ⟨hSame', -⟩
    · exact hLess.trans hLess'
    · rw [hSame'] at hn
      exact Option.some_inj.mp (hn.symm.trans ho) ▸ hLess
  · rcases hLess' with hLess' | ⟨hSame', hSlot'⟩
    · left
      rw [hSame] at hm
      exact Option.some_inj.mp (hm.symm.trans hn) ▸ hLess'
    · exact Or.inr ⟨hSame.trans hSame', hSlot.trans hSlot'⟩

/-- Where an instruction stands in the code, no other does. -/
theorem position?_inj {m : Nat} (ha : v.index.position? a = some m)
    (hb : v.index.position? b = some m) : a = b :=
  Option.some_inj.mp ((FlowIndex.getElem?_of_lastPosition? ha).symm.trans
    (FlowIndex.getElem?_of_lastPosition? hb))

theorem usageLe_iff {u w : Usage} (hu : ∃ m, v.index.position? u.consumer = some m)
    (hw : ∃ m, v.index.position? w.consumer = some m) :
    v.usageLe u w = true ↔ u = w ∨ v.Ahead u w := by
  obtain ⟨m, hm⟩ := hu
  obtain ⟨n, hn⟩ := hw
  have hAhead : v.Ahead u w ↔ m < n ∨ u.consumer = w.consumer ∧ u.slot < w.slot := by
    refine ⟨?_, fun h => ⟨m, n, hm, hn, h⟩⟩
    rintro ⟨m', n', hm', hn', h⟩
    obtain rfl : m = m' := Option.some_inj.mp (hm.symm.trans hm')
    obtain rfl : n = n' := Option.some_inj.mp (hn.symm.trans hn')
    exact h
  obtain ⟨c, slot⟩ := u
  obtain ⟨d, slot'⟩ := w
  rw [hAhead, usageLe, Usage.mk.injEq]
  by_cases hSame : c = d
  · subst hSame
    obtain rfl : m = n := Option.some_inj.mp (hm.symm.trans hn)
    simp only [if_true, decide_eq_true_eq, true_and, Nat.lt_irrefl, false_or]
    omega
  · have hApart : m ≠ n := fun h => hSame (position?_inj hm (h ▸ hn))
    simp only [positionLe, hm, hn, hSame, if_false, decide_eq_true_eq, false_and, or_false, false_or]
    omega

theorem ahead_total {u w : Usage} (hu : ∃ m, v.index.position? u.consumer = some m)
    (hw : ∃ m, v.index.position? w.consumer = some m) : u = w ∨ v.Ahead u w ∨ v.Ahead w u := by
  obtain ⟨m, hm⟩ := hu
  obtain ⟨n, hn⟩ := hw
  rcases Nat.lt_trichotomy m n with hLess | rfl | hMore
  · exact Or.inr (Or.inl ⟨m, n, hm, hn, Or.inl hLess⟩)
  · have hSame := position?_inj hm hn
    rcases Nat.lt_trichotomy u.slot w.slot with hLess | hSlot | hMore
    · exact Or.inr (Or.inl ⟨m, m, hm, hn, Or.inr ⟨hSame, hLess⟩⟩)
    · left
      cases u
      cases w
      exact congrArg₂ Usage.mk hSame hSlot
    · exact Or.inr (Or.inr ⟨m, m, hn, hm, Or.inr ⟨hSame.symm, hMore⟩⟩)
  · exact Or.inr (Or.inr ⟨n, m, hn, hm, Or.inl hMore⟩)

theorem mem_sortUsages {usages : List Usage} : u ∈ v.sortUsages usages ↔ u ∈ usages := by
  rw [sortUsages, mem_dedupAdjacent, mem_sortOrdered]

/-- Usages of the code come in order, each once. -/
theorem pairwise_sortUsages {usages : List Usage}
    (hAll : ∀ u ∈ usages, ∃ m, v.index.position? u.consumer = some m) :
    (v.sortUsages usages).Pairwise v.Ahead := by
  have hTrans (u w x : Usage) (h : v.Ahead u w) (h' : v.Ahead w x) : v.Ahead u x := h.trans h'
  exact pairwise_dedupAdjacent hTrans <|
    pairwise_sortOrdered_on (fun _ _ => usageLe_iff) (fun _ _ => ahead_total) hTrans hAll

theorem Ahead.ne {u w : Usage} (h : v.Ahead u w) : u ≠ w := by
  rintro rfl
  obtain ⟨m, n, hm, hn, hLess | ⟨-, hLess⟩⟩ := h
  · exact Nat.lt_irrefl m (Option.some_inj.mp (hn.symm.trans hm) ▸ hLess)
  · exact Nat.lt_irrefl _ hLess

end Order

section Steps

variable {usages : List Usage} {loads : List InstrId}

theorem position_of_instr {i : Instruction} (h : v.instr id = .ok i) :
    ∃ m, v.index.position? id = some m := by
  unfold instr at h
  split at h
  · rename_i j hAt
    obtain ⟨m, hPosition, -⟩ := Option.bind_eq_some_iff.mp hAt
    exact ⟨m, hPosition⟩
  · cases h

theorem usageAt?_some {spot : InstrId × Nat} (h : v.usageAt? spot = some u) :
    ∃ i effect, v.instr u.consumer = .ok i ∧ v.effect u.consumer = .ok effect ∧
      (i.opcode = .leave ∨ u.slot < effect.pops) := by
  unfold usageAt? at h
  split at h
  · rename_i i effect hInstr hEffect
    split at h
    · rename_i hLeave
      obtain rfl := Option.some_inj.mp h
      exact ⟨i, effect, hInstr, hEffect, Or.inl hLeave⟩
    · split at h
      · obtain rfl := Option.some_inj.mp h
        exact ⟨i, effect, hInstr, hEffect, Or.inr (by simp only; omega)⟩
      · cases h
  · cases h

/-- What takes a value is an instruction of the code with a stack effect. -/
theorem of_mem_usage (h : v.usage id = .ok usages) (hMem : u ∈ usages) :
    ∃ i effect, v.instr u.consumer = .ok i ∧ v.effect u.consumer = .ok effect ∧
      (i.opcode = .leave ∨ u.slot < effect.pops) := by
  obtain ⟨effect, -, h⟩ := Outcome.bind_ok.mp h
  obtain ⟨visited, -, h⟩ := Outcome.bind_ok.mp h
  obtain rfl := Outcome.pure_ok.mp h
  obtain ⟨spot, -, hUsage⟩ := List.mem_filterMap.mp (mem_sortUsages.mp hMem)
  exact usageAt?_some hUsage

theorem nodup_usage (h : v.usage id = .ok usages) : usages.Nodup := by
  obtain ⟨effect, -, hRun⟩ := Outcome.bind_ok.mp h
  obtain ⟨visited, -, hRun⟩ := Outcome.bind_ok.mp hRun
  obtain rfl := Outcome.pure_ok.mp hRun
  refine (pairwise_sortUsages fun u hMem => ?_).imp Ahead.ne
  obtain ⟨i, effect, hInstr, -⟩ := of_mem_usage h (mem_sortUsages.mpr hMem)
  exact position_of_instr hInstr

theorem mem_order_of_usage (h : v.usage id = .ok usages) : id ∈ v.index.order := by
  obtain ⟨effect, hEffect, -⟩ := Outcome.bind_ok.mp h
  exact mem_order_of_effect hEffect

/-- What sees a store reads the local or takes its address. -/
theorem of_mem_localUses (h : v.localUses id = .ok loads) (hMem : b ∈ loads) :
    ∃ load, v.instr b = .ok load ∧ (load.opcode = .ldloc ∨ load.opcode = .ldloca) := by
  obtain ⟨index, -, h⟩ := Outcome.bind_ok.mp h
  obtain ⟨visited, -, h⟩ := Outcome.bind_ok.mp h
  obtain rfl := Outcome.pure_ok.mp h
  obtain ⟨-, load, hInstr, hLoad⟩ := mem_select.mp hMem
  exact ⟨load, hInstr, by simp_all [isLoadOf]⟩

/-- A store is seen by each instruction once at most. -/
theorem length_localUses_le (h : v.localUses id = .ok loads) : loads.length ≤ v.index.size := by
  have hOrder : ∀ b ∈ loads, b ∈ v.index.order := by
    intro b hMem
    obtain ⟨load, hInstr, -⟩ := of_mem_localUses h hMem
    obtain ⟨m, hPosition⟩ := position_of_instr hInstr
    exact List.mem_of_getElem? (FlowIndex.getElem?_of_lastPosition? hPosition)
  obtain ⟨index, -, h⟩ := Outcome.bind_ok.mp h
  obtain ⟨visited, hRun, h⟩ := Outcome.bind_ok.mp h
  obtain rfl := Outcome.pure_ok.mp h
  have hOnce := List.nodup_reverse.mpr (explore_nodup List.nodup_nil hRun)
  rw [select, length_sortOrdered]
  refine (List.subperm_of_subset (hOnce.filter _) fun b hMem => hOrder b ?_).length_le
  exact mem_sortOrdered.mpr hMem

/-- Instructions with their opcodes. -/
theorem mem_kinds {kinds : List (InstrId × OpCode)}
    (h : (loads.mapM fun l => do pure (l, (← v.instr l).opcode)) = .ok kinds) {l : InstrId}
    {op : OpCode} :
    (l, op) ∈ kinds ↔ l ∈ loads ∧ ∃ load, v.instr l = .ok load ∧ load.opcode = op := by
  constructor
  · intro hMem
    obtain ⟨l', hSeen, hKind⟩ := Outcome.mem_mapM_ok h hMem
    obtain ⟨load, hLoad, hKind⟩ := Outcome.bind_ok.mp hKind
    obtain ⟨rfl, rfl⟩ := Prod.mk.inj (Outcome.pure_ok.mp hKind)
    exact ⟨hSeen, load, hLoad, rfl⟩
  · rintro ⟨hSeen, load, hLoad, rfl⟩
    obtain ⟨kind, hMem, hKind⟩ := Outcome.mapM_mem_ok h hSeen
    obtain ⟨load', hLoad', hKind⟩ := Outcome.bind_ok.mp hKind
    obtain rfl : load = load' := Except.ok.inj (hLoad.symm.trans hLoad')
    exact Outcome.pure_ok.mp hKind ▸ hMem

/-- All that a step through a usage can do. -/
theorem passOn_cases {parts : List InstrId × List Usage} (h : v.passOn u = .ok parts) :
    ∃ i, v.instr u.consumer = .ok i ∧
      ((i.opcode = .stloc ∧ ∃ loads, v.localUses u.consumer = .ok loads ∧
          parts.1.length ≤ loads.length ∧
          (∀ b, b ∈ parts.1 ↔ b ∈ loads ∧ ∃ load, v.instr b = .ok load ∧ load.opcode = .ldloc) ∧
          ∀ w, w ∈ parts.2 ↔
            ∃ l ∈ loads, ∃ load, v.instr l = .ok load ∧ load.opcode = .ldloca ∧ w = ⟨l, 0⟩) ∨
        (i.opcode = .dup ∧ parts = ([u.consumer], [])) ∨
        (i.opcode ≠ .stloc ∧ i.opcode ≠ .dup ∧ parts = ([], [u]))) := by
  obtain ⟨i, hInstr, h⟩ := Outcome.bind_ok.mp h
  refine ⟨i, hInstr, ?_⟩
  split at h
  · rename_i hStore
    obtain ⟨loads, hUses, h⟩ := Outcome.bind_ok.mp h
    obtain ⟨kinds, hKinds, h⟩ := Outcome.bind_ok.mp h
    rw [List.partition_eq_filter_filter] at h
    obtain rfl := Outcome.pure_ok.mp h
    refine Or.inl ⟨hStore, loads, hUses, ?_, fun b => ?_, fun w => ?_⟩
    · rw [List.length_map, ← Outcome.length_mapM_ok hKinds]
      exact List.length_filter_le ..
    · simp only [List.mem_map, List.mem_filter, beq_iff_eq, Prod.exists, mem_kinds hKinds]
      constructor
      · rintro ⟨b, _, ⟨⟨hSeen, load, hLoad, rfl⟩, hKind⟩, rfl⟩
        exact ⟨hSeen, load, hLoad, hKind⟩
      · rintro ⟨hSeen, load, hLoad, hKind⟩
        exact ⟨b, _, ⟨⟨hSeen, load, hLoad, rfl⟩, hKind⟩, rfl⟩
    · simp only [List.mem_map, List.mem_filter, Prod.exists, mem_kinds hKinds,
        Function.comp_apply, Bool.not_eq_true', beq_eq_false_iff_ne]
      constructor
      · rintro ⟨l, _, ⟨⟨hSeen, load, hLoad, rfl⟩, hOther⟩, rfl⟩
        obtain ⟨load', hLoad', hKind⟩ := of_mem_localUses hUses hSeen
        obtain rfl : load = load' := Except.ok.inj (hLoad.symm.trans hLoad')
        exact ⟨l, hSeen, load, hLoad, hKind.resolve_left hOther, rfl⟩
      · rintro ⟨l, hSeen, load, hLoad, hKind, rfl⟩
        exact ⟨l, _, ⟨⟨hSeen, load, hLoad, rfl⟩, by rw [hKind]; decide⟩, rfl⟩
  · rename_i hDup
    exact Or.inr (Or.inl ⟨hDup, (Outcome.pure_ok.mp h).symm⟩)
  · rename_i hNotStore hNotDup
    exact Or.inr (Or.inr ⟨hNotStore, hNotDup, (Outcome.pure_ok.mp h).symm⟩)

/-- What becomes of a value that is taken. -/
theorem passOn_ok {parts : List InstrId × List Usage} (h : v.passOn u = .ok parts) :
    (∀ b, b ∈ parts.1 ↔ v.CarriedBy u b) ∧ ∀ w, w ∈ parts.2 ↔ v.SettlesIn u w := by
  obtain ⟨i, hInstr, hCases⟩ := passOn_cases h
  have hSame {j : Instruction} (hInstr' : v.instr u.consumer = .ok j) : j = i :=
    Except.ok.inj (hInstr'.symm.trans hInstr)
  rcases hCases with ⟨hStore, loads, hUses, -, hValues, hAddresses⟩ | ⟨hDup, rfl⟩ |
    ⟨hNotStore, hNotDup, rfl⟩
  · constructor
    · intro b
      rw [hValues]
      constructor
      · rintro ⟨hSeen, load, hLoadInstr, hLoad⟩
        exact .loaded hInstr hStore hUses hSeen hLoadInstr hLoad
      · rintro (⟨hInstr', hDup⟩ | ⟨-, -, hUses', hSeen, hLoadInstr, hLoad⟩)
        · cases hStore.symm.trans (hSame hInstr' ▸ hDup)
        · exact ⟨Except.ok.inj (hUses'.symm.trans hUses) ▸ hSeen, _, hLoadInstr, hLoad⟩
    · intro w
      rw [hAddresses]
      constructor
      · rintro ⟨l, hSeen, load, hLoadInstr, hLoad, rfl⟩
        exact .addressed hInstr hStore hUses hSeen hLoadInstr hLoad
      · rintro (⟨hInstr', hNotStore, -⟩ | ⟨-, -, hUses', hSeen, hLoadInstr, hLoad⟩)
        · exact (hNotStore (hSame hInstr' ▸ hStore)).elim
        · exact ⟨_, Except.ok.inj (hUses'.symm.trans hUses) ▸ hSeen, _, hLoadInstr, hLoad, rfl⟩
  · constructor
    · intro b
      rw [List.mem_singleton]
      constructor
      · rintro rfl
        exact .duplicated hInstr hDup
      · rintro (⟨-, -⟩ | ⟨hInstr', hStore, -⟩)
        · rfl
        · cases hDup.symm.trans (hSame hInstr' ▸ hStore)
    · refine fun w => iff_of_false List.not_mem_nil ?_
      rintro (⟨hInstr', -, hNotDup⟩ | ⟨hInstr', hStore, -⟩)
      · exact hNotDup (hSame hInstr' ▸ hDup)
      · cases hDup.symm.trans (hSame hInstr' ▸ hStore)
  · constructor
    · refine fun b => iff_of_false List.not_mem_nil ?_
      rintro (⟨hInstr', hDup⟩ | ⟨hInstr', hStore, -⟩)
      · exact hNotDup (hSame hInstr' ▸ hDup)
      · exact hNotStore (hSame hInstr' ▸ hStore)
    · intro w
      rw [List.mem_singleton]
      constructor
      · rintro rfl
        exact .taken hInstr hNotStore hNotDup
      · rintro (⟨-, -, -⟩ | ⟨hInstr', hStore, -⟩)
        · rfl
        · exact (hNotStore (hSame hInstr' ▸ hStore)).elim

end Steps

section Closure

variable {usages : List Usage} {parts : List InstrId × List Usage}

/-- The usage is a store to a local or a duplication. -/
def goesOn (v : CodeView) (u : Usage) : Bool :=
  match v.instr u.consumer with
  | .ok i => i.opcode == .stloc || i.opcode == .dup
  | .error _ => false

/-- A value goes on at the top of the stack, at an instruction that takes or leaves something. -/
theorem of_goesOn (h : v.usage id = .ok usages) (hMem : u ∈ usages) (hOn : v.goesOn u = true) :
    u.slot = 0 ∧ ∃ k < v.body.size, v.index.order[k]? = some u.consumer ∧ 1 ≤ v.trafficAt k := by
  obtain ⟨i, effect, hInstr, hEffect, hSlot⟩ := of_mem_usage h hMem
  obtain ⟨k, hBound, hOrder, hTraffic⟩ := exists_position hEffect
  obtain ⟨i', hInstr', hStack⟩ := Outcome.bind_ok.mp hEffect
  obtain rfl : i = i' := Except.ok.inj (hInstr.symm.trans hInstr')
  have hOpcode : i.opcode = .stloc ∨ i.opcode = .dup := by simpa [goesOn, hInstr] using hOn
  have hPops : effect.pops = 1 := by
    rcases hOpcode with hOpcode | hOpcode <;>
      exact Except.ok.inj (hStack.symm.trans (by rw [Program.stackEffect, hOpcode]; rfl)) ▸ rfl
  refine ⟨?_, k, hBound, hOrder, by omega⟩
  have hNotLeave : i.opcode ≠ .leave := by rcases hOpcode with hOpcode | hOpcode <;> simp [hOpcode]
  have hBelow := hSlot.resolve_left hNotLeave
  omega

/-- No more values go on than instructions take and leave. -/
theorem length_goesOn_le (h : v.usage id = .ok usages) :
    (usages.filter v.goesOn).length ≤ v.traffic := by
  let going := (usages.filter v.goesOn).toFinset
  have hGoing : ∀ u ∈ going, u.slot = 0 ∧
      ∃ k < v.body.size, v.index.order[k]? = some u.consumer ∧ 1 ≤ v.trafficAt k := by
    intro u hMem
    obtain ⟨hMem, hOn⟩ := List.mem_filter.mp (List.mem_toFinset.mp hMem)
    exact of_goesOn h hMem hOn
  choose! hSlot place hBound hOrder hTraffic using hGoing
  let busy := (Finset.range v.body.size).filter fun k => 1 ≤ v.trafficAt k
  have hInto : ∀ u ∈ going, place u ∈ busy := fun u hMem =>
    Finset.mem_filter.mpr ⟨Finset.mem_range.mpr (hBound u hMem), hTraffic u hMem⟩
  have hApart : ∀ u ∈ going, ∀ w ∈ going, place u = place w → u = w := by
    intro u hu w hw hSame
    have hConsumer : some u.consumer = some w.consumer :=
      (hOrder u hu).symm.trans (hSame ▸ hOrder w hw)
    obtain ⟨c, slot⟩ := u
    obtain ⟨d, slot'⟩ := w
    exact congrArg₂ Usage.mk (Option.some_inj.mp hConsumer) ((hSlot _ hu).trans (hSlot _ hw).symm)
  calc (usages.filter v.goesOn).length
      = going.card := (List.toFinset_card_of_nodup ((nodup_usage h).filter _)).symm
    _ ≤ busy.card := Finset.card_le_card_of_injOn place hInto hApart
    _ = ∑ k ∈ busy, 1 := Finset.card_eq_sum_ones busy
    _ ≤ ∑ k ∈ busy, v.trafficAt k :=
      Finset.sum_le_sum fun k hMem => (Finset.mem_filter.mp hMem).2
    _ ≤ ∑ k ∈ Finset.range v.body.size, v.trafficAt k :=
      Finset.sum_le_sum_of_subset (Finset.filter_subset ..)
    _ = v.traffic := sum_trafficAt

theorem length_passOn_le (h : v.passOn u = .ok parts) :
    parts.1.length ≤ if v.goesOn u then v.index.size else 0 := by
  obtain ⟨i, hInstr, ⟨hStore, loads, hUses, hLength, -⟩ | ⟨hDup, rfl⟩ | ⟨-, -, rfl⟩⟩ := passOn_cases h
  · rw [goesOn, hInstr]
    simp only [hStore, beq_self_eq_true, Bool.true_or, if_true]
    exact hLength.trans (length_localUses_le hUses)
  · rw [goesOn, hInstr]
    simp only [hDup, beq_self_eq_true, Bool.or_true, if_true]
    obtain ⟨m, hPosition⟩ := position_of_instr hInstr
    exact List.length_pos_of_mem
      (List.mem_of_getElem? (FlowIndex.getElem?_of_lastPosition? hPosition))
  · exact Nat.zero_le _

/-- A value is pushed again by no more instructions than the search has fuel for. -/
theorem length_passOnAll_le (h : v.passOnAll id = .ok parts) :
    parts.1.length ≤ v.traffic * v.index.size := by
  obtain ⟨usages, hUsage, h⟩ := Outcome.bind_ok.mp h
  obtain ⟨all, hAll, h⟩ := Outcome.bind_ok.mp h
  obtain rfl := Outcome.pure_ok.mp h
  have hSum {usages : List Usage} {all : List (List InstrId × List Usage)}
      (hAll : usages.mapM v.passOn = .ok all) :
      (all.flatMap (·.1)).length ≤ (usages.filter v.goesOn).length * v.index.size := by
    induction usages generalizing all with
    | nil =>
        obtain rfl := Outcome.pure_ok.mp hAll
        exact Nat.zero_le _
    | cons u usages ih =>
        rw [List.mapM_cons] at hAll
        obtain ⟨first, hFirst, hAll⟩ := Outcome.bind_ok.mp hAll
        obtain ⟨rest, hRest, hAll⟩ := Outcome.bind_ok.mp hAll
        obtain rfl := Outcome.pure_ok.mp hAll
        have hFirst := length_passOn_le hFirst
        have hRest := ih hRest
        rw [List.flatMap_cons, List.length_append, List.filter_cons]
        split at hFirst
        · rw [if_pos ‹_›, List.length_cons, Nat.succ_mul]
          omega
        · rw [if_neg ‹_›]
          omega
  exact (hSum hAll).trans (Nat.mul_le_mul_right _ (length_goesOn_le hUsage))

/-- What becomes of all that an instruction pushes, in one step. -/
theorem passOnAll_ok (h : v.passOnAll a = .ok parts) :
    (∀ b, b ∈ parts.1 ↔ v.PassesTo a b) ∧ ∀ w, w ∈ parts.2 ↔ v.EndsIn a w := by
  obtain ⟨usages, hUsage, h⟩ := Outcome.bind_ok.mp h
  obtain ⟨all, hAll, h⟩ := Outcome.bind_ok.mp h
  obtain rfl := Outcome.pure_ok.mp h
  have hUsages {usages' : List Usage} (hUsage' : v.usage a = .ok usages') : usages' = usages :=
    Except.ok.inj (hUsage'.symm.trans hUsage)
  constructor
  · intro b
    rw [List.mem_flatMap]
    constructor
    · rintro ⟨part, hPart, hMem⟩
      obtain ⟨u, hUsed, hPass⟩ := Outcome.mem_mapM_ok hAll hPart
      exact ⟨usages, hUsage, u, hUsed, ((passOn_ok hPass).1 b).mp hMem⟩
    · rintro ⟨usages', hUsage', u, hUsed, hCarried⟩
      obtain ⟨part, hPart, hPass⟩ := Outcome.mapM_mem_ok hAll (hUsages hUsage' ▸ hUsed)
      exact ⟨part, hPart, ((passOn_ok hPass).1 b).mpr hCarried⟩
  · intro w
    rw [List.mem_flatMap]
    constructor
    · rintro ⟨part, hPart, hMem⟩
      obtain ⟨u, hUsed, hPass⟩ := Outcome.mem_mapM_ok hAll hPart
      exact ⟨usages, hUsage, u, hUsed, ((passOn_ok hPass).2 w).mp hMem⟩
    · rintro ⟨usages', hUsage', u, hUsed, hSettles⟩
      obtain ⟨part, hPart, hPass⟩ := Outcome.mapM_mem_ok hAll (hUsages hUsage' ▸ hUsed)
      exact ⟨part, hPart, ((passOn_ok hPass).2 w).mpr hSettles⟩

theorem EndsIn.position {w : Usage} (h : v.EndsIn a w) :
    ∃ m, v.index.position? w.consumer = some m := by
  obtain ⟨usages, -, u, -, hSettles⟩ := h
  cases hSettles with
  | taken hInstr => exact position_of_instr hInstr
  | addressed _ _ _ _ hLoadInstr => exact position_of_instr hLoadInstr

/-- The instructions that push again what `id` pushed. -/
def carriers (v : CodeView) (id : InstrId) : Except AnalysisError (List InstrId) := do
  pure (← v.passOnAll id).1

/-- How many instructions the search through locals takes up at most. -/
def carrierBound (v : CodeView) : Nat :=
  (v.index.size + 1) * (v.index.size + 1) * (v.traffic + 1) + 1

theorem usageThroughLocals_eq (id : InstrId) : v.usageThroughLocals id = (do
    let visited ← explore v.carriers v.carrierBound [] [id]
    pure (v.sortUsages (visited.reverse.flatMap v.finalUsages))) := rfl

/-- What each instruction of the code may pass its value to, in number. -/
def carrierCounts (v : CodeView) : List (InstrId × Nat) :=
  v.index.order.map fun a => (a, v.traffic * v.index.size)

theorem sum_carrierCounts (v : CodeView) (id : InstrId) :
    [id].length + unseenAllowance v.carrierCounts [] ≤ v.carrierBound := by
  have hSum : (v.carrierCounts.map (·.2)).sum = v.index.size * (v.traffic * v.index.size) := by
    simp [carrierCounts, Function.comp_def, FlowIndex.size]
  have hBound : v.index.size * (v.traffic * v.index.size) ≤
      (v.index.size + 1) * (v.index.size + 1) * (v.traffic + 1) := calc
    _ = v.index.size * v.index.size * v.traffic := by ring
    _ ≤ _ := Nat.mul_le_mul (Nat.mul_le_mul (Nat.le_succ _) (Nat.le_succ _)) (Nat.le_succ _)
  rw [unseenAllowance_nil, hSum, List.length_singleton, carrierBound]
  omega

theorem carriers_ok {l : List InstrId} (h : v.carriers a = .ok l) :
    l.length ≤ allowance v.carrierCounts a ∧ ∀ b, b ∈ l ↔ v.PassesTo a b := by
  obtain ⟨parts, hParts, h⟩ := Outcome.bind_ok.mp h
  obtain rfl := Outcome.pure_ok.mp h
  refine ⟨(length_passOnAll_le hParts).trans (le_allowance ?_), (passOnAll_ok hParts).1⟩
  obtain ⟨usages, hUsage, -⟩ := Outcome.bind_ok.mp hParts
  exact List.mem_map_of_mem (mem_order_of_usage hUsage)

/-- The search visits what pushes the value again, and knows what becomes of it there. -/
theorem mem_visited_iff {visited : List InstrId}
    (hRun : explore v.carriers v.carrierBound [] [id] = .ok visited) :
    (∀ a, a ∈ visited ↔ ReflTransGen v.PassesTo id a) ∧
      ∀ a ∈ visited, ∃ parts, v.passOnAll a = .ok parts := by
  obtain ⟨hHeld, hClosed⟩ := explore_closed (P := fun _ => True)
    (fun a l _ hNext => ⟨(carriers_ok hNext).1, fun _ _ => trivial⟩) (fun _ _ => trivial) hRun
    (v.sum_carrierCounts id)
  have hParts {a : InstrId} (hMem : a ∈ visited) : ∃ parts, v.passOnAll a = .ok parts ∧
      ∀ b, v.PassesTo a b → b ∈ visited := by
    obtain ⟨l, hNext, hLed⟩ := (hClosed a hMem).resolve_left List.not_mem_nil
    obtain ⟨parts, hParts, -⟩ := Outcome.bind_ok.mp hNext
    exact ⟨parts, hParts, fun b hPasses => hLed b (((carriers_ok hNext).2 b).mpr hPasses)⟩
  refine ⟨fun a => ⟨?_, fun hPath => ?_⟩, fun a hMem => ?_⟩
  · refine explore_led (P := ReflTransGen v.PassesTo id) (fun a l hPath hNext b hMem => ?_)
      (fun _ hNone => (List.not_mem_nil hNone).elim) (fun a hStart => ?_) hRun a
    · exact hPath.tail (((carriers_ok hNext).2 b).mp hMem)
    · obtain rfl := List.mem_singleton.mp hStart
      exact .refl
  · induction hPath with
    | refl => exact hHeld id (Or.inl (List.mem_singleton_self _))
    | tail _ hPasses ih =>
        obtain ⟨parts, -, hLed⟩ := hParts ih
        exact hLed _ hPasses
  · obtain ⟨parts, hAll, -⟩ := hParts hMem
    exact ⟨parts, hAll⟩

/-- The search through locals is a closure. -/
theorem usageThroughLocals_ok (h : v.usageThroughLocals id = .ok usages) :
    (∀ w, w ∈ usages ↔ ∃ a, ReflTransGen v.PassesTo id a ∧ v.EndsIn a w) ∧
      usages.Pairwise v.Ahead ∧
      ∃ visited : List InstrId, visited.Nodup ∧
        (∀ a, a ∈ visited ↔ ReflTransGen v.PassesTo id a) ∧
        ∀ fuel ≥ v.carrierBound, explore v.carriers fuel [] [id] = .ok visited := by
  rw [usageThroughLocals_eq] at h
  obtain ⟨visited, hRun, h⟩ := Outcome.bind_ok.mp h
  obtain rfl := Outcome.pure_ok.mp h
  obtain ⟨hVisited, hParts⟩ := mem_visited_iff hRun
  have hFinal (w : Usage) : w ∈ visited.reverse.flatMap v.finalUsages ↔
      ∃ a, ReflTransGen v.PassesTo id a ∧ v.EndsIn a w := by
    simp only [List.mem_flatMap, List.mem_reverse]
    refine exists_congr fun a => ?_
    rw [← hVisited]
    refine and_congr_right fun hMem => ?_
    obtain ⟨parts, hAll⟩ := hParts a hMem
    rw [finalUsages, hAll]
    exact (passOnAll_ok hAll).2 w
  refine ⟨fun w => mem_sortUsages.trans (hFinal w), pairwise_sortUsages fun w hMem => ?_, visited,
    explore_nodup List.nodup_nil hRun, hVisited, fun fuel hEnough => ?_⟩
  · obtain ⟨a, -, hEnds⟩ := (hFinal w).mp hMem
    exact hEnds.position
  · have hFuel := v.sum_carrierCounts id
    rw [explore_settles (fun a l hNext => (carriers_ok hNext).1) hFuel hEnough, hRun]

end Closure

end CodeView

namespace Query

/-- Where a value goes through locals is where it comes to its end, over all chains of instructions
that push it again, each usage once and in the order of the code. The search takes up each of these
instructions once and is at its end with the fuel that it has, whatever loops there are. -/
theorem usageThroughLocals_closure {p : Program} {method : MethodId} {b : MethodBody}
    {cache after : FlowCache} {id : InstrId} {usages : List Usage} (hBody : p.body method = .ok b)
    (hCache : cache.Describes method b)
    (h : usageThroughLocals p method id cache = .ok usages after) :
    let v := CodeView.ofBody p method b
    (∀ w, w ∈ usages ↔ ∃ a, ReflTransGen v.PassesTo id a ∧ v.EndsIn a w) ∧
      usages.Pairwise v.Ahead ∧
      ∃ visited : List InstrId, visited.Nodup ∧
        (∀ a, a ∈ visited ↔ ReflTransGen v.PassesTo id a) ∧
        ∀ fuel ≥ v.carrierBound, explore v.carriers fuel [] [id] = .ok visited :=
  CodeView.usageThroughLocals_ok (of_ask_ok hBody hCache h)

end Query

section Examples

/-- A loop that stores back what it loads, and keeps it in a second local on the way. -/
def circledValue : MethodBody :=
  .ofParts [⟨⟨0⟩, .ldnull, .none⟩, ⟨⟨1⟩, .stloc, .localVar 0⟩, ⟨⟨2⟩, .ldloc, .localVar 0⟩,
    ⟨⟨3⟩, .dup, .none⟩, ⟨⟨4⟩, .stloc, .localVar 1⟩, ⟨⟨5⟩, .stloc, .localVar 0⟩,
    ⟨⟨6⟩, .ldloc, .localVar 1⟩, ⟨⟨7⟩, .brtrue, .target ⟨2⟩⟩, ⟨⟨8⟩, .ldloca, .localVar 0⟩,
    ⟨⟨9⟩, .pop, .none⟩, ⟨⟨10⟩, .ldloc, .localVar 1⟩, ⟨⟨11⟩, .pop, .none⟩, ⟨⟨12⟩, .ret, .none⟩]
    [.object, .object] []

/-- A program with this code. -/
def circledProgram : Program :=
  { Program.empty with
    methods := [⟨⟨0⟩, "Circle", [], .void, .ofList [.static], [], some circledValue⟩] }

/-- The null at the start goes round the loop, and ends in a branch, an address and a removal. -/
theorem circledValue_closure :
    ∃ usages after, Query.usageThroughLocals circledProgram ⟨0⟩ ⟨0⟩ .empty = .ok usages after ∧
      usages = [⟨⟨7⟩, 0⟩, ⟨⟨8⟩, 0⟩, ⟨⟨11⟩, 0⟩] ∧
      let v := CodeView.ofBody circledProgram ⟨0⟩ circledValue
      ∃ a, ReflTransGen v.PassesTo ⟨0⟩ a ∧ v.EndsIn a ⟨⟨8⟩, 0⟩ := by
  obtain ⟨usages, after, hRun, rfl⟩ : ∃ usages after,
      Query.usageThroughLocals circledProgram ⟨0⟩ ⟨0⟩ .empty = .ok usages after ∧
        usages = [⟨⟨7⟩, 0⟩, ⟨⟨8⟩, 0⟩, ⟨⟨11⟩, 0⟩] := ⟨_, _, rfl, rfl⟩
  obtain ⟨hEnds, -⟩ := Query.usageThroughLocals_closure (b := circledValue) rfl (.empty _ _) hRun
  exact ⟨_, after, hRun, rfl, (hEnds ⟨⟨8⟩, 0⟩).mp (by simp)⟩

end Examples

end ContextBinding
