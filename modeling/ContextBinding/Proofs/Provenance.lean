import ContextBinding.Proofs.Derivation
import ContextBinding.Proofs.Step
import ContextBinding.Provenance.Query

/-! What the backward walk finds. Whatever code it is asked of, a walk that ends finds
 only paths that are derived, and all that are derived without carrying out a task
 twice. Cutting a task short that waits for itself loses none of these, and neither
 does keeping what was found for tasks that no waiting task was cut short in. In code
 with stack heights the walk ends, and its paths end in exactly the instructions and
 handler entries whose value some walk brings there. -/

namespace ContextBinding

open Relation

namespace Walked

/-- What a cut allows less of, another cut further out allows less of as well. -/
theorem outermost_le {a b : Option Nat} {level : Nat} :
    (∃ cut, outermost a b = some cut ∧ cut ≤ level) ↔
      (∃ cut, a = some cut ∧ cut ≤ level) ∨ ∃ cut, b = some cut ∧ cut ≤ level := by
  cases a <;> cases b <;> simp [outermost]

theorem mem_merge {a b : Walked} {path : Path} :
    path ∈ (a.merge b).paths ↔ path ∈ a.paths ∨ path ∈ b.paths :=
  FlowIndex.mem_foldl_insertNew

end Walked

theorem levelOf?_cons (task other : WalkTask) (underWay : List WalkTask) :
    levelOf? task (other :: underWay) =
      if other = task then some underWay.length else levelOf? task underWay := rfl

theorem levelOf?_lt {task : WalkTask} {underWay : List WalkTask} {level : Nat}
    (h : levelOf? task underWay = some level) : level < underWay.length := by
  induction underWay with
  | nil => cases h
  | cons other underWay ih =>
      rw [levelOf?_cons] at h
      split at h
      · obtain rfl := Option.some_inj.mp h
        exact Nat.lt_succ_self _
      · exact (ih h).trans (Nat.lt_succ_self _)

theorem mem_of_levelOf? {task : WalkTask} {underWay : List WalkTask} {level : Nat}
    (h : levelOf? task underWay = some level) : task ∈ underWay := by
  induction underWay with
  | nil => cases h
  | cons other underWay ih =>
      rw [levelOf?_cons] at h
      split at h
      · rename_i hSame
        exact hSame ▸ List.mem_cons_self ..
      · exact List.mem_cons_of_mem _ (ih h)

theorem levelOf?_eq_none {task : WalkTask} {underWay : List WalkTask}
    (h : levelOf? task underWay = none) : task ∉ underWay := by
  induction underWay with
  | nil => exact List.not_mem_nil
  | cons other underWay ih =>
      rw [levelOf?_cons] at h
      split at h
      · cases h
      · rename_i hOther
        exact List.not_mem_cons_of_ne_of_not_mem (Ne.symm hOther) (ih h)

/-- The tasks that a walk may not come back to, given where it was cut short. -/
def Barred (underWay : List WalkTask) (cut : Option Nat) (task : WalkTask) : Prop :=
  ∃ level, levelOf? task underWay = some level ∧ ∃ outer, cut = some outer ∧ outer ≤ level

theorem barred_none {underWay : List WalkTask} {task : WalkTask} :
    ¬ Barred underWay none task := by
  rintro ⟨_, -, _, h, -⟩
  cases h

theorem Barred.outermost {underWay : List WalkTask} {a b : Option Nat} {task : WalkTask}
    (h : Barred underWay a task ∨ Barred underWay b task) :
    Barred underWay (Walked.outermost a b) task := by
  rcases h with ⟨level, hLevel, h⟩ | ⟨level, hLevel, h⟩
  · exact ⟨level, hLevel, Walked.outermost_le.mpr (Or.inl h)⟩
  · exact ⟨level, hLevel, Walked.outermost_le.mpr (Or.inr h)⟩

namespace CodeView

variable {v : CodeView} {height : InstrId → Nat} {id : InstrId} {sought : Nat × WalkAim}
  {underWay : List WalkTask} {task : WalkTask} {memo memo' : WalkMemo} {found : Walked}
  {enter : WalkTask → Walk Walked}

/-- What was found just before an instruction while others waited is derived, and
complete up to the tasks that it was cut short at. -/
structure FindsAt (v : CodeView) (underWay : List WalkTask) (id : InstrId)
    (sought : Nat × WalkAim) (found : Walked) : Prop where
  derived : ∀ path ∈ found.paths, ∃ trail, v.Derives id sought trail path
  complete : ∀ trail path, v.Derives id sought trail path → trail.Nodup →
    (∀ task ∈ trail, ¬ Barred underWay found.cut task) → path ∈ found.paths

/-- What was found for a task while others waited for it is derived, and complete up
to the tasks that it was cut short at. -/
structure Finds (v : CodeView) (underWay : List WalkTask) (task : WalkTask) (found : Walked) :
    Prop where
  derived : ∀ path ∈ found.paths, ∃ trail, v.Carries task trail path
  complete : ∀ trail path, v.Carries task trail path → (task :: trail).Nodup →
    (∀ other ∈ task :: trail, ¬ Barred underWay found.cut other) → path ∈ found.paths

/-- What is kept of finished tasks is right and complete. -/
def Recalls (v : CodeView) (memo : WalkMemo) : Prop :=
  ∀ task paths, memo.lookup task = some paths → v.Finds [] task ⟨paths, none⟩

/-- Tasks that are carried out find what there is, and what is kept stays right. -/
def CarriesOut (v : CodeView) (underWay : List WalkTask) (enter : WalkTask → Walk Walked) : Prop :=
  ∀ task memo found memo', v.Recalls memo → enter task memo = .ok (found, memo') →
    v.Recalls memo' ∧ v.Finds underWay task found

theorem Recalls.nil : v.Recalls [] := by
  intro task paths h
  cases h

theorem Recalls.cons (h : v.Recalls memo) {paths : List Path}
    (hFinds : v.Finds [] task ⟨paths, none⟩) : v.Recalls ((task, paths) :: memo) := by
  intro other paths' hOther
  rw [List.lookup_cons] at hOther
  split at hOther
  · rename_i hSame
    obtain rfl := Option.some_inj.mp hOther
    obtain rfl : other = task := by simpa using hSame
    exact hFinds
  · exact h other paths' hOther

end CodeView

namespace Walk

variable {α β : Type} {x : Walk α} {f : α → Walk β} {memo memo' : WalkMemo}

theorem bind_ok {b : β} : (x >>= f) memo = .ok (b, memo') ↔
    ∃ a after, x memo = .ok (a, after) ∧ f a after = .ok (b, memo') := by
  change StateT.bind x f memo = _ ↔ _
  unfold StateT.bind
  rw [Outcome.bind_ok]
  exact ⟨fun ⟨⟨a, after⟩, h⟩ => ⟨a, after, h⟩, fun ⟨a, after, h⟩ => ⟨(a, after), h⟩⟩

theorem pure_ok {a b : α} : (pure a : Walk α) memo = .ok (b, memo') ↔ a = b ∧ memo = memo' := by
  change Except.ok (a, memo) = .ok (b, memo') ↔ _
  simp

theorem throw_ok {e : AnalysisError} {a : α} :
    (throw e : Walk α) memo = .ok (a, memo') ↔ False := by
  change Except.error e = .ok (a, memo') ↔ _
  simp

theorem lift_ok {y : Except AnalysisError α} {a : α} :
    (monadLift y : Walk α) memo = .ok (a, memo') ↔ y = .ok a ∧ memo = memo' := by
  cases y with
  | ok b => exact pure_ok.trans (by simp)
  | error e => exact throw_ok.trans (by simp)

theorem map_ok {g : α → β} {b : β} : (g <$> x) memo = .ok (b, memo') ↔
    ∃ a, x memo = .ok (a, memo') ∧ g a = b := by
  rw [← bind_pure_comp, bind_ok]
  simp only [pure_ok]
  exact ⟨fun ⟨a, _, h, hSame, rfl⟩ => ⟨a, h, hSame⟩, fun ⟨a, h, hSame⟩ => ⟨a, _, h, hSame, rfl⟩⟩

theorem bind_of_ok {a : α} (h : x memo = .ok (a, memo')) : (x >>= f) memo = f a memo' := by
  change StateT.bind x f memo = _
  unfold StateT.bind
  rw [h]
  rfl

theorem bind_of_error {e : AnalysisError} (h : x memo = .error e) :
    (x >>= f) memo = .error e := by
  change StateT.bind x f memo = _
  unfold StateT.bind
  rw [h]
  rfl

theorem run'_ok {a : α} : StateT.run' x memo = .ok a ↔ ∃ memo', x memo = .ok (a, memo') := by
  change (·.1) <$> x memo = _ ↔ _
  cases hRun : x memo with
  | ok pair =>
      obtain ⟨b, after⟩ := pair
      change Except.ok b = Except.ok a ↔ _
      simp
  | error e =>
      change Except.error e = Except.ok a ↔ _
      simp

theorem run'_of_ok {a : α} (h : x memo = .ok (a, memo')) : StateT.run' x memo = .ok a :=
  run'_ok.mpr ⟨memo', h⟩

end Walk

namespace CodeView

variable {v : CodeView} {height : InstrId → Nat} {id : InstrId} {sought : Nat × WalkAim}
  {underWay : List WalkTask} {task : WalkTask} {memo memo' : WalkMemo} {found : Walked}
  {enter : WalkTask → Walk Walked}

section Finding

/-- What the walks into several instructions found together. -/
structure Gathers (v : CodeView) (underWay : List WalkTask) (owed : Nat) (aim : WalkAim)
    (ids : List InstrId) (acc found : Walked) : Prop where
  held : ∀ path ∈ acc.paths, path ∈ found.paths
  derived : ∀ path ∈ found.paths, path ∈ acc.paths ∨
    ∃ id ∈ ids, ∃ trail, v.Carries ⟨id, owed, aim⟩ trail path
  barred : ∀ task, Barred underWay acc.cut task → Barred underWay found.cut task
  complete : ∀ id ∈ ids, ∀ trail path, v.Carries ⟨id, owed, aim⟩ trail path →
    (⟨id, owed, aim⟩ :: trail).Nodup →
    (∀ task ∈ ⟨id, owed, aim⟩ :: trail, ¬ Barred underWay found.cut task) → path ∈ found.paths

/-- Walking into one instruction after the other loses nothing of what is found. -/
theorem gather_finds (hEnter : v.CarriesOut underWay enter) {owed : Nat} {aim : WalkAim}
    {ids : List InstrId} {acc : Walked} (hMemo : v.Recalls memo)
    (h : (ids.foldlM (fun found id => do
      pure (found.merge (← enter ⟨id, owed, aim⟩))) acc : Walk Walked) memo = .ok (found, memo')) :
    v.Recalls memo' ∧ v.Gathers underWay owed aim ids acc found := by
  induction ids generalizing acc memo with
  | nil =>
      obtain ⟨rfl, rfl⟩ := Walk.pure_ok.mp h
      exact ⟨hMemo, fun _ h => h, fun _ h => Or.inl h, fun _ h => h,
        fun _ h => (List.not_mem_nil h).elim⟩
  | cons id ids ih =>
      rw [List.foldlM_cons] at h
      obtain ⟨acc', memo₁, hStep, hRest⟩ := Walk.bind_ok.mp h
      obtain ⟨first, memo₂, hFirst, hMerge⟩ := Walk.bind_ok.mp hStep
      obtain ⟨rfl, rfl⟩ := Walk.pure_ok.mp hMerge
      obtain ⟨hMemo₂, hFound⟩ := hEnter _ _ _ _ hMemo hFirst
      obtain ⟨hMemo', hGathers⟩ := ih hMemo₂ hRest
      have hBarred (task : WalkTask) (h : Barred underWay first.cut task) :
          Barred underWay found.cut task := hGathers.barred task (.outermost (Or.inr h))
      refine ⟨hMemo', ?_, ?_, ?_, ?_⟩
      · exact fun path h => hGathers.held path (Walked.mem_merge.mpr (Or.inl h))
      · intro path h
        rcases hGathers.derived path h with h | ⟨other, hOther, hDerived⟩
        · rcases Walked.mem_merge.mp h with h | h
          · exact Or.inl h
          · exact Or.inr ⟨id, List.mem_cons_self .., hFound.derived path h⟩
        · exact Or.inr ⟨other, List.mem_cons_of_mem _ hOther, hDerived⟩
      · exact fun task h => hGathers.barred task (.outermost (Or.inl h))
      · intro other hOther trail path hCarries hNodup hFree
        rcases List.mem_cons.mp hOther with rfl | hOther
        · refine hGathers.held path (Walked.mem_merge.mpr (Or.inr ?_))
          exact hFound.complete trail path hCarries hNodup fun task hMem h =>
            hFree task hMem (hBarred task h)
        · exact hGathers.complete other hOther trail path hCarries hNodup hFree

/-- Look for what is owed just before an instruction. -/
def look (v : CodeView) (enter : WalkTask → Walk Walked) (id : InstrId) :
    Nat × WalkAim → Walk Walked
  | (owed, .beneath) => v.producersVia enter id owed
  | (owed, .supply) => v.suppliersVia enter id owed

/-- Looking ahead of an instruction comes down to its handler, or to its predecessors. -/
theorem lookBack_ok {owed last : Nat} {aim : WalkAim} (h : v.lookBack enter id owed aim last memo =
    .ok (found, memo')) : (∃ type, v.index.handlerEntry? id = some (some type) ∧ owed = last ∧
        found = ⟨[.ofCatch id], none⟩ ∧ memo' = memo) ∨
      v.index.handlerEntry? id = none ∧
        gather enter owed aim (v.index.predecessors id) memo = .ok (found, memo') := by
  unfold lookBack at h
  rcases hEntry : v.index.handlerEntry? id with _ | _ | type
  · simp only [hEntry] at h
    cases hPrior : v.index.predecessors id with
    | nil =>
        simp only [hPrior] at h
        exact (Walk.throw_ok.mp h).elim
    | cons prior rest =>
        simp only [hPrior] at h
        exact Or.inr ⟨rfl, h⟩
  · simp only [hEntry] at h
    exact (Walk.throw_ok.mp h).elim
  · simp only [hEntry] at h
    split at h
    · rename_i hLast
      obtain ⟨rfl, rfl⟩ := Walk.pure_ok.mp h
      exact Or.inl ⟨type, rfl, hLast, rfl, rfl⟩
    · exact (Walk.throw_ok.mp h).elim

/-- What the predecessors supply is derived, and nothing that is derived is left out. -/
theorem lookBack_finds (hEnter : v.CarriesOut underWay enter) {owed last : Nat} {aim : WalkAim}
    (hSome : 0 < aim.need owed) (hLast : aim.need last = 1) (hMemo : v.Recalls memo)
    (h : v.lookBack enter id owed aim last memo = .ok (found, memo')) :
    v.Recalls memo' ∧ v.FindsAt underWay id (owed, aim) found := by
  rcases lookBack_ok h with ⟨type, hEntry, rfl, rfl, rfl⟩ | ⟨hEntry, hGather⟩
  · refine ⟨hMemo, fun path hPath => ?_, fun trail path hDerives _ _ => ?_⟩
    · obtain rfl := List.mem_singleton.mp hPath
      exact ⟨[], .caught hEntry hLast⟩
    · cases trail with
      | nil =>
          rcases hDerives.ended with ⟨hNone, -⟩ | ⟨-, rfl⟩
          · obtain ⟨rfl, rfl⟩ := Prod.mk.inj hNone
            exact (Nat.lt_irrefl 0 hSome).elim
          · exact List.mem_singleton_self _
      | cons task trail => cases hEntry.symm.trans hDerives.first.2.1
  · obtain ⟨hMemo', hGathers⟩ := gather_finds hEnter hMemo hGather
    refine ⟨hMemo', fun path hPath => ?_, fun trail path hDerives hNodup hFree => ?_⟩
    · rcases hGathers.derived path hPath with h | ⟨prior, hPrior, trail, hCarries⟩
      · exact (List.not_mem_nil h).elim
      · exact ⟨_, hCarries.derives hEntry hSome hPrior⟩
    · cases trail with
      | nil =>
          rcases hDerives.ended with ⟨hNone, -⟩ | ⟨⟨type, hCaught⟩, -⟩
          · obtain ⟨rfl, rfl⟩ := Prod.mk.inj hNone
            exact (Nat.lt_irrefl 0 hSome).elim
          · cases hEntry.symm.trans hCaught
      | cons task trail =>
          obtain ⟨hSought, -, -, hPrior, hCarries⟩ := hDerives.first
          obtain ⟨prior, owed', aim'⟩ := task
          obtain ⟨rfl, rfl⟩ := Prod.mk.inj hSought
          exact hGathers.complete prior hPrior trail path hCarries hNodup hFree

/-- Looking for what is owed just before an instruction finds what is derived there. -/
theorem look_finds (hEnter : v.CarriesOut underWay enter) (hMemo : v.Recalls memo)
    (h : v.look enter id sought memo = .ok (found, memo')) :
    v.Recalls memo' ∧ v.FindsAt underWay id sought found := by
  obtain ⟨owed, aim⟩ := sought
  cases aim with
  | beneath => exact lookBack_finds hEnter (Nat.succ_pos owed) rfl hMemo h
  | supply =>
      change v.suppliersVia enter id owed memo = _ at h
      unfold suppliersVia at h
      split at h
      · rename_i hNone
        subst hNone
        obtain ⟨rfl, rfl⟩ := Walk.pure_ok.mp h
        refine ⟨hMemo, fun path hPath => ?_, fun trail path hDerives _ _ => ?_⟩
        · obtain rfl := List.mem_singleton.mp hPath
          exact ⟨[], .nothing⟩
        · rw [hDerives.eq_nil.2]
          exact List.mem_singleton_self _
      · rename_i hSome
        exact lookBack_finds hEnter (Nat.pos_of_ne_zero hSome) rfl hMemo h

/-- Passing an instruction that does not leave comes down to looking ahead of it. -/
theorem passVia_eq {effect : StackEffect} (hEffect : v.effect task.instr = .ok effect)
    (hStays : ¬ v.Leaves task.instr) : v.passVia enter task memo =
      ((fun ahead => ⟨ahead.paths.map (task.passed effect), ahead.cut⟩) <$>
        v.look enter task.instr (task.ahead effect) : Walk Walked) memo := by
  obtain ⟨i, hInstr, -⟩ := Outcome.bind_ok.mp hEffect
  have hOpcode : i.opcode ≠ .leave := fun hLeave => hStays ⟨i, hInstr, hLeave⟩
  have hLiftInstr : (monadLift (v.instr task.instr) : Walk Instruction) memo = .ok (i, memo) :=
    Walk.lift_ok.mpr ⟨hInstr, rfl⟩
  have hLiftEffect : (monadLift (v.effect task.instr) : Walk StackEffect) memo =
      .ok (effect, memo) := Walk.lift_ok.mpr ⟨hEffect, rfl⟩
  unfold passVia
  rw [Walk.bind_of_ok hLiftInstr, if_neg hOpcode]
  change ((monadLift (v.effect task.instr) : Walk StackEffect) >>= _) memo = _
  rw [Walk.bind_of_ok hLiftEffect]
  obtain ⟨id, owed, aim⟩ := task
  cases aim with
  | beneath =>
      by_cases hSkip : effect.pushes ≤ owed
      · have hPassed : WalkTask.passed ⟨id, owed, .beneath⟩ effect = fun path => path :=
          funext fun path => if_pos hSkip
        simp only [WalkTask.ahead, hSkip, if_true, look, hPassed, List.map_id', id_map']
      · have hPassed : WalkTask.passed ⟨id, owed, .beneath⟩ effect =
            fun path => path.extend id (owed + 1 == effect.pushes) :=
          funext fun path => if_neg hSkip
        simp only [WalkTask.ahead, hSkip, if_false, look, bind_pure_comp, hPassed]
        rfl
  | supply =>
      by_cases hNeutral : effect.pops = 0 ∧ effect.pushes = 0
      · have hPassed : WalkTask.passed ⟨id, owed, .supply⟩ effect = fun path => path :=
          funext fun path => if_pos hNeutral
        simp only [WalkTask.ahead, hNeutral, and_self, if_true, look, hPassed, List.map_id',
          id_map', Nat.sub_zero, Nat.add_zero]
      · have hPassed : WalkTask.passed ⟨id, owed, .supply⟩ effect =
            fun path => path.extend id (effect.pushes ≤ owed) :=
          funext fun path => if_neg hNeutral
        simp only [WalkTask.ahead, hNeutral, if_false, look, bind_pure_comp, hPassed]
        rfl

/-- An instruction is passed where it has a stack effect and does not leave. -/
theorem passVia_ok : v.passVia enter task memo = .ok (found, memo') ↔
    ∃ effect ahead, v.effect task.instr = .ok effect ∧ ¬ v.Leaves task.instr ∧
      v.look enter task.instr (task.ahead effect) memo = .ok (ahead, memo') ∧
      found = ⟨ahead.paths.map (task.passed effect), ahead.cut⟩ := by
  have hPassed {effect : StackEffect} (hEffect : v.effect task.instr = .ok effect)
      (hStays : ¬ v.Leaves task.instr) : v.passVia enter task memo = .ok (found, memo') ↔
        ∃ ahead, v.look enter task.instr (task.ahead effect) memo = .ok (ahead, memo') ∧
          found = ⟨ahead.paths.map (task.passed effect), ahead.cut⟩ := by
    rw [passVia_eq hEffect hStays, Walk.map_ok]
    simp only [eq_comm]
  constructor
  · intro h
    have hRun := h
    unfold passVia at h
    obtain ⟨i, _, hLift, h⟩ := Walk.bind_ok.mp h
    obtain ⟨hInstr, rfl⟩ := Walk.lift_ok.mp hLift
    dsimp only at h
    split at h
    · obtain ⟨_, _, hThrow, -⟩ := Walk.bind_ok.mp h
      exact (Walk.throw_ok.mp hThrow).elim
    · rename_i hOpcode
      obtain ⟨effect, _, hLift', -⟩ := Walk.bind_ok.mp h
      obtain ⟨hEffect, -⟩ := Walk.lift_ok.mp hLift'
      have hStays : ¬ v.Leaves task.instr := by
        rintro ⟨i', hInstr', hLeave⟩
        obtain rfl := Except.ok.inj (hInstr.symm.trans hInstr')
        exact hOpcode hLeave
      obtain ⟨ahead, hLook, hFound⟩ := (hPassed hEffect hStays).mp hRun
      exact ⟨effect, ahead, hEffect, hStays, hLook, hFound⟩
  · rintro ⟨effect, ahead, hEffect, hStays, hLook, hFound⟩
    exact (hPassed hEffect hStays).mpr ⟨ahead, hLook, hFound⟩

/-- A task is recalled, or closes a loop, or passes its instruction. What it finds is kept
unless a task ahead of it was come back to. -/
theorem carryOut_succ (fuel : Nat) : v.carryOut (fuel + 1) underWay task memo =
    match memo.lookup task with
    | some paths => .ok (⟨paths, none⟩, memo)
    | none =>
      match levelOf? task underWay with
      | some level => .ok (⟨[], some level⟩, memo)
      | none =>
        match v.passVia (v.carryOut fuel (task :: underWay)) task memo with
        | .ok (found, memo') =>
          if found.cut.any (· < underWay.length) then .ok (found, memo')
          else .ok (⟨found.paths, none⟩, (task, found.paths) :: memo')
        | .error e => .error e := by
  have hGet : (get : Walk WalkMemo) memo = .ok (memo, memo) := rfl
  rw [carryOut, Walk.bind_of_ok hGet]
  cases memo.lookup task with
  | some paths => rfl
  | none =>
      cases levelOf? task underWay with
      | some level => rfl
      | none =>
          cases hRun : v.passVia (v.carryOut fuel (task :: underWay)) task memo with
          | error e => exact Walk.bind_of_error hRun
          | ok pair =>
              obtain ⟨found, memo'⟩ := pair
              refine (Walk.bind_of_ok hRun).trans ?_
              dsimp only
              split <;> rfl

/-- A task is only cut short by those ahead of it. -/
theorem carryOut_cut_lt {fuel : Nat} (h : v.carryOut fuel underWay task memo = .ok (found, memo')) :
    ∀ cut, found.cut = some cut → cut < underWay.length := by
  cases fuel with
  | zero => exact (Walk.throw_ok.mp h).elim
  | succ fuel =>
      rw [carryOut_succ] at h
      split at h
      · obtain ⟨rfl, rfl⟩ := Prod.mk.inj (Except.ok.inj h)
        exact fun _ h => nomatch h
      · split at h
        · rename_i level hLevel
          obtain ⟨rfl, rfl⟩ := Prod.mk.inj (Except.ok.inj h)
          rintro cut hCut
          obtain rfl := Option.some_inj.mp hCut
          exact levelOf?_lt hLevel
        · split at h
          · split at h
            · rename_i hOuter
              obtain ⟨rfl, rfl⟩ := Prod.mk.inj (Except.ok.inj h)
              intro cut hCut
              simpa [hCut] using hOuter
            · obtain ⟨rfl, rfl⟩ := Prod.mk.inj (Except.ok.inj h)
              exact fun _ h => nomatch h
          · cases h

/-- Passing an instruction finds what a task can find there that comes back to no other
task, nor to itself. -/
theorem passVia_finds (hEnter : v.CarriesOut (task :: underWay) enter) (hMemo : v.Recalls memo)
    (h : v.passVia enter task memo = .ok (found, memo')) : v.Recalls memo' ∧
      (∀ path ∈ found.paths, ∃ trail, v.Carries task trail path) ∧
      ∀ trail path, v.Carries task trail path → (task :: trail).Nodup →
        (∀ other ∈ trail, ¬ Barred (task :: underWay) found.cut other) → path ∈ found.paths := by
  obtain ⟨effect, ahead, hEffect, hStays, hLook, rfl⟩ := passVia_ok.mp h
  obtain ⟨hMemo', hFinds⟩ := look_finds hEnter hMemo hLook
  refine ⟨hMemo', fun path hPath => ?_, ?_⟩
  · obtain ⟨behind, hBehind, rfl⟩ := List.mem_map.mp hPath
    obtain ⟨trail, hDerives⟩ := hFinds.derived behind hBehind
    exact ⟨trail, effect, behind, hEffect, hStays, hDerives, rfl⟩
  · rintro trail _ ⟨effect', behind, hEffect', -, hDerives, rfl⟩ hNodup hFree
    obtain rfl := Except.ok.inj (hEffect.symm.trans hEffect')
    exact List.mem_map_of_mem
      (hFinds.complete trail behind hDerives (List.nodup_cons.mp hNodup).2 hFree)

/-- A task is barred while it is under way itself. -/
theorem barred_cons {other : WalkTask} {cut : Option Nat}
    (h : Barred (task :: underWay) cut other) : Barred underWay cut other ∨ other = task := by
  obtain ⟨level, hLevel, hCut⟩ := h
  rw [levelOf?_cons] at hLevel
  split at hLevel
  · rename_i hSame
    exact Or.inr hSame.symm
  · exact Or.inl ⟨level, hLevel, hCut⟩

/-- Where no task ahead was come back to, none of them is barred. -/
theorem eq_of_barred_cons {other : WalkTask} {cut : Option Nat}
    (hCut : ¬ cut.any (· < underWay.length)) (h : Barred (task :: underWay) cut other) :
    other = task := by
  rcases barred_cons h with ⟨level, hLevel, outer, rfl, hLe⟩ | hSame
  · have hBelow := (hLe.trans_lt (levelOf?_lt hLevel))
    exact (hCut (by simpa using hBelow)).elim
  · exact hSame

/-- What was found without coming back to a waiting task does not depend on which tasks wait. -/
theorem Finds.settled {paths : List Path} (h : v.Finds underWay task ⟨paths, none⟩)
    (underWay' : List WalkTask) : v.Finds underWay' task ⟨paths, none⟩ :=
  ⟨h.derived, fun trail path hCarries hNodup _ =>
    h.complete trail path hCarries hNodup fun _ _ => barred_none⟩

/-- A task finds what there is, whatever the code. The invariant is on `cut`: what was
found misses only what comes back to a task that waits from that level on. Once no task
below its own level was come back to, a task misses only what comes back to itself, and
that carries it out twice. -/
theorem carryOut_finds (fuel : Nat) : v.CarriesOut underWay (v.carryOut fuel underWay) := by
  induction fuel generalizing underWay with
  | zero => exact fun task memo found memo' _ h => (Walk.throw_ok.mp h).elim
  | succ fuel ih =>
      intro task memo found memo' hMemo h
      rw [carryOut_succ] at h
      split at h
      · rename_i paths hLookup
        obtain ⟨rfl, rfl⟩ := Prod.mk.inj (Except.ok.inj h)
        exact ⟨hMemo, (hMemo task paths hLookup).settled underWay⟩
      · split at h
        · rename_i level hLevel
          obtain ⟨rfl, rfl⟩ := Prod.mk.inj (Except.ok.inj h)
          refine ⟨hMemo, fun _ h => (List.not_mem_nil h).elim, fun trail path _ _ hFree => ?_⟩
          exact (hFree task (List.mem_cons_self ..) ⟨level, hLevel, level, rfl, Nat.le_refl _⟩).elim
        · split at h
          · rename_i behind memo₁ hRun
            obtain ⟨hMemo₁, hDerived, hComplete⟩ := passVia_finds ih hMemo hRun
            split at h
            · obtain ⟨rfl, rfl⟩ := Prod.mk.inj (Except.ok.inj h)
              refine ⟨hMemo₁, hDerived, fun trail path hCarries hNodup hFree => ?_⟩
              refine hComplete trail path hCarries hNodup fun other hOther hBarred => ?_
              rcases barred_cons hBarred with hBarred | rfl
              · exact hFree other (List.mem_cons_of_mem _ hOther) hBarred
              · exact (List.nodup_cons.mp hNodup).1 hOther
            · rename_i hCut
              obtain ⟨rfl, rfl⟩ := Prod.mk.inj (Except.ok.inj h)
              have hFinds : v.Finds underWay task ⟨behind.paths, none⟩ := by
                refine ⟨hDerived, fun trail path hCarries hNodup _ => ?_⟩
                refine hComplete trail path hCarries hNodup fun other hOther hBarred => ?_
                obtain rfl := eq_of_barred_cons hCut hBarred
                exact (List.nodup_cons.mp hNodup).1 hOther
              exact ⟨hMemo₁.cons (hFinds.settled []), hFinds⟩
          · cases h

end Finding

section Succeeding

/-- A task walks into an instruction ahead of one that can be reached, with no more values
owed than there are. -/
def Fits (v : CodeView) (height : InstrId → Nat) (task : WalkTask) : Prop :=
  ∃ next, task.instr ∈ v.index.predecessors next ∧ v.Reachable next ∧
    0 < task.aim.need task.owed ∧ task.aim.need task.owed ≤ height next

/-- Tasks that fit can be carried out. -/
def Proceeds (v : CodeView) (height : InstrId → Nat) (enter : WalkTask → Walk Walked) : Prop :=
  ∀ task memo, v.Fits height task → ∃ found memo', enter task memo = .ok (found, memo')

theorem gather_succeeds (hEnter : v.Proceeds height enter) {owed : Nat} {aim : WalkAim}
    {ids : List InstrId} (hFits : ∀ id ∈ ids, v.Fits height ⟨id, owed, aim⟩) (acc : Walked)
    (memo : WalkMemo) : ∃ found memo', (ids.foldlM (fun found id => do
      pure (found.merge (← enter ⟨id, owed, aim⟩))) acc : Walk Walked) memo =
        .ok (found, memo') := by
  induction ids generalizing acc memo with
  | nil => exact ⟨acc, memo, rfl⟩
  | cons id ids ih =>
      obtain ⟨first, memo₁, hFirst⟩ := hEnter _ memo (hFits id (List.mem_cons_self ..))
      rw [List.foldlM_cons, Walk.bind_of_ok (Walk.bind_of_ok hFirst)]
      exact ih (fun other h => hFits other (List.mem_cons_of_mem _ h)) _ _

/-- An instruction that can be reached and needs values has a predecessor or is the entry
of a handler that catches. -/
theorem HasHeightsOn.exists_predecessor (h : v.HasHeightsOn v.Reachable height)
    (hReach : v.Reachable id)
    (hHeight : 0 < height id) (hEntry : v.index.handlerEntry? id = none) :
    v.index.predecessors id ≠ [] := by
  obtain ⟨entry, stack, hEnters, hPath⟩ := hReach
  cases hPath with
  | refl =>
      cases hEnters with
      | start hStart => exact absurd (h.start _ hStart) hHeight.ne'
      | catching hCaught => cases hEntry.symm.trans hCaught
      | finishing hFinal => cases hEntry.symm.trans hFinal
  | tail _ hFlow => exact List.ne_nil_of_mem (FlowIndex.mem_predecessors.mpr hFlow)

theorem lookBack_succeeds (hTrace : v.Retraceable v.Reachable height)
    (hEnter : v.Proceeds height enter) (hReach : v.Reachable id) {owed last : Nat} {aim : WalkAim}
    (hSome : 0 < aim.need owed) (hNeed : aim.need owed ≤ height id) (hLast : aim.need last = 1)
    (memo : WalkMemo) :
    ∃ found memo', v.lookBack enter id owed aim last memo = .ok (found, memo') := by
  unfold lookBack
  rcases hEntry : v.index.handlerEntry? id with _ | _ | type
  · have hPredecessors := hTrace.exists_predecessor hReach (hSome.trans_le hNeed) hEntry
    obtain ⟨found, memo', hRun⟩ := gather_succeeds hEnter
      (fun prior hPrior => ⟨id, hPrior, hReach, hSome, hNeed⟩) Walked.none memo
    refine ⟨found, memo', ?_⟩
    rw [← hRun]
    cases hPrior : v.index.predecessors id with
    | nil => exact (hPredecessors hPrior).elim
    | cons prior rest => rfl
  · have hHeight := hTrace.finishing id hEntry
    omega
  · have hHeight := hTrace.caught id type hEntry
    have hOwed : owed = last := by
      cases aim <;> simp only [WalkAim.need] at hSome hNeed hLast <;> omega
    exact ⟨_, memo, by rw [if_pos hOwed]; rfl⟩

theorem look_succeeds (hTrace : v.Retraceable v.Reachable height) (hEnter : v.Proceeds height enter)
    (hReach : v.Reachable id) (sought : Nat × WalkAim)
    (hNeed : sought.2.need sought.1 ≤ height id) (memo : WalkMemo) :
    ∃ found memo', v.look enter id sought memo = .ok (found, memo') := by
  obtain ⟨owed, aim⟩ := sought
  cases aim with
  | beneath =>
      have hSome : 0 < WalkAim.beneath.need owed := Nat.succ_pos owed
      exact lookBack_succeeds hTrace hEnter hReach hSome hNeed rfl memo
  | supply =>
      change ∃ found memo', v.suppliersVia enter id owed memo = _
      unfold suppliersVia
      split
      · exact ⟨_, memo, rfl⟩
      · rename_i hSome
        have hSome : 0 < WalkAim.supply.need owed := Nat.pos_of_ne_zero hSome
        exact lookBack_succeeds hTrace hEnter hReach hSome hNeed rfl memo

/-- A walk in code with stack heights does not come to an end early. No task is under way
twice, so that a bound on how many different ones there are bounds how many wait. -/
theorem carryOut_succeeds (hTrace : v.Retraceable v.Reachable height) {bound : Nat}
    (hBound : ∀ tasks : List WalkTask, tasks.Nodup → (∀ task ∈ tasks, v.Fits height task) →
      tasks.length ≤ bound) {fuel : Nat} (hNodup : underWay.Nodup)
    (hUnderWay : ∀ task ∈ underWay, v.Fits height task)
    (hFuel : bound < fuel + underWay.length) :
    v.Proceeds height (v.carryOut fuel underWay) := by
  induction fuel generalizing underWay with
  | zero =>
      have hLength := hBound underWay hNodup hUnderWay
      omega
  | succ fuel ih =>
      intro task memo hFits
      rw [carryOut_succ]
      split
      · exact ⟨_, _, rfl⟩
      · split
        · exact ⟨_, _, rfl⟩
        · rename_i hLevel
          have hEnter := ih (List.nodup_cons.mpr ⟨levelOf?_eq_none hLevel, hNodup⟩)
            (List.forall_mem_cons.mpr ⟨hFits, hUnderWay⟩) (by rw [List.length_cons]; omega)
          obtain ⟨next, hPrior, hReach, hSome, hNeed⟩ := hFits
          obtain ⟨hBack, hStays, effect, hEffect, -, -, hAhead⟩ :=
            hTrace.back hPrior hReach hSome hNeed
          obtain ⟨ahead, memo', hLook⟩ := look_succeeds hTrace hEnter hBack _ hAhead memo
          rw [passVia_ok.mpr ⟨effect, ahead, hEffect, hStays, hLook, rfl⟩]
          dsimp only
          split
          · exact ⟨_, _, rfl⟩
          · exact ⟨_, _, rfl⟩

/-- There are only so many different tasks that fit. -/
theorem length_tasks_le (hTrace : v.HasHeightsOn v.Reachable height) {tasks : List WalkTask}
    (hNodup : tasks.Nodup) (hFits : ∀ task ∈ tasks, v.Fits height task) :
    tasks.length ≤ 2 * (v.index.size * (v.traffic + 2)) := by
  let spots := v.index.order.toFinset ×ˢ Finset.range (v.traffic + 2)
  let fitting := (spots.image fun spot => WalkTask.mk spot.1 spot.2 .beneath) ∪
    spots.image fun spot => WalkTask.mk spot.1 spot.2 .supply
  have hSubset : tasks.toFinset ⊆ fitting := by
    rintro ⟨id, owed, aim⟩ hMem
    obtain ⟨next, hPrior, hReach, -, hNeed⟩ := hFits _ (List.mem_toFinset.mp hMem)
    have hHeight := hTrace.height_le_traffic hReach
    have hOrder := hTrace.sources _ _ (FlowIndex.mem_predecessors.mp hPrior)
    have hOwed : owed < v.traffic + 2 := by
      cases aim <;> simp only [WalkAim.need] at hNeed <;> omega
    have hSpot : (id, owed) ∈ spots := Finset.mem_product.mpr
      ⟨List.mem_toFinset.mpr hOrder, Finset.mem_range.mpr hOwed⟩
    cases aim with
    | beneath => exact Finset.mem_union_left _ (Finset.mem_image.mpr ⟨_, hSpot, rfl⟩)
    | supply => exact Finset.mem_union_right _ (Finset.mem_image.mpr ⟨_, hSpot, rfl⟩)
  have hSpots : spots.card ≤ v.index.size * (v.traffic + 2) := by
    rw [Finset.card_product, Finset.card_range]
    exact Nat.mul_le_mul_right _ v.index.order.toFinset_card_le
  calc tasks.length
    _ = tasks.toFinset.card := (List.toFinset_card_of_nodup hNodup).symm
    _ ≤ fitting.card := Finset.card_le_card hSubset
    _ ≤ spots.card + spots.card := (Finset.card_union_le _ _).trans
      (Nat.add_le_add Finset.card_image_le Finset.card_image_le)
    _ ≤ 2 * (v.index.size * (v.traffic + 2)) := by omega

/-- A walk in code with stack heights never uses up its bound. -/
theorem tasks_lt_walkBound (v : CodeView) (depth : Nat) :
    2 * (v.index.size * (v.traffic + 2)) < 2 * v.walkBound depth := by
  have hTwice : v.index.size * (v.traffic + 2) ≤
      (v.index.size + v.index.edgeCount + 1) *
        ((v.index.size + v.index.edgeCount + 1) * (v.traffic + 1)) := by
    rcases Nat.eq_zero_or_pos v.index.size with hNone | hSome
    · simp [hNone]
    · have hInner : 2 * (v.traffic + 1) ≤
          (v.index.size + v.index.edgeCount + 1) * (v.traffic + 1) :=
        Nat.mul_le_mul_right _ (by omega)
      exact Nat.mul_le_mul (by omega) (by omega)
  have hBound : (v.index.size + v.index.edgeCount + 1) *
      ((v.index.size + v.index.edgeCount + 1) * (v.traffic + 1)) < v.walkBound depth :=
    Nat.mul_lt_mul_of_pos_left (by omega) (Nat.succ_pos _)
  omega

end Succeeding

section Keeping

variable {α β : Type} {l : List α} {step : α → Walk β} {Holds : α → β → Prop}

/-- What holds of each answer holds of all of them, as long as what is kept stays right
from one question to the next. -/
theorem Recalls.mapM_ok (hStep : ∀ a ∈ l, ∀ memo b memo', v.Recalls memo →
      step a memo = .ok (b, memo') → v.Recalls memo' ∧ Holds a b)
    (hMemo : v.Recalls memo) {answers : List β} (h : l.mapM step memo = .ok (answers, memo')) :
    v.Recalls memo' ∧ List.Forall₂ Holds l answers := by
  induction l generalizing memo answers memo' with
  | nil =>
      rw [List.mapM_nil] at h
      obtain ⟨rfl, rfl⟩ := Walk.pure_ok.mp h
      exact ⟨hMemo, .nil⟩
  | cons a l ih =>
      obtain ⟨hFirst, hRest⟩ := List.forall_mem_cons.mp hStep
      rw [List.mapM_cons] at h
      obtain ⟨b, memo₁, hRun, h⟩ := Walk.bind_ok.mp h
      obtain ⟨bs, memo₂, hRuns, h⟩ := Walk.bind_ok.mp h
      obtain ⟨rfl, rfl⟩ := Walk.pure_ok.mp h
      obtain ⟨hMemo₁, hHolds⟩ := hFirst memo b memo₁ hMemo hRun
      obtain ⟨hMemo', hAll⟩ := ih hRest hMemo₁ hRuns
      exact ⟨hMemo', .cons hHolds hAll⟩

theorem Recalls.mapM_succeeds (hStep : ∀ a ∈ l, ∀ memo, v.Recalls memo →
      ∃ b memo', step a memo = .ok (b, memo') ∧ v.Recalls memo' ∧ Holds a b)
    (hMemo : v.Recalls memo) : ∃ answers memo', l.mapM step memo = .ok (answers, memo') ∧
      v.Recalls memo' ∧ List.Forall₂ Holds l answers := by
  induction l generalizing memo with
  | nil => exact ⟨[], memo, rfl, hMemo, .nil⟩
  | cons a l ih =>
      obtain ⟨hFirst, hRest⟩ := List.forall_mem_cons.mp hStep
      obtain ⟨b, memo₁, hRun, hMemo₁, hHolds⟩ := hFirst memo hMemo
      obtain ⟨bs, memo', hRuns, hMemo', hAll⟩ := ih hRest hMemo₁
      refine ⟨b :: bs, memo', ?_, hMemo', .cons hHolds hAll⟩
      rw [List.mapM_cons, Walk.bind_of_ok hRun, Walk.bind_of_ok hRuns]
      rfl

end Keeping

section Answering

/-- The paths that answer a question about a value are derived, and all are among them
that are derived without carrying out a task twice. -/
structure Answers (v : CodeView) (id : InstrId) (depth : Nat) (paths : List Path) : Prop where
  derived : ∀ path ∈ paths, ∃ trail, v.Derives id (depth, .beneath) trail path
  complete : ∀ trail path, v.Derives id (depth, .beneath) trail path → trail.Nodup → path ∈ paths

/-- The paths of a value are found from what is kept. -/
theorem valuePaths_answers {depth : Nat} {paths : List Path} (hMemo : v.Recalls memo)
    (h : v.valuePaths id depth memo = .ok (paths, memo')) :
    v.Recalls memo' ∧ v.Answers id depth paths := by
  unfold valuePaths at h
  rw [bind_pure_comp, Walk.map_ok] at h
  obtain ⟨found, hRun, rfl⟩ := h
  have hLook : v.look (v.carryOut (2 * v.walkBound depth) []) id (depth, .beneath) memo =
      .ok (found, memo') := hRun
  obtain ⟨hMemo', hFinds⟩ := look_finds (carryOut_finds _) hMemo hLook
  refine ⟨hMemo', hFinds.derived, fun trail path hDerives hNodup => ?_⟩
  refine hFinds.complete trail path hDerives hNodup fun task _ hBarred => ?_
  obtain ⟨level, hLevel, -⟩ := hBarred
  cases hLevel

/-- The paths of a value that is there are found, whatever is kept. -/
theorem valuePaths_succeeds (hTrace : v.Retraceable v.Reachable height) (hReach : v.Reachable id)
    {depth : Nat} (hDepth : depth < height id) (memo : WalkMemo) :
    ∃ paths memo', v.valuePaths id depth memo = .ok (paths, memo') := by
  have hEnter : v.Proceeds height (v.carryOut (2 * v.walkBound depth) []) :=
    carryOut_succeeds hTrace (fun _ => length_tasks_le hTrace.toHasHeightsOn) List.nodup_nil
      (fun _ h => (List.not_mem_nil h).elim) (v.tasks_lt_walkBound depth)
  obtain ⟨found, memo', hLook⟩ :=
    look_succeeds hTrace hEnter hReach (depth, .beneath) hDepth memo
  exact ⟨found.paths, memo', Walk.bind_of_ok hLook⟩

/-- The sources of the paths are those of all derivations. -/
theorem Answers.mem_sources {depth : Nat} {paths : List Path} (h : v.Answers id depth paths)
    {o : Origin} : some o ∈ paths.map Path.source? ↔
      ∃ trail path, v.Derives id (depth, .beneath) trail path ∧ path.source? = some o := by
  rw [List.mem_map]
  constructor
  · rintro ⟨path, hPath, hSource⟩
    obtain ⟨trail, hDerives⟩ := h.derived path hPath
    exact ⟨trail, path, hDerives, hSource⟩
  · rintro ⟨trail, path, hDerives, hSource⟩
    obtain ⟨trail', path', hDerives', hNodup, -, -, hSame⟩ := hDerives.exists_simple
    exact ⟨path', h.complete _ _ hDerives' hNodup, (hSame rfl).trans hSource⟩

/-- Where handlers are only entered from outside, the sources of the paths are what the
value is traced to. -/
theorem Answers.mem_sources_iff (hTrace : v.Traceable height) (hReach : v.Reachable id)
    {depth : Nat} (hDepth : depth < height id) {paths : List Path} (h : v.Answers id depth paths)
    {o : Origin} : some o ∈ paths.map Path.source? ↔ v.Traces o id depth := by
  rw [h.mem_sources]
  constructor
  · rintro ⟨trail, path, hDerives, hSource⟩
    obtain ⟨o', hSource', hTraces⟩ := hDerives.traces rfl
    obtain rfl := Option.some_inj.mp (hSource.symm.trans hSource')
    exact hTraces
  · exact fun hTraces =>
      hTraces.derives (hTrace.retraceable hTrace.reachable) hTrace.isolated hReach hDepth

/-- The paths of a value end in exactly what can have pushed it. -/
theorem valuePaths_ok (hTrace : v.Traceable height) {id : InstrId} (hMem : id ∈ v.index.order)
    {depth : Nat} (hDepth : depth < height id) {memo : WalkMemo} (hMemo : v.Recalls memo) :
    ∃ paths memo', v.valuePaths id depth memo = .ok (paths, memo') ∧ v.Recalls memo' ∧
      ∀ source, source ∈ paths.map Path.source? ↔ ∃ o, source = some o ∧ v.Traces o id depth := by
  have hReach := hTrace.reachable id hMem
  obtain ⟨paths, memo', hRun⟩ :=
    valuePaths_succeeds (hTrace.retraceable hTrace.reachable) hReach hDepth memo
  obtain ⟨hMemo', hAnswers⟩ := valuePaths_answers hMemo hRun
  refine ⟨paths, memo', hRun, hMemo', fun source => ⟨fun hSource => ?_, ?_⟩⟩
  · obtain ⟨path, hPath, rfl⟩ := List.mem_map.mp hSource
    obtain ⟨trail, hDerives⟩ := hAnswers.derived path hPath
    exact hDerives.traces rfl
  · rintro ⟨o, rfl, hTraces⟩
    exact (hAnswers.mem_sources_iff hTrace hReach hDepth).mpr hTraces

end Answering

end CodeView

/-- What is kept of a method's code, if it is still made use of, was made from that
code. -/
def FlowCache.Describes (cache : FlowCache) (method : MethodId) (b : MethodBody) : Prop :=
  ∀ index, cache.current? method b = some index → index = FlowIndex.build b

theorem FlowCache.Describes.empty (method : MethodId) (b : MethodBody) :
    FlowCache.empty.Describes method b := by
  intro index h
  cases h

/-- The index that is used of a method's code is the current one, and it is kept. -/
theorem FlowCache.Describes.index {cache : FlowCache} {method : MethodId} {b : MethodBody}
    (h : cache.Describes method b) :
    (cache.index method b).1 = FlowIndex.build b ∧ (cache.index method b).2.Describes method b := by
  unfold FlowCache.index
  split
  · rename_i index hCurrent
    exact ⟨h index hCurrent, h⟩
  · refine ⟨rfl, fun index hCurrent => ?_⟩
    unfold FlowCache.current? at hCurrent
    rw [Table.get?_insert, if_pos rfl] at hCurrent
    exact (Option.some_inj.mp (Option.filter_eq_some_iff.mp hCurrent).1).symm

namespace Query

variable {p : Program} {method : MethodId} {b : MethodBody} {cache : FlowCache}
  {height : InstrId → Nat}

theorem body_ok {cache' : FlowCache} :
    body p method cache = .ok b cache' ↔ p.body method = .ok b ∧ cache = cache' := by
  unfold body
  cases p.body method with
  | ok b' => exact Step.pure_ok.trans (by simp)
  | error e => exact Step.throw_ok.trans (by simp)

theorem view_ok {cache' : FlowCache} {v : CodeView} :
    view p method cache = .ok v cache' ↔ ∃ b, p.body method = .ok b ∧
      v = ⟨p, method, b, (cache.index method b).1⟩ ∧ cache' = (cache.index method b).2 := by
  unfold view
  simp only [Step.bind_ok, body_ok, Step.modifyGet_ok, Step.pure_ok]
  constructor
  · rintro ⟨b, _, ⟨hBody, rfl⟩, index, _, hIndex, rfl, rfl⟩
    exact ⟨b, hBody, by rw [hIndex], by rw [hIndex]⟩
  · rintro ⟨b, hBody, rfl, rfl⟩
    exact ⟨b, cache, ⟨hBody, rfl⟩, _, _, rfl, rfl, rfl⟩

/-- A question about a method's code is answered from its current index. -/
theorem ask_ok {α : Type} (question : CodeView → Except AnalysisError α) {answer : α}
    (hBody : p.body method = .ok b) (hCache : cache.Describes method b)
    (h : question (.ofBody p method b) = .ok answer) :
    ∃ cache', Query.ask p method question cache = .ok answer cache' := by
  refine ⟨_, Step.bind_ok.mpr ⟨_, _, view_ok.mpr ⟨b, hBody, rfl, rfl⟩, Step.lift_ok.mpr ⟨?_, rfl⟩⟩⟩
  rwa [hCache.index.1]

theorem of_ask_ok {α : Type} {question : CodeView → Except AnalysisError α} {answer : α}
    {cache' : FlowCache} (hBody : p.body method = .ok b) (hCache : cache.Describes method b)
    (h : Query.ask p method question cache = .ok answer cache') :
    question (.ofBody p method b) = .ok answer := by
  obtain ⟨v, _, hView, hAnswer⟩ := Step.bind_ok.mp h
  obtain ⟨b', hBody', rfl, -⟩ := view_ok.mp hView
  obtain rfl : b = b' := Except.ok.inj (hBody.symm.trans hBody')
  rw [hCache.index.1] at hAnswer
  exact (Step.lift_ok.mp hAnswer).1

/-- In code with stack heights the provenance of a value is found for every depth
below the height, and its paths end in exactly the instructions and handler entries
whose value some walk brings to that depth. -/
theorem stackValue_sources (hBody : p.body method = .ok b) (hCache : cache.Describes method b)
    (hTrace : (CodeView.ofBody p method b).Traceable height) {id : InstrId}
    (hMem : id ∈ b.instructions.map (·.id)) {depth : Nat} (hDepth : depth < height id) :
    ∃ paths cache', stackValue p method id depth cache = .ok paths cache' ∧
      ∀ source, source ∈ paths.map Path.source? ↔ ∃ o stack, source = some o ∧
        (CodeView.ofBody p method b).Arrives id stack ∧ stack[depth]? = some o := by
  obtain ⟨paths, memo, hRun, -, hSources⟩ :=
    CodeView.valuePaths_ok hTrace hMem hDepth CodeView.Recalls.nil
  have hValue : (CodeView.ofBody p method b).stackValue id depth = .ok paths :=
    Walk.run'_of_ok hRun
  obtain ⟨cache', hAsk⟩ := ask_ok (fun v => v.stackValue id depth) hBody hCache hValue
  refine ⟨paths, cache', hAsk, fun source => (hSources source).trans ?_⟩
  simp only [hTrace.traces_iff hTrace.reachable, exists_and_left]

end Query

/-- A loop that duplicates a value, entered with either of two values. -/
def loopedValue : MethodBody :=
  .ofParts [⟨⟨0⟩, .ldarg, .arg 0⟩, ⟨⟨1⟩, .brtrue, .target ⟨4⟩⟩, ⟨⟨2⟩, .ldnull, .none⟩,
    ⟨⟨3⟩, .br, .target ⟨5⟩⟩, ⟨⟨4⟩, .ldstr, .text "a"⟩, ⟨⟨5⟩, .dup, .none⟩,
    ⟨⟨6⟩, .brtrue, .target ⟨5⟩⟩, ⟨⟨7⟩, .pop, .none⟩, ⟨⟨8⟩, .ret, .none⟩] [] []

/-- The stack heights of the loop. -/
def loopedHeight (id : InstrId) : Nat := [0, 1, 0, 1, 0, 1, 2, 1, 0].getD id.index 0

/-- A program with the loop as the code of its only method. -/
def loopedProgram : Program :=
  { Program.empty with
    methods := [⟨⟨0⟩, "Loop", [⟨"flag", .bool⟩], .void, .ofList [.static], [], some loopedValue⟩] }

theorem loopedValue_traceable :
    (CodeView.ofBody loopedProgram ⟨0⟩ loopedValue).Traceable loopedHeight :=
  CodeView.traceable_of_isTraceable rfl (by decide)

/-- Each of the two values can be at the start of the loop, and so can the one that
the loop puts there again. -/
theorem loopedValue_sources :
    ∃ paths cache', Query.stackValue loopedProgram ⟨0⟩ ⟨5⟩ 0 .empty = .ok paths cache' ∧
      ∀ source, source ∈ paths.map Path.source? ↔ ∃ o stack, source = some o ∧
        (CodeView.ofBody loopedProgram ⟨0⟩ loopedValue).Arrives ⟨5⟩ stack ∧ stack[0]? = some o := by
  exact Query.stackValue_sources rfl (.empty _ _) loopedValue_traceable (by decide) (by decide)

end ContextBinding
