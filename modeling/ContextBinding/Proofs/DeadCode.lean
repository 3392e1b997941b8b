import ContextBinding.Proofs.Operands

/-! What dead code does to the paths of a value. A walk goes back over every edge into an
 instruction, whether or not control can ever take it. Control cannot come from live code
 into dead code, so that a walk that has entered dead code stays there, and what it finds
 there shows an instruction that is dead. The rest of what it finds is what there is
 without the edges of dead code. -/

namespace ContextBinding

open Relation

/-- Whether the instructions of a path are all kept. -/
def Path.isWithin (keep : InstrId → Bool) (path : Path) : Bool := path.instrs.all keep

/-- What was found on kept instructions alone. -/
def Walked.within (keep : InstrId → Bool) (found : Walked) : Walked :=
  ⟨found.paths.filter (Path.isWithin keep), found.cut⟩

/-- What is kept of tasks at kept instructions. -/
def WalkMemo.trim (keep : InstrId → Bool) (memo : WalkMemo) : WalkMemo :=
  (memo.filter fun entry => keep entry.1.instr).map fun entry =>
    (entry.1, entry.2.filter (Path.isWithin keep))

theorem Walked.le_outermost {a b : Option Nat} {level : Nat}
    (ha : ∀ cut, a = some cut → level ≤ cut) (hb : ∀ cut, b = some cut → level ≤ cut) :
    ∀ cut, Walked.outermost a b = some cut → level ≤ cut := by
  cases a <;> cases b <;> simp_all [Walked.outermost]

theorem Walked.merge_none (a : Walked) : a.merge .none = a := by
  obtain ⟨paths, cut⟩ := a
  cases cut <;> rfl

namespace FlowIndex

theorem filter_insertNew {α : Type} [DecidableEq α] (p : α → Bool) (l : List α) (a : α) :
    (insertNew l a).filter p = if p a then insertNew (l.filter p) a else l.filter p := by
  unfold insertNew
  by_cases hKept : p a = true
  · rw [if_pos hKept]
    by_cases hMem : a ∈ l
    · rw [if_pos hMem, if_pos (List.mem_filter.mpr ⟨hMem, hKept⟩)]
    · rw [if_neg hMem, if_neg fun h => hMem (List.mem_filter.mp h).1]
      simp [hKept]
  · rw [if_neg hKept]
    split
    · rfl
    · simp [hKept]

theorem filter_foldl_insertNew {α : Type} [DecidableEq α] (p : α → Bool) (l acc : List α) :
    (l.foldl insertNew acc).filter p = (l.filter p).foldl insertNew (acc.filter p) := by
  induction l generalizing acc with
  | nil => rfl
  | cons a l ih =>
      rw [List.foldl_cons, ih, filter_insertNew]
      by_cases hKept : p a = true
      · rw [if_pos hKept, List.filter_cons_of_pos hKept, List.foldl_cons]
      · rw [if_neg hKept, List.filter_cons_of_neg hKept]

end FlowIndex

namespace CodeView

variable {v : CodeView} {keep : InstrId → Bool} {height : InstrId → Nat} {id : InstrId}

/-- The view with only the edges that start at kept instructions. -/
def prune (v : CodeView) (keep : InstrId → Bool) : CodeView :=
  { v with index :=
    { v.index with
      steps := v.index.steps.filter fun edge => keep edge.1
      jumps := v.index.jumps.filter fun edge => keep edge.1 } }

theorem prune_predecessors (id : InstrId) :
    (v.prune keep).index.predecessors id = (v.index.predecessors id).filter keep := by
  have hEdges (edges : List (InstrId × InstrId)) :
      ((edges.filter fun edge => keep edge.1).filter fun edge => edge.2 == id).map (·.1) =
        ((edges.filter fun edge => edge.2 == id).map (·.1)).filter keep := by
    rw [List.filter_map, List.filter_filter, List.filter_filter]
    congr 1
    exact List.filter_congr fun edge _ => Bool.and_comm ..
  unfold FlowIndex.predecessors
  rw [FlowIndex.filter_foldl_insertNew, ← hEdges, ← hEdges]
  rfl

theorem mem_prune_successors {a b : InstrId} : b ∈ (v.prune keep).index.successors a ↔
    keep a = true ∧ b ∈ v.index.successors a := by
  rw [← FlowIndex.mem_predecessors, prune_predecessors, List.mem_filter,
    FlowIndex.mem_predecessors, and_comm]

/-- Control stays at kept instructions, and handlers start at them. -/
structure Retains (v : CodeView) (keep : InstrId → Bool) : Prop where
  handler : ∀ id entry, v.index.handlerEntry? id = some entry → keep id = true
  next : ∀ a b, b ∈ v.index.successors a → keep a = true → keep b = true

/-- Only dead code leads into dead code. -/
theorem Retains.dead_of_predecessor (h : v.Retains keep) {prior : InstrId}
    (hPrior : prior ∈ v.index.predecessors id) (hDead : keep id = false) : keep prior = false := by
  by_contra hKept
  have hNext := h.next _ _ (FlowIndex.mem_predecessors.mp hPrior) (by simpa using hKept)
  simp [hNext] at hDead

section Trim

variable {task : WalkTask} {memo : WalkMemo}

theorem trim_cons_of_kept (hKept : keep task.instr = true) (paths : List Path) :
    WalkMemo.trim keep ((task, paths) :: memo) =
      (task, paths.filter (Path.isWithin keep)) :: WalkMemo.trim keep memo := by
  simp [WalkMemo.trim, hKept]

theorem trim_cons_of_dead (hDead : keep task.instr = false) (paths : List Path) :
    WalkMemo.trim keep ((task, paths) :: memo) = WalkMemo.trim keep memo := by
  simp [WalkMemo.trim, hDead]

theorem lookup_trim (hKept : keep task.instr = true) :
    (WalkMemo.trim keep memo).lookup task =
      (memo.lookup task).map (·.filter (Path.isWithin keep)) := by
  induction memo with
  | nil => rfl
  | cons entry memo ih =>
      obtain ⟨other, paths⟩ := entry
      by_cases hOther : keep other.instr = true
      · rw [trim_cons_of_kept hOther, List.lookup_cons, List.lookup_cons]
        split
        · rfl
        · exact ih
      · rw [trim_cons_of_dead (by simpa using hOther), List.lookup_cons, ih]
        have hDifferent : (task == other) = false := by
          refine beq_false_of_ne ?_
          rintro rfl
          exact hOther hKept
        rw [hDifferent]

end Trim

section Dead

variable {sought : Nat × WalkAim} {trail : List WalkTask} {path : Path} {task : WalkTask}
  {enter : WalkTask → Walk Walked} {level : Nat} {memo memo' : WalkMemo} {found : Walked}

/-- What comes about in dead code shows a dead instruction. -/
theorem Derives.not_isWithin (h : v.Derives id sought trail path) (hRetains : v.Retains keep)
    (hDead : keep id = false) (hSome : 0 < sought.2.need sought.1) :
    path.isWithin keep = false := by
  induction h with
  | nothing => exact (Nat.lt_irrefl 0 hSome).elim
  | caught hEntry => simp [hRetains.handler _ _ hEntry] at hDead
  | @pass id task effect trail path _ _ hPrior _ _ _ ih =>
      have hBack := hRetains.dead_of_predecessor hPrior hDead
      rcases task.passed_cases effect with ⟨-, exact, hExtend⟩ | ⟨hJoins, hSame⟩
      · simp [hExtend, Path.isWithin, Path.extend, hBack]
      · rw [hSame]
        exact ih hBack (WalkTask.need_ahead_pos hSome hJoins)

theorem Carries.not_isWithin (h : v.Carries task trail path) (hRetains : v.Retains keep)
    (hDead : keep task.instr = false) (hSome : 0 < task.aim.need task.owed) :
    path.isWithin keep = false := by
  obtain ⟨effect, ahead, -, -, hDerives, rfl⟩ := h
  rcases task.passed_cases effect with ⟨-, exact, hExtend⟩ | ⟨hJoins, hSame⟩
  · simp [hExtend, Path.isWithin, Path.extend, hDead]
  · rw [hSame]
    exact hDerives.not_isWithin hRetains hDead (WalkTask.need_ahead_pos hSome hJoins)

/-- Tasks at dead instructions do not come back to the first tasks that wait, and nothing
is kept of them at kept instructions. -/
def Apart (keep : InstrId → Bool) (level : Nat) (enter : WalkTask → Walk Walked) : Prop :=
  ∀ task memo found memo', keep task.instr = false → enter task memo = .ok (found, memo') →
    (∀ cut, found.cut = some cut → level ≤ cut) ∧ WalkMemo.trim keep memo' = WalkMemo.trim keep memo

theorem Apart.gather (hEnter : Apart keep level enter) {owed : Nat} {aim : WalkAim}
    {ids : List InstrId} (hDead : ∀ id ∈ ids, keep id = false) {acc : Walked}
    (hAcc : ∀ cut, acc.cut = some cut → level ≤ cut)
    (h : (ids.foldlM (fun found id => do
      pure (found.merge (← enter ⟨id, owed, aim⟩))) acc : Walk Walked) memo = .ok (found, memo')) :
    (∀ cut, found.cut = some cut → level ≤ cut) ∧
      WalkMemo.trim keep memo' = WalkMemo.trim keep memo := by
  induction ids generalizing acc memo with
  | nil =>
      obtain ⟨rfl, rfl⟩ := Walk.pure_ok.mp h
      exact ⟨hAcc, rfl⟩
  | cons id ids ih =>
      obtain ⟨hFirst, hRest⟩ := List.forall_mem_cons.mp hDead
      rw [List.foldlM_cons] at h
      obtain ⟨acc', memo₁, hStep, hRuns⟩ := Walk.bind_ok.mp h
      obtain ⟨first, memo₂, hRun, hMerge⟩ := Walk.bind_ok.mp hStep
      obtain ⟨rfl, rfl⟩ := Walk.pure_ok.mp hMerge
      obtain ⟨hCut, hTrim⟩ := hEnter _ _ _ _ hFirst hRun
      obtain ⟨hCut', hTrim'⟩ := ih hRest (Walked.le_outermost hAcc hCut) hRuns
      exact ⟨hCut', hTrim'.trans hTrim⟩

theorem Apart.lookBack (hEnter : Apart keep level enter) (hRetains : v.Retains keep)
    (hDead : keep id = false) {owed last : Nat} {aim : WalkAim}
    (h : v.lookBack enter id owed aim last memo = .ok (found, memo')) :
    (∀ cut, found.cut = some cut → level ≤ cut) ∧
      WalkMemo.trim keep memo' = WalkMemo.trim keep memo := by
  rcases lookBack_ok h with ⟨type, hEntry, -⟩ | ⟨-, hGather⟩
  · simp [hRetains.handler _ _ hEntry] at hDead
  · have hNone : ∀ cut, Walked.none.cut = some cut → level ≤ cut := fun _ h => nomatch h
    exact hEnter.gather (fun _ hPrior => hRetains.dead_of_predecessor hPrior hDead) hNone hGather

theorem Apart.look (hEnter : Apart keep level enter) (hRetains : v.Retains keep)
    (hDead : keep id = false) (h : v.look enter id sought memo = .ok (found, memo')) :
    (∀ cut, found.cut = some cut → level ≤ cut) ∧
      WalkMemo.trim keep memo' = WalkMemo.trim keep memo := by
  obtain ⟨owed, aim⟩ := sought
  cases aim with
  | beneath => exact hEnter.lookBack hRetains hDead h
  | supply =>
      change v.suppliersVia enter id owed memo = _ at h
      unfold suppliersVia at h
      split at h
      · obtain ⟨rfl, rfl⟩ := Walk.pure_ok.mp h
        exact ⟨fun _ h => (nomatch h), rfl⟩
      · exact hEnter.lookBack hRetains hDead h

theorem le_levelOf?_append {dead live : List WalkTask}
    (hLive : ∀ other ∈ live, keep other.instr = true) (hDead : keep task.instr = false)
    (h : levelOf? task (dead ++ live) = some level) : live.length ≤ level := by
  induction dead with
  | nil => simp [hLive task (mem_of_levelOf? h)] at hDead
  | cons other dead ih =>
      rw [List.cons_append, levelOf?_cons] at h
      split at h
      · obtain rfl := Option.some_inj.mp h
        simp
      · exact ih h

/-- The walk through dead code keeps to itself. -/
theorem carryOut_apart (hRetains : v.Retains keep) (fuel : Nat) {dead live : List WalkTask}
    (hLive : ∀ other ∈ live, keep other.instr = true) :
    Apart keep live.length (v.carryOut fuel (dead ++ live)) := by
  induction fuel generalizing dead with
  | zero => exact fun task memo found memo' _ h => (Walk.throw_ok.mp h).elim
  | succ fuel ih =>
      intro task memo found memo' hDead h
      rw [carryOut_succ] at h
      split at h
      · obtain ⟨rfl, rfl⟩ := Prod.mk.inj (Except.ok.inj h)
        exact ⟨fun _ h => (nomatch h), rfl⟩
      · split at h
        · rename_i level hLevel
          obtain ⟨rfl, rfl⟩ := Prod.mk.inj (Except.ok.inj h)
          refine ⟨fun cut hCut => ?_, rfl⟩
          obtain rfl := Option.some_inj.mp hCut
          exact le_levelOf?_append hLive hDead hLevel
        · split at h
          · rename_i behind memo₁ hRun
            obtain ⟨effect, ahead, -, -, hLook, rfl⟩ := passVia_ok.mp hRun
            rw [← List.cons_append] at hLook
            obtain ⟨hCut, hTrim⟩ := ih.look hRetains hDead hLook
            split at h
            · obtain ⟨rfl, rfl⟩ := Prod.mk.inj (Except.ok.inj h)
              exact ⟨hCut, hTrim⟩
            · obtain ⟨rfl, rfl⟩ := Prod.mk.inj (Except.ok.inj h)
              exact ⟨fun _ h => (nomatch h), (trim_cons_of_dead hDead _).trans hTrim⟩
          · cases h

end Dead

section Live

variable {sought : Nat × WalkAim} {task : WalkTask} {enter enter' : WalkTask → Walk Walked}
  {underWay : List WalkTask} {memo memo' memo'' : WalkMemo} {found found' : Walked}

/-- Passing a kept instruction makes a path leave the kept ones no more than it did. -/
theorem isWithin_passed (hKept : keep task.instr = true) (effect : StackEffect) (path : Path) :
    (task.passed effect path).isWithin keep = path.isWithin keep := by
  rcases task.passed_cases effect with ⟨-, exact, hExtend⟩ | ⟨-, hSame⟩
  · simp [hExtend, Path.isWithin, Path.extend, hKept]
  · rw [hSame]

theorem within_merge (a b : Walked) : (a.merge b).within keep =
    (a.within keep).merge (b.within keep) := by
  unfold Walked.within Walked.merge
  rw [FlowIndex.filter_foldl_insertNew]

/-- What a task finds on kept instructions is what it finds without the other edges. -/
def Mirrors (v : CodeView) (keep : InstrId → Bool) (enter enter' : WalkTask → Walk Walked) : Prop :=
  ∀ task memo found memo' found' memo'', keep task.instr = true → v.Recalls memo →
    enter task memo = .ok (found, memo') →
    enter' task (WalkMemo.trim keep memo) = .ok (found', memo'') →
    found' = found.within keep ∧ memo'' = WalkMemo.trim keep memo'

/-- What dead code finds leaves no trace on kept instructions. -/
def Vanishes (v : CodeView) (keep : InstrId → Bool) (enter : WalkTask → Walk Walked) : Prop :=
  ∀ task memo found memo', keep task.instr = false → 0 < task.aim.need task.owed →
    v.Recalls memo → enter task memo = .ok (found, memo') →
    found.within keep = Walked.none ∧ WalkMemo.trim keep memo' = WalkMemo.trim keep memo

theorem gather_mirrors (hFinds : v.CarriesOut underWay enter)
    (hMirrors : v.Mirrors keep enter enter') (hVanishes : v.Vanishes keep enter) {owed : Nat}
    {aim : WalkAim} (hSome : 0 < aim.need owed) {ids : List InstrId} {acc : Walked}
    (hMemo : v.Recalls memo)
    (h : (ids.foldlM (fun found id => do
      pure (found.merge (← enter ⟨id, owed, aim⟩))) acc : Walk Walked) memo = .ok (found, memo'))
    (h' : ((ids.filter keep).foldlM (fun found id => do
      pure (found.merge (← enter' ⟨id, owed, aim⟩))) (acc.within keep) : Walk Walked)
        (WalkMemo.trim keep memo) = .ok (found', memo'')) :
    found' = found.within keep ∧ memo'' = WalkMemo.trim keep memo' := by
  induction ids generalizing acc memo with
  | nil =>
      obtain ⟨rfl, rfl⟩ := Walk.pure_ok.mp h
      obtain ⟨rfl, rfl⟩ := Walk.pure_ok.mp h'
      exact ⟨rfl, rfl⟩
  | cons id ids ih =>
      rw [List.foldlM_cons] at h
      obtain ⟨acc', memo₁, hStep, hRuns⟩ := Walk.bind_ok.mp h
      obtain ⟨first, memo₂, hRun, hMerge⟩ := Walk.bind_ok.mp hStep
      obtain ⟨rfl, rfl⟩ := Walk.pure_ok.mp hMerge
      obtain ⟨hMemo₁, -⟩ := hFinds _ _ _ _ hMemo hRun
      by_cases hKept : keep id = true
      · rw [List.filter_cons_of_pos hKept, List.foldlM_cons] at h'
        obtain ⟨acc'', memo₃, hStep', hRuns'⟩ := Walk.bind_ok.mp h'
        obtain ⟨first', memo₄, hRun', hMerge'⟩ := Walk.bind_ok.mp hStep'
        obtain ⟨rfl, rfl⟩ := Walk.pure_ok.mp hMerge'
        obtain ⟨rfl, rfl⟩ := hMirrors _ _ _ _ _ _ hKept hMemo hRun hRun'
        rw [← within_merge] at hRuns'
        exact ih hMemo₁ hRuns hRuns'
      · obtain ⟨hNone, hTrim⟩ := hVanishes _ _ _ _ (by simpa using hKept) hSome hMemo hRun
        rw [List.filter_cons_of_neg hKept, ← hTrim] at h'
        refine ih hMemo₁ hRuns ?_
        rw [within_merge, hNone, Walked.merge_none]
        exact h'

theorem lookBack_mirrors (hFinds : v.CarriesOut underWay enter)
    (hMirrors : v.Mirrors keep enter enter') (hVanishes : v.Vanishes keep enter) {owed last : Nat}
    {aim : WalkAim} (hSome : 0 < aim.need owed) (hMemo : v.Recalls memo)
    (h : v.lookBack enter id owed aim last memo = .ok (found, memo'))
    (h' : (v.prune keep).lookBack enter' id owed aim last (WalkMemo.trim keep memo) =
      .ok (found', memo'')) :
    found' = found.within keep ∧ memo'' = WalkMemo.trim keep memo' := by
  rcases lookBack_ok h with ⟨type, hEntry, -, rfl, rfl⟩ | ⟨hEntry, hGather⟩
  · rcases lookBack_ok h' with ⟨-, -, -, rfl, rfl⟩ | ⟨hEntry', -⟩
    · exact ⟨rfl, rfl⟩
    · cases hEntry'.symm.trans hEntry
  · rcases lookBack_ok h' with ⟨type, hEntry', -⟩ | ⟨-, hGather'⟩
    · cases hEntry'.symm.trans hEntry
    · rw [prune_predecessors] at hGather'
      exact gather_mirrors hFinds hMirrors hVanishes hSome hMemo hGather hGather'

theorem look_mirrors (hFinds : v.CarriesOut underWay enter) (hMirrors : v.Mirrors keep enter enter')
    (hVanishes : v.Vanishes keep enter) (hMemo : v.Recalls memo)
    (h : v.look enter id sought memo = .ok (found, memo'))
    (h' : (v.prune keep).look enter' id sought (WalkMemo.trim keep memo) = .ok (found', memo'')) :
    found' = found.within keep ∧ memo'' = WalkMemo.trim keep memo' := by
  obtain ⟨owed, aim⟩ := sought
  cases aim with
  | beneath =>
      have hSome : 0 < WalkAim.beneath.need owed := Nat.succ_pos owed
      exact lookBack_mirrors hFinds hMirrors hVanishes hSome hMemo h h'
  | supply =>
      change v.suppliersVia enter id owed memo = _ at h
      change (v.prune keep).suppliersVia enter' id owed _ = _ at h'
      unfold suppliersVia at h h'
      split at h
      · rename_i hNone
        rw [if_pos hNone] at h'
        obtain ⟨rfl, rfl⟩ := Walk.pure_ok.mp h
        obtain ⟨rfl, rfl⟩ := Walk.pure_ok.mp h'
        exact ⟨rfl, rfl⟩
      · rename_i hSome
        rw [if_neg hSome] at h'
        have hSome : 0 < WalkAim.supply.need owed := Nat.pos_of_ne_zero hSome
        exact lookBack_mirrors hFinds hMirrors hVanishes hSome hMemo h h'

/-- Dead code ahead of kept instructions is walked into, and what it finds leaves no trace:
its paths show dead instructions, and it comes back to no task that waits. -/
theorem carryOut_vanishes (hRetains : v.Retains keep) (fuel : Nat)
    (hKept : ∀ other ∈ underWay, keep other.instr = true) :
    v.Vanishes keep (v.carryOut fuel underWay) := by
  intro task memo found memo' hDead hSome hMemo h
  have hApart : Apart keep underWay.length (v.carryOut fuel ([] ++ underWay)) :=
    carryOut_apart hRetains fuel hKept
  obtain ⟨hCut, hTrim⟩ := hApart task memo found memo' hDead h
  obtain ⟨-, hFound⟩ := carryOut_finds fuel task memo found memo' hMemo h
  refine ⟨?_, hTrim⟩
  have hPaths : found.paths.filter (Path.isWithin keep) = [] := by
    refine List.filter_eq_nil_iff.mpr fun path hPath => ?_
    obtain ⟨trail, hCarries⟩ := hFound.derived path hPath
    simp [hCarries.not_isWithin hRetains hDead hSome]
  have hNone : found.cut = none := by
    cases hFoundCut : found.cut with
    | none => rfl
    | some cut =>
        have hBelow := carryOut_cut_lt h cut hFoundCut
        have hAbove := hCut cut hFoundCut
        omega
  exact congrArg₂ Walked.mk hPaths hNone

/-- Passing a kept instruction finds the same without the other edges. -/
theorem passVia_mirrors (hFinds : v.CarriesOut underWay enter)
    (hMirrors : v.Mirrors keep enter enter') (hVanishes : v.Vanishes keep enter)
    (hTask : keep task.instr = true) (hMemo : v.Recalls memo)
    (h : v.passVia enter task memo = .ok (found, memo'))
    (h' : (v.prune keep).passVia enter' task (WalkMemo.trim keep memo) = .ok (found', memo'')) :
    found' = found.within keep ∧ memo'' = WalkMemo.trim keep memo' := by
  obtain ⟨effect, ahead, hEffect, -, hLook, rfl⟩ := passVia_ok.mp h
  obtain ⟨effect', ahead', hEffect', -, hLook', rfl⟩ := passVia_ok.mp h'
  obtain rfl : effect = effect' := Except.ok.inj (hEffect.symm.trans hEffect')
  obtain ⟨rfl, rfl⟩ := look_mirrors hFinds hMirrors hVanishes hMemo hLook hLook'
  refine ⟨congrArg₂ Walked.mk ?_ rfl, rfl⟩
  rw [List.filter_map]
  refine congrArg (List.map _) (List.filter_congr fun path _ => ?_)
  exact (isWithin_passed hTask effect path).symm

/-- The walk on kept instructions takes the same course without the other edges. -/
theorem carryOut_mirrors (hRetains : v.Retains keep) (fuel fuel' : Nat)
    (hKept : ∀ other ∈ underWay, keep other.instr = true) :
    v.Mirrors keep (v.carryOut fuel underWay) ((v.prune keep).carryOut fuel' underWay) := by
  induction fuel generalizing underWay fuel' with
  | zero => exact fun task memo found memo' found' memo'' _ _ h => (Walk.throw_ok.mp h).elim
  | succ fuel ih =>
      cases fuel' with
      | zero => exact fun task memo found memo' found' memo'' _ _ _ h => (Walk.throw_ok.mp h).elim
      | succ fuel' =>
          intro task memo found memo' found' memo'' hTask hMemo h h'
          have hKept' : ∀ other ∈ task :: underWay, keep other.instr = true :=
            List.forall_mem_cons.mpr ⟨hTask, hKept⟩
          rw [carryOut_succ] at h h'
          rw [lookup_trim hTask] at h'
          cases hLookup : memo.lookup task with
          | some paths =>
              rw [hLookup] at h h'
              obtain ⟨rfl, rfl⟩ := Prod.mk.inj (Except.ok.inj h)
              obtain ⟨rfl, rfl⟩ := Prod.mk.inj (Except.ok.inj h')
              exact ⟨rfl, rfl⟩
          | none =>
              rw [hLookup] at h h'
              dsimp only [Option.map_none] at h h'
              cases hLevel : levelOf? task underWay with
              | some level =>
                  rw [hLevel] at h h'
                  obtain ⟨rfl, rfl⟩ := Prod.mk.inj (Except.ok.inj h)
                  obtain ⟨rfl, rfl⟩ := Prod.mk.inj (Except.ok.inj h')
                  exact ⟨rfl, rfl⟩
              | none =>
                  rw [hLevel] at h h'
                  dsimp only at h h'
                  split at h
                  · rename_i behind memo₁ hRun
                    split at h'
                    · rename_i behind' memo₂ hRun'
                      obtain ⟨rfl, rfl⟩ := passVia_mirrors (carryOut_finds fuel)
                        (ih fuel' hKept') (carryOut_vanishes hRetains fuel hKept') hTask hMemo
                        hRun hRun'
                      change (if behind.cut.any (· < underWay.length) then _ else _) = _ at h'
                      split at h
                      · rename_i hCut
                        rw [if_pos hCut] at h'
                        obtain ⟨rfl, rfl⟩ := Prod.mk.inj (Except.ok.inj h)
                        obtain ⟨rfl, rfl⟩ := Prod.mk.inj (Except.ok.inj h')
                        exact ⟨rfl, rfl⟩
                      · rename_i hCut
                        rw [if_neg hCut] at h'
                        obtain ⟨rfl, rfl⟩ := Prod.mk.inj (Except.ok.inj h)
                        obtain ⟨rfl, rfl⟩ := Prod.mk.inj (Except.ok.inj h')
                        exact ⟨rfl, (trim_cons_of_kept hTask _).symm⟩
                    · cases h'
                  · cases h

end Live


section Reach

/-- Without the edges of dead code the same instructions can be reached. -/
theorem prune_reachable (hKeep : ∀ a, keep a = true ↔ v.Reachable a) :
    (v.prune keep).Reachable id ↔ v.Reachable id := by
  constructor
  · rintro ⟨entry, stack, hEnters, hPath⟩
    refine ⟨entry, stack, ?_,
      hPath.lift (fun a => a) fun a b hFlow => (mem_prune_successors.mp hFlow).2⟩
    cases hEnters with
    | start hStart => exact .start hStart
    | catching hCaught => exact .catching hCaught
    | finishing hFinal => exact .finishing hFinal
  · rintro ⟨entry, stack, hEnters, hPath⟩
    have hEnters' : (v.prune keep).Enters entry stack := by
      cases hEnters with
      | start hStart => exact .start hStart
      | catching hCaught => exact .catching hCaught
      | finishing hFinal => exact .finishing hFinal
    refine ⟨entry, stack, hEnters', ?_⟩
    induction hPath with
    | refl => exact .refl
    | tail hPath hFlow ih =>
        have hLive := (hKeep _).mpr ⟨entry, stack, hEnters, hPath⟩
        exact ih.tail (mem_prune_successors.mpr ⟨hLive, hFlow⟩)

theorem Retains.of_reachable (hKeep : ∀ a, keep a = true ↔ v.Reachable a) : v.Retains keep where
  handler id entry hEntry := by
    refine (hKeep id).mpr ?_
    cases entry with
    | none => exact .of_entry (.finishing hEntry)
    | some type => exact .of_entry (.catching hEntry)
  next a b hFlow hLive := (hKeep b).mpr (((hKeep a).mp hLive).next hFlow)

/-- Without the edges of dead code, no other code leads into the code that can be
reached. -/
theorem HasHeightsOn.prune (h : v.HasHeightsOn v.Reachable height)
    (hKeep : ∀ a, keep a = true ↔ v.Reachable a) :
    (v.prune keep).Retraceable (v.prune keep).Reachable height where
  sources a b hFlow := h.sources a b (mem_prune_successors.mp hFlow).2
  effects id hMem hReach := h.effects id hMem ((prune_reachable hKeep).mp hReach)
  start := h.start
  caught := h.caught
  finishing := h.finishing
  left a b hFlow hReach hLeaves := h.left a b (mem_prune_successors.mp hFlow).2
    ((prune_reachable hKeep).mp hReach) hLeaves
  flow a b effect hFlow hReach hStays hEffect := h.flow a b effect
    (mem_prune_successors.mp hFlow).2 ((prune_reachable hKeep).mp hReach) hStays hEffect
  closed a _ hFlow _ := (prune_reachable hKeep).mpr ((hKeep a).mp (mem_prune_successors.mp hFlow).1)

/-- Where no dead code leads into live code, what is derived shows no dead instruction. -/
theorem Derives.isWithin {sought : Nat × WalkAim} {trail : List WalkTask} {path : Path}
    (h : v.Derives id sought trail path)
    (hClosed : ∀ a b, b ∈ v.index.successors a → keep b = true → keep a = true)
    (hLive : keep id = true) : path.isWithin keep = true := by
  induction h with
  | nothing => rfl
  | caught => rfl
  | @pass id task effect trail path _ _ hPrior _ _ _ ih =>
      have hBack := hClosed _ _ (FlowIndex.mem_predecessors.mp hPrior) hLive
      rw [isWithin_passed hBack]
      exact ih hBack

end Reach

/-- The paths of an operand on kept instructions are those without the other edges. -/
theorem operand_prune (hRetains : v.Retains keep) {slot : Nat} {paths paths' : List Path}
    (h : v.operand id slot = .ok paths) (h' : (v.prune keep).operand id slot = .ok paths') :
    paths' = paths.filter (Path.isWithin keep) := by
  obtain ⟨depth, hDepth, hRun⟩ := Outcome.bind_ok.mp h
  obtain ⟨depth', hDepth', hRun'⟩ := Outcome.bind_ok.mp h'
  obtain rfl : depth = depth' := Except.ok.inj (hDepth.symm.trans hDepth')
  obtain ⟨memo, hPaths⟩ := Walk.run'_ok.mp hRun
  obtain ⟨memo', hPaths'⟩ := Walk.run'_ok.mp hRun'
  unfold valuePaths at hPaths hPaths'
  rw [bind_pure_comp, Walk.map_ok] at hPaths hPaths'
  obtain ⟨found, hFound, rfl⟩ := hPaths
  obtain ⟨found', hFound', rfl⟩ := hPaths'
  have hKept : ∀ other ∈ ([] : List WalkTask), keep other.instr = true :=
    fun _ h => (List.not_mem_nil h).elim
  have hSome : 0 < WalkAim.beneath.need depth := Nat.succ_pos depth
  obtain ⟨rfl, -⟩ := lookBack_mirrors (carryOut_finds _) (carryOut_mirrors hRetains _ _ hKept)
    (carryOut_vanishes hRetains _ hKept) hSome .nil hFound hFound'
  rfl

end CodeView

namespace Query

variable {p : Program} {method : MethodId} {b : MethodBody} {cache : FlowCache}
  {height : InstrId → Nat}

/-- In code whose live part has stack heights, an operand of a live instruction has the
paths that it has without the edges of dead code, if it is answered for at all and the
paths over dead instructions are left out. Where dead code does not lead into live code,
it is answered for and there are none to leave out. -/
theorem operand_live (hBody : p.body method = .ok b) (hCache : cache.Describes method b)
    (hHeights : (CodeView.ofBody p method b).HasHeightsOn
      (CodeView.ofBody p method b).Reachable height)
    {live : InstrId → Bool} (hLive : ∀ a, live a = true ↔ (CodeView.ofBody p method b).Reachable a)
    {id : InstrId} (hReach : (CodeView.ofBody p method b).Reachable id) {effect : StackEffect}
    (hEffect : (CodeView.ofBody p method b).effect id = .ok effect) {slot : Nat}
    (hSlot : slot < effect.pops) :
    ∃ paths, ((CodeView.ofBody p method b).prune live).operand id slot = .ok paths ∧
      (∀ all after, operand p method id slot cache = .ok all after →
        paths = all.filter (Path.isWithin live)) ∧
      ((∀ a b', b' ∈ (CodeView.ofBody p method b).index.successors a → live b' = true →
        live a = true) → ∃ after, operand p method id slot cache = .ok paths after) := by
  have hMem := CodeView.mem_order_of_effect hEffect
  have hPops : effect.pops ≤ height id := hHeights.pops_le hReach hEffect
  obtain ⟨paths, hPaths⟩ := CodeView.operand_succeeds (hHeights.prune hLive)
    ((CodeView.prune_reachable hLive).mpr hReach) hEffect hPops hSlot
  have hFiltered {all : List Path} (hAll : (CodeView.ofBody p method b).operand id slot = .ok all) :
      paths = all.filter (Path.isWithin live) :=
    CodeView.operand_prune (.of_reachable hLive) hAll hPaths
  refine ⟨paths, hPaths, fun all after hAsk => hFiltered (of_ask_ok hBody hCache hAsk),
    fun hClosed => ?_⟩
  have hTrace : (CodeView.ofBody p method b).Retraceable
      (CodeView.ofBody p method b).Reachable height :=
    ⟨hHeights, fun a b' hFlow hNext =>
      (hLive a).mp (hClosed a b' hFlow ((hLive b').mpr hNext))⟩
  obtain ⟨all, hAll⟩ := CodeView.operand_succeeds hTrace hReach hEffect hPops hSlot
  have hSame : paths = all := by
    rw [hFiltered hAll, List.filter_eq_self]
    intro path hPath
    obtain ⟨trail, hDerives⟩ := (CodeView.operand_answers hEffect hSlot hAll).derived path hPath
    exact hDerives.isWithin hClosed ((hLive id).mpr hReach)
  exact ask_ok (fun v => v.operand id slot) hBody hCache (hSame ▸ hAll)

end Query

/-- A value that is taken behind an instruction that control jumps over. -/
def skipped (dead : Instruction) : MethodBody :=
  .ofParts [⟨⟨0⟩, .ldcI4, .int32 1⟩, ⟨⟨1⟩, .br, .target ⟨3⟩⟩, dead, ⟨⟨3⟩, .pop, .none⟩,
    ⟨⟨4⟩, .ret, .none⟩] [] []

/-- A program with such code. -/
def skippedProgram (dead : Instruction) : Program :=
  { Program.empty with
    methods := [⟨⟨0⟩, "Skip", [], .void, .ofList [.static], [], some (skipped dead)⟩] }

/-- The view of such code. -/
def skippedView (dead : Instruction) : CodeView := .ofBody (skippedProgram dead) ⟨0⟩ (skipped dead)

/-- The stack heights of such code where it is live. -/
def skippedHeight (id : InstrId) : Nat := [0, 1, 0, 1, 0].getD id.index 0

/-- The instructions of such code that are live. -/
def skippedLive : List InstrId := [⟨0⟩, ⟨1⟩, ⟨3⟩, ⟨4⟩]

/-- What is checked of such code. -/
structure Skips (dead : Instruction) : Prop where
  live : ∀ id, skippedLive.contains id = true ↔ (skippedView dead).Reachable id
  heights : (skippedView dead).HasHeightsOn (skippedView dead).Reachable skippedHeight

theorem Skips.of_check {dead : Instruction}
    (hRooted : (skippedView dead).isRooted [] skippedLive = true)
    (hNext : ∀ a ∈ skippedLive, ∀ b ∈ (skippedView dead).index.successors a, b ∈ skippedLive)
    (hCode : ∀ a ∈ skippedLive, (skippedView dead).agreesAt skippedHeight a = true) :
    Skips dead := by
  have hEntries : ∀ id stack, (skippedView dead).Enters id stack → id ∈ skippedLive := by
    intro id stack hEnters
    cases hEnters with
    | start hStart =>
        obtain rfl := Option.some_inj.mp hStart
        decide
    | catching hCaught => cases hCaught
    | finishing hFinal => cases hFinal
  have hLive (id : InstrId) : id ∈ skippedLive ↔ (skippedView dead).Reachable id :=
    CodeView.mem_iff_reachable hRooted hEntries hNext
  refine ⟨fun id => List.contains_iff_mem.trans (hLive id), ?_⟩
  exact .of_agreesAt rfl (fun a _ hReach => hCode a ((hLive a).mpr hReach)) rfl rfl

/-- A constant that is dead adds a path, and no other one. -/
theorem skippedConstant_live : ∃ paths after,
    ((skippedView ⟨⟨2⟩, .ldcI4, .int32 2⟩).prune skippedLive.contains).operand ⟨3⟩ 0 = .ok paths ∧
      Query.operand (skippedProgram ⟨⟨2⟩, .ldcI4, .int32 2⟩) ⟨0⟩ ⟨3⟩ 0 .empty =
        .ok [⟨[⟨2⟩], none, true⟩, ⟨[⟨0⟩], none, true⟩] after ∧ paths = [⟨[⟨0⟩], none, true⟩] := by
  have hSkips : Skips ⟨⟨2⟩, .ldcI4, .int32 2⟩ := .of_check (by decide) (by decide) (by decide)
  have hEffect : (skippedView ⟨⟨2⟩, .ldcI4, .int32 2⟩).effect ⟨3⟩ = .ok ⟨1, 0⟩ := rfl
  obtain ⟨paths, hPaths, hAll, -⟩ := Query.operand_live
    (p := skippedProgram ⟨⟨2⟩, .ldcI4, .int32 2⟩) rfl (.empty _ _) hSkips.heights hSkips.live
    ((hSkips.live ⟨3⟩).mp (by decide)) hEffect Nat.one_pos
  have hFull : (skippedView ⟨⟨2⟩, .ldcI4, .int32 2⟩).operand ⟨3⟩ 0 =
      .ok [⟨[⟨2⟩], none, true⟩, ⟨[⟨0⟩], none, true⟩] := rfl
  obtain ⟨after, hAsk⟩ := Query.ask_ok (p := skippedProgram ⟨⟨2⟩, .ldcI4, .int32 2⟩)
    (fun v => v.operand ⟨3⟩ 0) rfl (.empty _ _) hFull
  exact ⟨paths, after, hPaths, hAsk, hAll _ after hAsk⟩

/-- An instruction that is dead and leaves the stack alone keeps the operand behind it from
being found, although it is live and found without the edge of the dead instruction. -/
theorem skippedNop_underflows : Skips ⟨⟨2⟩, .nop, .none⟩ ∧
    ((skippedView ⟨⟨2⟩, .nop, .none⟩).prune skippedLive.contains).operand ⟨3⟩ 0 =
      .ok [⟨[⟨0⟩], none, true⟩] ∧
    ∃ identity after, Query.operand (skippedProgram ⟨⟨2⟩, .nop, .none⟩) ⟨0⟩ ⟨3⟩ 0 .empty =
      .error (.stackUnderflow identity ⟨2⟩) after :=
  ⟨.of_check (by decide) (by decide) (by decide), rfl, _, _, rfl⟩

end ContextBinding
