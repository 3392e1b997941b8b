import ContextBinding.Proofs.Stack
import ContextBinding.Provenance.Backward
import Mathlib.Data.List.Nodup

/-! How the value of a path comes about, without the order in which a walk looks for
 it. A derivation goes back over one predecessor at a time; one that carries out no
 task twice goes round no loop. Every derivation can be shortened to such a one
 that starts and ends as it does. -/

namespace ContextBinding

open Relation

namespace Path

/-- What put the value of a path on the stack. -/
def source? (path : Path) : Option Origin :=
  match path.producer?, path.caught with
  | some id, _ => some (.pushed id)
  | none, some entry => some (.caught entry)
  | none, none => none

/-- What a path starts from: the exception at a handler entry, or else its first
instruction. -/
def root? (path : Path) : Option Origin :=
  match path.caught, path.start? with
  | some entry, _ => some (.caught entry)
  | none, some id => some (.pushed id)
  | none, none => none

theorem source?_ofCatch (entry : InstrId) : (ofCatch entry).source? = some (.caught entry) := rfl

theorem source?_extend (path : Path) (id : InstrId) (exact : Bool) :
    (path.extend id exact).source? = some (.pushed id) := by
  simp [source?, producer?, extend]

theorem root?_extend (path : Path) (id : InstrId) (exact : Bool) :
    (path.extend id exact).root? = some (path.root?.getD (.pushed id)) := by
  obtain ⟨instrs, caught, _⟩ := path
  cases caught <;> cases instrs <;> rfl

end Path

/-- The number of values that have to be on the stack. -/
def WalkAim.need (owed : Nat) : WalkAim → Nat
  | .beneath => owed + 1
  | .supply => owed

namespace WalkTask

variable {task : WalkTask} {effect : StackEffect} {path : Path}

/-- What is owed ahead of a task's instruction. -/
def ahead (task : WalkTask) (effect : StackEffect) : Nat × WalkAim :=
  match task.aim with
  | .beneath =>
    if effect.pushes ≤ task.owed then (task.owed - effect.pushes + effect.pops, .beneath)
    else (effect.pops, .supply)
  | .supply => (task.owed - effect.pushes + effect.pops, .supply)

/-- What passing a task's instruction makes of a path that was found ahead of it. -/
def passed (task : WalkTask) (effect : StackEffect) (path : Path) : Path :=
  match task.aim with
  | .beneath =>
    if effect.pushes ≤ task.owed then path
    else path.extend task.instr (task.owed + 1 == effect.pushes)
  | .supply =>
    if effect.pops = 0 ∧ effect.pushes = 0 then path
    else path.extend task.instr (effect.pushes ≤ task.owed)

/-- Whether the instruction of a task joins the path. -/
def Joins (task : WalkTask) (effect : StackEffect) : Prop :=
  match task.aim with
  | .beneath => task.owed < effect.pushes
  | .supply => ¬ (effect.pops = 0 ∧ effect.pushes = 0)

/-- A path that is passed gets one instruction more or stays as it is. -/
theorem passed_cases (task : WalkTask) (effect : StackEffect) :
    (task.Joins effect ∧ ∃ exact, ∀ path, task.passed effect path = path.extend task.instr exact) ∨
      (¬ task.Joins effect ∧ ∀ path, task.passed effect path = path) := by
  unfold passed Joins
  cases task.aim with
  | beneath =>
      by_cases hSkip : effect.pushes ≤ task.owed
      · exact Or.inr ⟨Nat.not_lt.mpr hSkip, fun path => if_pos hSkip⟩
      · exact Or.inl ⟨Nat.not_le.mp hSkip, _, fun path => if_neg hSkip⟩
  | supply =>
      by_cases hNeutral : effect.pops = 0 ∧ effect.pushes = 0
      · exact Or.inr ⟨not_not.mpr hNeutral, fun path => if_pos hNeutral⟩
      · exact Or.inl ⟨hNeutral, _, fun path => if_neg hNeutral⟩

/-- Ahead of an instruction that does not join the path there is something owed as well. -/
theorem need_ahead_pos (hSome : 0 < task.aim.need task.owed) (h : ¬ task.Joins effect) :
    0 < (task.ahead effect).2.need (task.ahead effect).1 := by
  obtain ⟨id, owed, aim⟩ := task
  cases aim with
  | beneath =>
      have hSkip : effect.pushes ≤ owed := Nat.not_lt.mp h
      simp only [ahead, hSkip, if_true, WalkAim.need]
      exact Nat.succ_pos _
  | supply =>
      obtain ⟨hPops, hPushes⟩ := not_not.mp h
      simpa only [ahead, hPops, hPushes, Nat.sub_zero, Nat.add_zero] using hSome

/-- While a value is looked for beneath others, nothing joins the path. -/
theorem of_ahead_beneath (h : (task.ahead effect).2 = .beneath) :
    task.aim = .beneath ∧ ∀ path, task.passed effect path = path := by
  obtain ⟨id, owed, aim⟩ := task
  cases aim with
  | beneath =>
      by_cases hSkip : effect.pushes ≤ owed
      · exact ⟨rfl, fun _ => if_pos hSkip⟩
      · simp [ahead, hSkip] at h
  | supply => cases h

/-- Where a value is looked for, the source of a path depends on what was found ahead only
if it is looked for there as well. -/
theorem source?_passed_congr {path' : Path} (hAim : task.aim = .beneath)
    (h : (task.ahead effect).2 = .beneath → path'.source? = path.source?) :
    (task.passed effect path').source? = (task.passed effect path).source? := by
  rcases task.passed_cases effect with ⟨-, exact, hExtend⟩ | ⟨hJoins, hSame⟩
  · rw [hExtend, hExtend, Path.source?_extend, Path.source?_extend]
  · rw [hSame, hSame]
    refine h ?_
    have hSkip : effect.pushes ≤ task.owed := by simpa [Joins, hAim] using hJoins
    simp only [ahead, hAim, hSkip, if_true]

/-- A path that is passed keeps the instructions that it had. -/
theorem prefix_passed (task : WalkTask) (effect : StackEffect) (path : Path) :
    path.instrs <+: (task.passed effect path).instrs := by
  rcases task.passed_cases effect with ⟨-, exact, h⟩ | ⟨-, h⟩
  · rw [h]
    exact List.prefix_append ..
  · rw [h]

theorem passed_sublist {path' : Path} (task : WalkTask) (effect : StackEffect)
    (h : path'.instrs.Sublist path.instrs) :
    (task.passed effect path').instrs.Sublist (task.passed effect path).instrs := by
  rcases task.passed_cases effect with ⟨-, exact, hExtend⟩ | ⟨-, hSame⟩
  · rw [hExtend, hExtend]
    exact h.append_right [task.instr]
  · rwa [hSame, hSame]

/-- Paths with one root keep it together when they are passed. -/
theorem root?_passed_congr {path' : Path} (task : WalkTask) (effect : StackEffect)
    (h : path'.root? = path.root?) :
    (task.passed effect path').root? = (task.passed effect path).root? := by
  rcases task.passed_cases effect with ⟨-, exact, hExtend⟩ | ⟨-, hSame⟩
  · rw [hExtend, hExtend, Path.root?_extend, Path.root?_extend, h]
  · rwa [hSame, hSame]

/-- A root stays the root when a path is passed. -/
theorem root?_passed {root : Origin} (task : WalkTask) (effect : StackEffect)
    (h : path.root? = some root) : (task.passed effect path).root? = some root := by
  rcases task.passed_cases effect with ⟨-, exact, hExtend⟩ | ⟨-, hSame⟩
  · rw [hExtend, Path.root?_extend, h]
    rfl
  · rwa [hSame]

/-- Going back over an instruction does not raise what lies beneath the values that are
owed, and leaves it where it is if the instruction pushes nothing else. -/
theorem exact_passed (task : WalkTask) {before after : Nat} (hPops : effect.pops ≤ before)
    (hAfter : after = before - effect.pops + effect.pushes) :
    task.aim.need task.owed + before ≤
        after + (task.ahead effect).2.need (task.ahead effect).1 ∧
      ∀ path, (task.passed effect path).exact = true ↔ path.exact = true ∧
        task.aim.need task.owed + before =
          after + (task.ahead effect).2.need (task.ahead effect).1 := by
  obtain ⟨id, owed, aim⟩ := task
  cases aim with
  | beneath =>
      by_cases hSkip : effect.pushes ≤ owed
      · simp only [ahead, passed, hSkip, if_true, WalkAim.need]
        refine ⟨by omega, fun path => iff_self_and.mpr fun _ => by omega⟩
      · simp only [ahead, passed, hSkip, if_false, WalkAim.need, Path.extend, Bool.and_eq_true,
          beq_iff_eq]
        refine ⟨by omega, fun path => and_congr_right fun _ => by omega⟩
  | supply =>
      by_cases hNeutral : effect.pops = 0 ∧ effect.pushes = 0
      · obtain ⟨hNone, hNone'⟩ := hNeutral
        simp only [ahead, passed, hNone, hNone', and_self, if_true, WalkAim.need]
        refine ⟨by omega, fun path => iff_self_and.mpr fun _ => by omega⟩
      · simp only [ahead, passed, hNeutral, if_false, WalkAim.need, Path.extend, Bool.and_eq_true,
          decide_eq_true_eq]
        refine ⟨by omega, fun path => and_congr_right fun _ => by omega⟩

end WalkTask

namespace CodeView

variable {v : CodeView} {height : InstrId → Nat} {id : InstrId} {sought : Nat × WalkAim}
  {trail : List WalkTask} {path : Path}

/-- What is looked for just before an instruction comes about by a path. The trail
lists the tasks that are carried out on the way back, the one next to the instruction
first. -/
inductive Derives (v : CodeView) : InstrId → Nat × WalkAim → List WalkTask → Path → Prop where
  | nothing {id : InstrId} : Derives v id (0, .supply) [] .nil
  | caught {id : InstrId} {sought : Nat × WalkAim} {type : TypeRef}
      (hEntry : v.index.handlerEntry? id = some (some type))
      (hLast : sought.2.need sought.1 = 1) : Derives v id sought [] (.ofCatch id)
  | pass {id : InstrId} {task : WalkTask} {effect : StackEffect} {trail : List WalkTask}
      {path : Path} (hEntry : v.index.handlerEntry? id = none)
      (hSome : 0 < task.aim.need task.owed) (hPrior : task.instr ∈ v.index.predecessors id)
      (hStays : ¬ v.Leaves task.instr) (hEffect : v.effect task.instr = .ok effect)
      (rest : Derives v task.instr (task.ahead effect) trail path) :
      Derives v id (task.owed, task.aim) (task :: trail) (task.passed effect path)

/-- A task that is carried out finds a path over the tasks of a trail. -/
def Carries (v : CodeView) (task : WalkTask) (trail : List WalkTask) (path : Path) : Prop :=
  ∃ effect ahead, v.effect task.instr = .ok effect ∧ ¬ v.Leaves task.instr ∧
    v.Derives task.instr (task.ahead effect) trail ahead ∧ task.passed effect ahead = path

theorem Carries.derives {task : WalkTask} (h : v.Carries task trail path)
    (hEntry : v.index.handlerEntry? id = none) (hSome : 0 < task.aim.need task.owed)
    (hPrior : task.instr ∈ v.index.predecessors id) :
    v.Derives id (task.owed, task.aim) (task :: trail) path := by
  obtain ⟨effect, ahead, hEffect, hStays, hAhead, rfl⟩ := h
  exact .pass hEntry hSome hPrior hStays hEffect hAhead

/-- A path for which something is owed starts from somewhere. -/
theorem Derives.rooted (h : v.Derives id sought trail path) (hSome : 0 < sought.2.need sought.1) :
    ∃ root, path.root? = some root := by
  induction h with
  | nothing => exact (Nat.lt_irrefl 0 hSome).elim
  | caught => exact ⟨_, rfl⟩
  | @pass id task effect trail path _ _ _ _ _ _ ih =>
      rcases task.passed_cases effect with ⟨-, exact, hExtend⟩ | ⟨hJoins, hSame⟩
      · rw [hExtend, Path.root?_extend]
        exact ⟨_, rfl⟩
      · rw [hSame]
        exact ih (WalkTask.need_ahead_pos hSome hJoins)

/-- Once values are to be supplied, no task looks beneath others any more. -/
theorem Derives.beneath_of_mem (h : v.Derives id sought trail path) {task : WalkTask}
    (hMem : task ∈ trail) (hAim : task.aim = .beneath) : sought.2 = .beneath := by
  induction h with
  | nothing => exact (List.not_mem_nil hMem).elim
  | caught => exact (List.not_mem_nil hMem).elim
  | pass _ _ _ _ _ _ ih =>
      rcases List.mem_cons.mp hMem with rfl | hMem
      · exact hAim
      · exact (WalkTask.of_ahead_beneath (ih hMem)).1

/-- The first task of a derivation is carried out at a predecessor. -/
theorem Derives.first {task : WalkTask} (h : v.Derives id sought (task :: trail) path) :
    sought = (task.owed, task.aim) ∧ v.index.handlerEntry? id = none ∧
      0 < task.aim.need task.owed ∧ task.instr ∈ v.index.predecessors id ∧
      v.Carries task trail path := by
  cases h with
  | pass hEntry hSome hPrior hStays hEffect rest =>
      exact ⟨rfl, hEntry, hSome, hPrior, _, _, hEffect, hStays, rest, rfl⟩

/-- A derivation without tasks owes nothing, or takes the exception at a handler entry. -/
theorem Derives.ended (h : v.Derives id sought [] path) : sought = (0, .supply) ∧ path = .nil ∨
    (∃ type, v.index.handlerEntry? id = some (some type)) ∧ path = .ofCatch id := by
  cases h with
  | nothing => exact Or.inl ⟨rfl, rfl⟩
  | caught hEntry => exact Or.inr ⟨⟨_, hEntry⟩, rfl⟩

/-- Nothing comes about where nothing is owed. -/
theorem Derives.eq_nil (h : v.Derives id (0, .supply) trail path) : trail = [] ∧ path = .nil := by
  generalize hNone : ((0, .supply) : Nat × WalkAim) = sought at h
  cases h with
  | nothing => exact ⟨rfl, rfl⟩
  | caught _ hLast =>
      subst hNone
      cases hLast
  | pass _ hSome =>
      obtain ⟨hOwed, hAim⟩ := Prod.mk.inj hNone
      rw [← hOwed, ← hAim] at hSome
      exact (Nat.lt_irrefl 0 hSome).elim

/-- A derivation can be entered at each of its tasks. What is left of the path starts
from the same root, and is all of it where the task still looks beneath others. -/
theorem Derives.reenter (h : v.Derives id sought trail path) {task : WalkTask}
    (hMem : task ∈ trail) : ∃ prior trail' path', v.Derives prior (task.owed, task.aim)
      (task :: trail') path' ∧ (task :: trail').Sublist trail ∧ path'.instrs <+: path.instrs ∧
      path'.root? = path.root? ∧ (task.aim = .beneath → path' = path) := by
  induction h with
  | nothing => exact (List.not_mem_nil hMem).elim
  | caught => exact (List.not_mem_nil hMem).elim
  | @pass id first effect trail path hEntry hSome hPrior hStays hEffect rest ih =>
      rcases List.mem_cons.mp hMem with rfl | hMem
      · exact ⟨id, trail, _, .pass hEntry hSome hPrior hStays hEffect rest, .refl _,
          List.prefix_rfl, rfl, fun _ => rfl⟩
      · obtain ⟨prior, trail', path', hDerives, hSublist, hPrefix, hRoot, hSame⟩ := ih hMem
        refine ⟨prior, trail', path', hDerives, hSublist.cons _,
          hPrefix.trans (first.prefix_passed effect path), ?_, fun hAim => ?_⟩
        · obtain ⟨root, hRooted⟩ := hDerives.rooted hDerives.first.2.2.1
          rw [hRooted, first.root?_passed effect (hRoot.symm.trans hRooted)]
        · rw [(WalkTask.of_ahead_beneath (rest.beneath_of_mem hMem hAim)).2]
          exact hSame hAim

/-- Every derivation can be shortened to one that carries out no task twice. The path
keeps its root, and the instruction or handler entry that its value comes from. -/
theorem Derives.exists_simple (h : v.Derives id sought trail path) : ∃ trail' path',
    v.Derives id sought trail' path' ∧ trail'.Nodup ∧ path'.instrs.Sublist path.instrs ∧
      path'.root? = path.root? ∧ (sought.2 = .beneath → path'.source? = path.source?) := by
  induction h with
  | nothing => exact ⟨[], _, .nothing, List.nodup_nil, .refl _, rfl, fun _ => rfl⟩
  | caught hEntry hLast =>
      exact ⟨[], _, .caught hEntry hLast, List.nodup_nil, .refl _, rfl, fun _ => rfl⟩
  | @pass id task effect trail path hEntry hSome hPrior hStays hEffect rest ih =>
      obtain ⟨trail', path', hDerives, hNodup, hSublist, hRoot, hSource⟩ := ih
      by_cases hAgain : task ∈ trail'
      · -- The walk comes back to the task, so that what lies between can be left out.
        obtain ⟨prior, trail'', path'', hLast, hWithin, hPrefix, hRoot', hSame⟩ :=
          hDerives.reenter hAgain
        obtain ⟨-, -, -, -, hCarries⟩ := hLast.first
        obtain ⟨root, hRooted⟩ := hLast.rooted hSome
        refine ⟨_, _, hCarries.derives hEntry hSome hPrior, hNodup.sublist hWithin, ?_, ?_, ?_⟩
        · exact (hPrefix.sublist.trans hSublist).trans (task.prefix_passed effect path).sublist
        · rw [hRooted, task.root?_passed effect ((hRoot'.trans hRoot).symm.trans hRooted)]
        · intro hAim
          have hAhead := hDerives.beneath_of_mem hAgain hAim
          rw [hSame hAim, (WalkTask.of_ahead_beneath hAhead).2, hSource hAhead]
      · refine ⟨_, _, .pass hEntry hSome hPrior hStays hEffect hDerives,
          List.nodup_cons.mpr ⟨hAgain, hNodup⟩, task.passed_sublist effect hSublist,
          task.root?_passed_congr effect hRoot, fun hAim => ?_⟩
        exact WalkTask.source?_passed_congr hAim hSource

section Heights

variable {part : InstrId → Prop}

/-- What a task leads back to: the instruction is in the part and does not leave, the
height after it is the same on every edge, and what is owed ahead of it is there. -/
theorem Retraceable.back (h : v.Retraceable part height) {task : WalkTask}
    (hPrior : task.instr ∈ v.index.predecessors id) (hPart : part id)
    (hSome : 0 < task.aim.need task.owed) (hNeed : task.aim.need task.owed ≤ height id) :
    part task.instr ∧ ¬ v.Leaves task.instr ∧ ∃ effect, v.effect task.instr = .ok effect ∧
      effect.pops ≤ height task.instr ∧
      height id = height task.instr - effect.pops + effect.pushes ∧
      (task.ahead effect).2.need (task.ahead effect).1 ≤ height task.instr := by
  have hFlow := FlowIndex.mem_predecessors.mp hPrior
  have hBack := h.closed _ _ hFlow hPart
  have hStays : ¬ v.Leaves task.instr := by
    intro hLeaves
    have hHeight := h.left _ _ hFlow hBack hLeaves
    omega
  obtain ⟨effect, hEffect, hPops⟩ := h.effects _ (h.sources _ _ hFlow) hBack
  have hHeight := h.flow _ _ _ hFlow hBack hStays hEffect
  refine ⟨hBack, hStays, effect, hEffect, hPops, hHeight, ?_⟩
  obtain ⟨prior, owed, aim⟩ := task
  cases aim with
  | beneath =>
      by_cases hSkip : effect.pushes ≤ owed
      · simp only [WalkTask.ahead, hSkip, if_true, WalkAim.need] at hNeed hHeight ⊢
        omega
      · simpa only [WalkTask.ahead, hSkip, if_false, WalkAim.need] using hPops
  | supply =>
      simp only [WalkTask.ahead, WalkAim.need] at hNeed hHeight hPops ⊢
      omega

/-- Either what is looked for is there without going back, or it is looked for over the
predecessors. -/
theorem HasHeightsOn.derives_or_open (h : v.HasHeightsOn part height)
    (hNeed : sought.2.need sought.1 ≤ height id) : (∃ path, v.Derives id sought [] path) ∨
      v.index.handlerEntry? id = none ∧ 0 < sought.2.need sought.1 := by
  rcases Nat.eq_zero_or_pos (sought.2.need sought.1) with hNone | hSome
  · obtain ⟨owed, aim⟩ := sought
    cases aim with
    | beneath => cases hNone
    | supply =>
        obtain rfl : owed = 0 := hNone
        exact Or.inl ⟨_, .nothing⟩
  · rcases hEntry : v.index.handlerEntry? id with _ | _ | type
    · exact Or.inr ⟨rfl, hSome⟩
    · have hHeight := h.finishing id hEntry
      omega
    · have hHeight := h.caught id type hEntry
      exact Or.inl ⟨_, .caught hEntry (by omega)⟩

/-- Values that the stack holds come about on every way to an instruction. -/
theorem Retraceable.exists_derives (h : v.Retraceable v.Reachable height) (hReach : v.Reachable id)
    (hNeed : sought.2.need sought.1 ≤ height id) :
    ∃ trail path, v.Derives id sought trail path := by
  obtain ⟨entry, stack, hEnters, hPath⟩ := hReach
  induction hPath generalizing sought with
  | refl =>
      rcases h.derives_or_open hNeed with ⟨path, hDerives⟩ | ⟨hEntry, hSome⟩
      · exact ⟨[], path, hDerives⟩
      · cases hEnters with
        | start hStart =>
            have hHeight := h.start _ hStart
            omega
        | catching hCaught => cases hEntry.symm.trans hCaught
        | finishing hFinal => cases hEntry.symm.trans hFinal
  | @tail a b hPath hFlow ih =>
      rcases h.derives_or_open hNeed with ⟨path, hDerives⟩ | ⟨hEntry, hSome⟩
      · exact ⟨[], path, hDerives⟩
      · let task : WalkTask := ⟨a, sought.1, sought.2⟩
        have hPrior : task.instr ∈ v.index.predecessors b := FlowIndex.mem_predecessors.mpr hFlow
        have hReach : v.Reachable b := ⟨entry, stack, hEnters, hPath.tail hFlow⟩
        obtain ⟨-, hStays, effect, hEffect, -, -, hAhead⟩ := h.back hPrior hReach hSome hNeed
        obtain ⟨trail, path, hDerives⟩ := ih hAhead
        exact ⟨_, _, .pass hEntry hSome hPrior hStays hEffect hDerives⟩

/-- A path starts no higher than beneath the values that are owed. It starts right
beneath them if it is exact. -/
structure Fills (height : InstrId → Nat) (id : InstrId) (need : Nat) (path : Path) : Prop where
  empty : path.root? = none → need = 0 ∧ path.exact = true
  caught : ∀ entry, path.root? = some (.caught entry) → path.exact = false
  pushed : ∀ a, path.root? = some (.pushed a) →
    height a + need ≤ height id ∧ (path.exact = true ↔ height a + need = height id)

theorem Fills.passed {task : WalkTask} {effect : StackEffect}
    (h : Fills height task.instr ((task.ahead effect).2.need (task.ahead effect).1) path)
    (hSome : 0 < task.aim.need task.owed) (hPops : effect.pops ≤ height task.instr)
    (hHeight : height id = height task.instr - effect.pops + effect.pushes) :
    Fills height id (task.aim.need task.owed) (task.passed effect path) := by
  obtain ⟨hFloor, hExact⟩ := task.exact_passed hPops hHeight
  -- The path that is passed starts where the path ahead starts, or with the instruction.
  have hRoot (root : Origin) (hPassed : (task.passed effect path).root? = some root) :
      path.root? = some root ∨ path.root? = none ∧ root = .pushed task.instr := by
    rcases task.passed_cases effect with ⟨-, exact, hExtend⟩ | ⟨-, hSame⟩
    · rw [hExtend, Path.root?_extend, Option.some_inj] at hPassed
      cases hAhead : path.root? with
      | none => exact Or.inr ⟨rfl, by rw [← hPassed, hAhead]; rfl⟩
      | some root' => exact Or.inl (by rw [← hPassed, hAhead]; rfl)
    · exact Or.inl (by rwa [hSame] at hPassed)
  refine ⟨fun hPassed => ?_, fun entry hPassed => ?_, fun a hPassed => ?_⟩
  · rcases task.passed_cases effect with ⟨-, exact, hExtend⟩ | ⟨hJoins, hSame⟩
    · rw [hExtend, Path.root?_extend] at hPassed
      cases hPassed
    · rw [hSame] at hPassed
      exact ((WalkTask.need_ahead_pos hSome hJoins).ne' (h.empty hPassed).1).elim
  · rcases hRoot _ hPassed with hAhead | ⟨-, hSame⟩
    · have hInexact := h.caught entry hAhead
      simpa [hInexact] using hExact path
    · cases hSame
  · rw [hExact]
    rcases hRoot _ hPassed with hAhead | ⟨hAhead, hSame⟩
    · obtain ⟨hBelow, hAt⟩ := h.pushed a hAhead
      rw [hAt]
      omega
    · obtain ⟨hNone, hTrue⟩ := h.empty hAhead
      obtain rfl := Origin.pushed.inj hSame
      simp only [hTrue, true_and]
      omega

theorem Derives.fills (h : v.Retraceable part height) (hDerives : v.Derives id sought trail path)
    (hPart : part id) (hNeed : sought.2.need sought.1 ≤ height id) :
    Fills height id (sought.2.need sought.1) path := by
  induction hDerives with
  | nothing => exact ⟨fun _ => ⟨rfl, rfl⟩, fun _ h => (nomatch h), fun _ h => (nomatch h)⟩
  | caught => exact ⟨fun h => (nomatch h), fun _ _ => rfl, fun _ h => (nomatch h)⟩
  | pass hEntry hSome hPrior hStays hEffect rest ih =>
      obtain ⟨hBack, -, effect, hEffect', hPops, hHeight, hAhead⟩ :=
        h.back hPrior hPart hSome hNeed
      obtain rfl := Except.ok.inj (hEffect'.symm.trans hEffect)
      exact (ih hBack hAhead).passed hSome hPops hHeight

end Heights

section Origins

/-- The source of a path that is derived for a value is where the value is traced to. -/
theorem Derives.traces (h : v.Derives id sought trail path) (hAim : sought.2 = .beneath) :
    ∃ o, path.source? = some o ∧ v.Traces o id sought.1 := by
  induction h with
  | nothing => cases hAim
  | @caught id sought type hEntry hLast =>
      obtain ⟨owed, aim⟩ := sought
      obtain rfl : aim = .beneath := hAim
      obtain rfl : owed = 0 := Nat.succ.inj hLast
      exact ⟨.caught id, Path.source?_ofCatch id, .caught hEntry⟩
  | @pass id task effect trail path _ _ hPrior _ hEffect _ ih =>
      have hFlow := FlowIndex.mem_predecessors.mp hPrior
      obtain ⟨prior, owed, aim⟩ := task
      obtain rfl : aim = .beneath := hAim
      by_cases hSkip : effect.pushes ≤ owed
      · simp only [WalkTask.ahead, WalkTask.passed, hSkip, if_true, forall_const] at ih ⊢
        obtain ⟨o, hSource, hTraces⟩ := ih
        have hPassed := Traces.passed hTraces hFlow hEffect (Nat.le_add_left ..)
        rw [Nat.add_sub_cancel, Nat.sub_add_cancel hSkip] at hPassed
        exact ⟨o, hSource, hPassed⟩
      · simp only [WalkTask.passed, hSkip, if_false]
        exact ⟨.pushed prior, Path.source?_extend .., .pushed hFlow hEffect (by simpa using hSkip)⟩

/-- Where handlers are only entered from outside, a path is derived for every origin
that a value is traced to. -/
theorem Traces.derives (h : v.Retraceable v.Reachable height)
    (hIsolated : ∀ a b, b ∈ v.index.successors a → v.index.handlerEntry? b = none)
    {o : Origin} {depth : Nat} (hTraces : v.Traces o id depth) (hReach : v.Reachable id)
    (hDepth : depth < height id) :
    ∃ trail path, v.Derives id (depth, .beneath) trail path ∧ path.source? = some o := by
  induction hTraces with
  | caught hCaught => exact ⟨[], _, .caught hCaught rfl, Path.source?_ofCatch _⟩
  | @pushed a b depth effect hFlow hEffect hPush =>
      let task : WalkTask := ⟨a, depth, .beneath⟩
      have hPrior : task.instr ∈ v.index.predecessors b := FlowIndex.mem_predecessors.mpr hFlow
      have hSome : 0 < task.aim.need task.owed := Nat.succ_pos depth
      obtain ⟨hBack, hStays, effect', hEffect', -, -, hAhead⟩ :=
        h.back hPrior hReach hSome hDepth
      obtain rfl : effect' = effect := Except.ok.inj (hEffect'.symm.trans hEffect)
      obtain ⟨trail, path, hDerives⟩ := h.exists_derives hBack hAhead
      refine ⟨_, _, .pass (hIsolated a b hFlow) hSome hPrior hStays hEffect hDerives, ?_⟩
      simp only [WalkTask.passed, task, Nat.not_le.mpr hPush, if_false, Path.source?_extend]
  | @passed o a b depth effect _ hFlow hEffect hTaken ih =>
      let task : WalkTask := ⟨a, depth - effect.pops + effect.pushes, .beneath⟩
      have hPrior : task.instr ∈ v.index.predecessors b := FlowIndex.mem_predecessors.mpr hFlow
      have hSome : 0 < task.aim.need task.owed := Nat.succ_pos _
      obtain ⟨hBack, hStays, effect', hEffect', -, -, hAhead⟩ :=
        h.back hPrior hReach hSome hDepth
      obtain rfl : effect' = effect := Except.ok.inj (hEffect'.symm.trans hEffect)
      have hSkip : effect'.pushes ≤ depth - effect'.pops + effect'.pushes := Nat.le_add_left ..
      have hOwed : task.ahead effect' = (depth, .beneath) := by
        simp only [WalkTask.ahead, task, hSkip, if_true, Nat.add_sub_cancel,
          Nat.sub_add_cancel hTaken]
      rw [hOwed] at hAhead
      obtain ⟨trail, path, hDerives, hSource⟩ := ih hBack hAhead
      refine ⟨_, _, .pass (hIsolated a b hFlow) hSome hPrior hStays hEffect (hOwed ▸ hDerives), ?_⟩
      simp only [WalkTask.passed, task, hSkip, if_true, hSource]

end Origins

end CodeView

end ContextBinding
