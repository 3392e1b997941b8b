import ContextBinding.Proofs.Expansion
import ContextBinding.Proofs.Operands
import ContextBinding.Proofs.Redefinition
import ContextBinding.Proofs.Workspace

/-! Where an inserted value comes to lie. New code either stands right ahead of an
 instruction, between stores and loads of the operands that the value has to be beneath, or
 ahead of the code that supplies these operands if there is one exact path to them. -/

namespace ContextBinding

open MethodBody (number numbers)

namespace WalkTask

/-- What an instruction takes is owed ahead of it. -/
theorem pops_le_ahead (task : WalkTask) (effect : StackEffect) :
    effect.pops ≤ (task.ahead effect).2.need (task.ahead effect).1 := by
  obtain ⟨id, owed, aim⟩ := task
  cases aim with
  | beneath =>
      by_cases hSkip : effect.pushes ≤ owed
      · simp only [ahead, hSkip, if_true, WalkAim.need]
        omega
      · simp [ahead, hSkip, WalkAim.need]
  | supply =>
      simp only [ahead, WalkAim.need]
      omega

end WalkTask

/-- Code goes ahead of a path if that is the only one and code can be inserted there. -/
theorem Placement.anchor?_eq_some {paths : List Path} {source : InstrId}
    (h : Placement.anchor? paths = some source) :
    ∃ path, paths = [path] ∧ path.isInsertable = true ∧ path.start? = some source := by
  unfold anchor? at h
  split at h
  · split at h
    · rename_i hInsertable
      exact ⟨_, rfl, hInsertable, h⟩
    · cases h
  · cases h

namespace CodeView

variable {v v' : CodeView} {height : InstrId → Nat} {source id a b : InstrId}

/-- Something above the height of `source` is looked for at an instruction, and however it
comes about, it does from `source` on and by code that pushes nothing else. -/
def StemsFrom (v : CodeView) (height : InstrId → Nat) (source id : InstrId) : Prop :=
  ∃ sought : Nat × WalkAim, 0 < sought.2.need sought.1 ∧
    height source + sought.2.need sought.1 = height id ∧
    ∀ trail path, v.Derives id sought trail path →
      path.root? = some (.pushed source) ∧ path.exact = true

namespace StemsFrom

theorem height_lt (h : v.StemsFrom height source id) : height source < height id := by
  obtain ⟨sought, hSome, hHeight, -⟩ := h
  omega

theorem ne (h : v.StemsFrom height source id) : id ≠ source := by
  rintro rfl
  exact Nat.lt_irrefl _ h.height_lt

/-- No handler is entered there. -/
theorem handlerEntry? (h : v.StemsFrom height source id) {part : InstrId → Prop}
    (hOn : v.HasHeightsOn part height) : v.index.handlerEntry? id = none := by
  obtain ⟨sought, hSome, hHeight, hAll⟩ := h
  have hNeed : sought.2.need sought.1 ≤ height id := by omega
  rcases hOn.derives_or_open hNeed with ⟨path, hDerives⟩ | hOpen
  · obtain ⟨hRoot, -⟩ := hAll _ _ hDerives
    rcases hDerives.ended with ⟨rfl, -⟩ | ⟨-, rfl⟩
    · exact (Nat.lt_irrefl 0 hSome).elim
    · cases hRoot
  · exact hOpen.1

/-- The code is not entered there. -/
theorem not_entered (h : v.StemsFrom height source id) {part : InstrId → Prop}
    (hOn : v.HasHeightsOn part height) {stack : List Origin} : ¬ v.Enters id stack := by
  intro hEnters
  have hEntry := h.handlerEntry? hOn
  cases hEnters with
  | start hStart =>
      have hHeight := hOn.start id hStart
      have hAbove := h.height_lt
      omega
  | catching hCaught => cases hEntry.symm.trans hCaught
  | finishing hFinal => cases hEntry.symm.trans hFinal

/-- Control comes there from the source itself, which takes nothing, or from code of the same
kind, which takes nothing of what is beneath. -/
theorem back (hTrace : v.Retraceable v.Reachable height) (h : v.StemsFrom height source b)
    (hReach : v.Reachable b) (hFlow : b ∈ v.index.successors a) :
    ∃ effect, v.effect a = .ok effect ∧ ¬ v.Leaves a ∧
      height b = height a - effect.pops + effect.pushes ∧
      height source + effect.pops ≤ height a ∧ (a = source ∨ v.StemsFrom height source a) := by
  have hEntry := h.handlerEntry? hTrace.toHasHeightsOn
  obtain ⟨sought, hSome, hHeight, hAll⟩ := h
  let task : WalkTask := ⟨a, sought.1, sought.2⟩
  have hPrior : task.instr ∈ v.index.predecessors b := FlowIndex.mem_predecessors.mpr hFlow
  have hOwes : height source + task.aim.need task.owed = height b := hHeight
  have hAt : height task.instr = height a := rfl
  obtain ⟨hBack, hStays, effect, hEffect, hPops, hAfter, hAhead⟩ :=
    hTrace.back hPrior hReach hSome (by omega)
  have hPass {trail : List WalkTask} {path : Path}
      (hDerives : v.Derives a (task.ahead effect) trail path) :
      (task.passed effect path).root? = some (.pushed source) ∧
        (task.passed effect path).exact = true :=
    hAll _ _ (.pass hEntry hSome hPrior hStays hEffect hDerives)
  obtain ⟨-, hExact⟩ := task.exact_passed hPops hAfter
  obtain ⟨trail, path, hDerives⟩ := hTrace.exists_derives hBack hAhead
  have hLevel := ((hExact path).mp (hPass hDerives).2).2
  have hTaken := task.pops_le_ahead effect
  refine ⟨effect, hEffect, hStays, hAfter, by omega, ?_⟩
  rcases Nat.eq_zero_or_pos ((task.ahead effect).2.need (task.ahead effect).1) with hNone | hOwed
  · -- Nothing is owed ahead, so that the path starts with this instruction.
    left
    rcases task.passed_cases effect with ⟨-, exact, hExtend⟩ | ⟨hJoins, -⟩
    · have hNothing : task.ahead effect = (0, .supply) := by
        generalize task.ahead effect = ahead at hNone
        obtain ⟨owed, aim⟩ := ahead
        cases aim with
        | beneath => cases hNone
        | supply => exact congrArg (·, WalkAim.supply) hNone
      obtain ⟨hRoot, -⟩ := hPass (hNothing ▸ Derives.nothing)
      rw [hExtend, Path.root?_extend] at hRoot
      exact Origin.pushed.inj (Option.some_inj.mp hRoot)
    · exact absurd hNone (WalkTask.need_ahead_pos hSome hJoins).ne'
  · right
    refine ⟨task.ahead effect, hOwed, by omega, fun trail' path' hDerives' => ?_⟩
    obtain ⟨hRoot, hTrue⟩ := hPass hDerives'
    obtain ⟨root, hRooted⟩ := hDerives'.rooted hOwed
    have hSame := (task.root?_passed effect hRooted).symm.trans hRoot
    exact ⟨hRooted.trans hSame, ((hExact path').mp hTrue).1⟩

end StemsFrom

/-- A value that comes about by one exact path only stems from the start of that path. -/
theorem Answers.stemsFrom (hTrace : v.Retraceable v.Reachable height) (hReach : v.Reachable id)
    {depth : Nat} (hDepth : depth < height id) {path : Path} (h : v.Answers id depth [path])
    (hInsertable : path.isInsertable = true) (hStart : path.start? = some source) :
    v.StemsFrom height source id ∧ height source + (depth + 1) = height id := by
  simp only [Path.isInsertable, Bool.and_eq_true, Option.isNone_iff_eq_none] at hInsertable
  obtain ⟨⟨hExact, hCaught⟩, -⟩ := hInsertable
  have hRoot : path.root? = some (.pushed source) := by
    simp [Path.root?, hCaught, hStart]
  obtain ⟨trail, hDerives⟩ := h.derived path (List.mem_singleton_self _)
  have hHeight : height source + (depth + 1) = height id :=
    (((hDerives.fills hTrace hReach hDepth).pushed source hRoot).2).mp hExact
  refine ⟨⟨(depth, .beneath), Nat.succ_pos _, hHeight, fun trail' path' hDerives' => ?_⟩, hHeight⟩
  obtain ⟨short, hShort⟩ := hDerives'.exists_shortens hTrace hReach hDepth
  obtain ⟨trail'', hSimple, hNodup⟩ := hShort.simple
  obtain rfl := List.mem_singleton.mp (h.complete _ _ hSimple hNodup)
  exact ⟨hShort.root.symm.trans hRoot, hShort.exact.symm.trans hExact⟩

/-- The value that new code ahead of `source` left, when a walk over the new body passed it last,
lies beneath `n` values. These are what the walk over the old body has on top. -/
def Underlies (v v' : CodeView) (source : InstrId) (first : Nat) (code : List Instruction)
    (start : List Value) (trail : List InstrId) (n : Nat) : Prop :=
  ∃ later earlier value, trail = later ++ source :: earlier ∧ source ∉ later ∧
    (v'.frame first start ((numbers first code).reverse ++
      expand source (numbers first code) earlier)).stack.head? = some value ∧
    (v'.frame first start (expand source (numbers first code) trail)).stack.take n
      = (v.frame first start trail).stack.take n ∧
    (v'.frame first start (expand source (numbers first code) trail)).stack[n]? = some value

namespace Spliced

variable {first n : Nat} {code : List Instruction} {start : List Value} {trail : List InstrId}
  {effect : StackEffect}

/-- A source that takes nothing puts what it pushes right on top of the value. -/
theorem underlies_source (h : v.Spliced v' source first code)
    (hOne : v.program.PushesOne v.method code) (hEffect : v.effect source = .ok effect)
    (hStays : ¬ v.Leaves source) (hNone : effect.pops = 0) :
    v.Underlies v' source first code start (source :: trail) effect.pushes := by
  obtain ⟨i, hInstr⟩ := exists_instr hEffect
  have hLeave : i.opcode ≠ .leave := fun hLeave => hStays ⟨i, hInstr, hLeave⟩
  obtain ⟨value, hStack⟩ : ∃ value, (v'.frame first start ((numbers first code).reverse ++
      expand source (numbers first code) trail)).stack
        = value :: (v'.frame first start (expand source (numbers first code) trail)).stack := by
    obtain ⟨value, hStack, -⟩ := frame_pushes h.holds (h.pushesOne hOne)
    exact ⟨value, hStack⟩
  have hNamed : ((List.range effect.pushes).map
      (Value.pushed source (trail.count source))).length = effect.pushes := by simp
  refine ⟨[], trail, value, rfl, List.not_mem_nil, by rw [hStack]; rfl, ?_, ?_⟩
  · rw [h.stack_cons h.old_anchor hInstr hEffect, CodeView.stack_cons h.old_anchor hInstr hEffect,
      if_neg hLeave, if_neg hLeave, List.take_left' hNamed, List.take_left' hNamed]
  · rw [h.stack_cons h.old_anchor hInstr hEffect, if_neg hLeave,
      List.getElem?_append_right hNamed.le, hNamed, Nat.sub_self, expandTo, if_pos rfl, hStack,
      hNone]
    rfl

/-- The value stays where it is while nothing is taken but what is above it. -/
theorem underlies_next (h : v.Spliced v' source first code) (hOld : a.index < first)
    (hOther : a ≠ source) (hEffect : v.effect a = .ok effect) (hStays : ¬ v.Leaves a)
    (hPops : effect.pops ≤ n) (hUnder : v.Underlies v' source first code start trail n) :
    v.Underlies v' source first code start (a :: trail) (effect.pushes + (n - effect.pops)) := by
  obtain ⟨i, hInstr⟩ := exists_instr hEffect
  have hLeave : i.opcode ≠ .leave := fun hLeave => hStays ⟨i, hInstr, hLeave⟩
  obtain ⟨later, earlier, value, hTrail, hGone, hValue, hTake, hBeneath⟩ := hUnder
  have hNamed : ((List.range effect.pushes).map (Value.pushed a (trail.count a))).length
      = effect.pushes := by simp
  have hTo : expandTo source (numbers first code) a trail
      = expand source (numbers first code) trail := by
    rw [expandTo, if_neg hOther, List.nil_append]
  have hLevel : effect.pops + (n - effect.pops) = n := by omega
  refine ⟨a :: later, earlier, value, by rw [hTrail]; rfl, ?_, hValue, ?_, ?_⟩
  · exact List.mem_cons.not.mpr (not_or.mpr ⟨hOther.symm, hGone⟩)
  · rw [h.stack_cons hOld hInstr hEffect, CodeView.stack_cons hOld hInstr hEffect, if_neg hLeave,
      if_neg hLeave, hTo, List.take_append, List.take_append, hNamed, Nat.add_sub_cancel_left,
      List.take_drop, List.take_drop, hLevel, hTake]
  · rw [h.stack_cons hOld hInstr hEffect, if_neg hLeave, hTo,
      List.getElem?_append_right (hNamed.le.trans (Nat.le_add_right ..)), hNamed,
      Nat.add_sub_cancel_left, List.getElem?_drop, hLevel, hBeneath]

/-- New code ahead of a source leaves its value right beneath what stems from the source, however
often a walk goes round before it takes that. -/
theorem underlies (h : v.Spliced v' source first code) (hHeights : v.HasHeights height)
    (hReach : ∀ id ∈ v.index.order, v.Reachable id) (hOne : v.program.PushesOne v.method code)
    (hWalk : v.Walks start trail id) (hStems : v.StemsFrom height source id) :
    v.Underlies v' source first code start trail (height id - height source) := by
  have hTrace := hHeights.retraceable hReach
  induction hWalk with
  | enter hEnters => exact (hStems.not_entered hTrace.toHasHeightsOn hEnters).elim
  | @step start trail a b hWalk hFlow ih =>
      obtain ⟨effect, hEffect, hStays, hHeight, hAbove, hBefore⟩ :=
        hStems.back hTrace (hReach b (hHeights.targets a b hFlow)) hFlow
      rcases hBefore with rfl | hBefore
      · have hPushed : height b - height a = effect.pushes := by omega
        exact hPushed ▸ h.underlies_source hOne hEffect hStays (by omega)
      · have hPushed : height b - height source
            = effect.pushes + (height a - height source - effect.pops) := by omega
        exact hPushed ▸ h.underlies_next (h.old a (hHeights.mem_order hFlow)) hBefore.ne hEffect
          hStays (by omega) (ih hBefore)

end Spliced

/-- A value lies right beneath the operands from `slot` on of an instruction that takes `pops`
values, and on top of all of them where there are no more than `slot`. These operands are as they
were before the value was put there. -/
structure Lies (value : Value) (pops slot : Nat) (before after : List Value) : Prop where
  taken : pops ≤ before.length
  operands : after.take (pops - slot) = before.take (pops - slot)
  beneath : after[pops - slot]? = some value
  onTop : pops ≤ slot → after.tail.take pops = before.take pops

/-- A value that is put in beneath operands which are there lies where it is wanted. -/
theorem Lies.inserted {value : Value} {pops slot : Nat} {before after : List Value}
    (hTaken : pops ≤ before.length) (hSame : after.take pops = before.take pops) :
    Lies value pops slot before
      (after.take (pops - slot) ++ value :: after.drop (pops - slot)) := by
  have hShort : pops - slot ≤ pops := Nat.sub_le ..
  have hThere : pops ≤ after.length := by
    have hLength := congrArg List.length hSame
    rw [List.length_take, List.length_take, Nat.min_eq_left hTaken] at hLength
    omega
  have hFew : (after.take (pops - slot)).length = pops - slot :=
    List.length_take_of_le (hShort.trans hThere)
  refine ⟨hTaken, ?_, ?_, fun hAll => ?_⟩
  · rw [List.take_left' hFew, ← Nat.min_eq_left hShort, ← List.take_take, hSame, List.take_take]
  · rw [List.getElem?_append_right hFew.le, hFew, Nat.sub_self]
    rfl
  · rw [Nat.sub_eq_zero_of_le hAll]
    exact hSame

/-- The part of a trail that the old body has. -/
def kept (v : CodeView) (trail : List InstrId) : List InstrId :=
  trail.filter fun id => id.index < v.body.nextId

/-- A trail over the old code and one over the new code end at an instruction with the same
operands, and the value that the code from number `first` on left, when it was passed last, lies
beneath them. -/
def Lands (v v' : CodeView) (first : Nat) (seq : List Instruction) (pops slot : Nat)
    (start : List Value) (trail trail' : List InstrId) : Prop :=
  ∃ later earlier value, trail' = later ++ ((numbers first seq).reverse ++ earlier) ∧
    (∀ other ∈ numbers first seq, other ∉ later) ∧
    (v'.frame v.body.nextId start ((numbers first seq).reverse ++ earlier)).stack.head?
      = some value ∧
    Lies value pops slot (v.frame v.body.nextId start trail).stack
      (v'.frame v.body.nextId start trail').stack

/-- On every walk over the new code that comes to an instruction, a value lies beneath operands
that are what they are on the walk over the old code. -/
def Delivers (v v' : CodeView) (first : Nat) (seq : List Instruction) (id : InstrId)
    (pops slot : Nat) : Prop :=
  ∀ start trail, v'.Walks start trail id →
    v.Walks start (v.kept trail) id ∧ v.Lands v' first seq pops slot start (v.kept trail) trail

/-- The view `v'` is `v` with a value put beneath operands of an instruction. The code that pushes
it is there once, and delivers it on every walk. The walks over the old body are what the new ones
have of it. Apart from that code, what is new only names locals that are new as well. -/
structure Placed (v v' : CodeView) (seq : List Instruction) (id : InstrId) (pops slot : Nat) :
    Prop where
  delivers : ∃ first, v.body.nextId ≤ first ∧
    MethodBody.number first seq <:+: v'.body.instructions ∧ v.Delivers v' first seq id pops slot
  covers : ∀ start trail, v.Walks start trail id → ∃ trail', v'.Walks start trail' id ∧
    v.kept trail' = trail
  locals : v.body.locals <+: v'.body.locals
  untouched : ∃ anchor, ∀ i ∈ v'.body.instructions,
    (∃ j ∈ v.body.instructions, i = j.retarget anchor ⟨v.body.nextId⟩) ∨
      v.body.nextId ≤ i.id.index ∧ ∀ l, i.localVar? = some l → v.body.locals.length ≤ l

namespace Spliced

variable {code seq : List Instruction} {start : List Value} {trail : List InstrId} {pops slot : Nat}

theorem kept_expandTo (h : v.Spliced v' source v.body.nextId code)
    (hCurrent : v.index = FlowIndex.build v.body) (hWalk : v.Walks start trail id) :
    v.kept (expandTo source (numbers v.body.nextId code) id trail) = trail := by
  refine filter_expandTo (fun other hMem => ?_) (fun other hMem => ?_) id
  · exact decide_eq_true (h.old other (hWalk.mem_order hCurrent other hMem))
  · exact decide_eq_false (Nat.not_lt.mpr (numbers_new hMem))

/-- Each walk over the old body is what some walk with the new code has of it. -/
theorem covers (h : v.Spliced v' source v.body.nextId code)
    (hCurrent : v.index = FlowIndex.build v.body) (hWalk : v.Walks start trail id) :
    ∃ trail', v'.Walks start trail' id ∧ v.kept trail' = trail :=
  ⟨_, h.walks_expandTo hWalk, h.kept_expandTo hCurrent hWalk⟩

/-- The walks over the new code are those over the old code, with the new code put in. -/
theorem delivers_of (h : v.Spliced v' source v.body.nextId code) (hHeights : v.HasHeights height)
    (hMem : id ∈ v.index.order) {first : Nat}
    (hAll : ∀ start trail, v.Walks start trail id → v.Lands v' first seq pops slot start trail
      (expandTo source (numbers v.body.nextId code) id trail)) :
    v.Delivers v' first seq id pops slot := by
  intro start trail' hWalk'
  obtain ⟨trail, hWalk, rfl⟩ := h.of_walks_old (fun _ _ => hHeights.mem_order) hHeights.targets
    (h.old id hMem) hWalk'
  rw [h.kept_expandTo hHeights.current hWalk]
  exact ⟨hWalk, hAll start trail hWalk⟩

/-- Between stores and loads of the operands above it, or right ahead of the instruction where there
are none, the code leaves its value where it is wanted. -/
theorem delivers_between {locals : List Nat}
    (h : v.Spliced v' id v.body.nextId (between locals seq)) (hHeights : v.HasHeights height)
    {effect : StackEffect} (hEffect : v.effect id = .ok effect) (hDistinct : locals.Nodup)
    (hCount : locals.length = effect.pops - slot) (hOne : v.program.PushesOne v.method seq) :
    v.Delivers v' (v.body.nextId + locals.length) seq id effect.pops slot := by
  have hMem := mem_order_of_effect hEffect
  refine h.delivers_of hHeights hMem fun start trail hWalk => ?_
  have hPops : effect.pops ≤ height id := hHeights.pops_le hEffect
  let since := v.body.nextId
  let before := (v.frame since start trail).stack
  let new := numbers since (between locals seq)
  let ahead := (v'.frame since start (expand id new trail)).stack
  have hTaken : effect.pops ≤ before.length := (hWalk.length_stack hHeights h.old) ▸ hPops
  have hAgree : ahead.take effect.pops = before.take effect.pops := by
    have hAbove := h.take_stack hHeights hEffect hWalk
    rwa [Nat.sub_sub_self hPops] at hAbove
  have hFew : locals.length ≤ ahead.length := by
    have hLength := congrArg List.length hAgree
    rw [List.length_take, List.length_take, Nat.min_eq_left hTaken] at hLength
    omega
  obtain ⟨value, hHead, hAfter⟩ :=
    frame_between (Nat.le_refl since) hDistinct h.holds (h.pushesOne hOne) hFew
  have hTo : expandTo id new id trail = (numbers (since + locals.length + seq.length)
      (locals.map (Instruction.onLocal .ldloc))).reverse ++
        ((numbers (since + locals.length) seq).reverse ++
          ((numbers since (locals.reverse.map (Instruction.onLocal .stloc))).reverse ++
            expand id new trail)) := by
    rw [expandTo, if_pos rfl]
    simp only [new, numbers_between, List.reverse_append, List.append_assoc]
  have hStack : (v'.frame since start (expandTo id new id trail)).stack
      = ahead.take locals.length ++ value :: ahead.drop locals.length := by
    rw [expandTo, if_pos rfl]
    exact hAfter
  refine ⟨_, _, value, hTo, fun other hNew hLater => ?_, hHead, ?_⟩
  · have hFirst := MethodBody.mem_numbers.mp hNew
    have hLast := MethodBody.mem_numbers.mp (List.mem_reverse.mp hLater)
    omega
  · rw [hStack, hCount]
    exact .inserted hTaken hAgree

/-- Ahead of the source of an operand, the code leaves its value where it is wanted. -/
theorem delivers_ahead (h : v.Spliced v' source v.body.nextId seq) (hHeights : v.HasHeights height)
    (hReach : ∀ id ∈ v.index.order, v.Reachable id) {effect : StackEffect}
    (hEffect : v.effect id = .ok effect) (hSlot : slot < effect.pops)
    (hStems : v.StemsFrom height source id)
    (hHeight : height source + (effect.pops - slot) = height id)
    (hOne : v.program.PushesOne v.method seq) :
    v.Delivers v' v.body.nextId seq id effect.pops slot := by
  have hMem := mem_order_of_effect hEffect
  refine h.delivers_of hHeights hMem fun start trail hWalk => ?_
  have hPops : effect.pops ≤ height id := hHeights.pops_le hEffect
  obtain ⟨later, earlier, value, hTrail, hGone, hHead, hTake, hBeneath⟩ :=
    h.underlies hHeights hReach hOne hWalk hStems
  have hAbove : height id - height source = effect.pops - slot := by omega
  have hTo : expandTo source (numbers v.body.nextId seq) id trail
      = expand source (numbers v.body.nextId seq) trail := by
    rw [expandTo, if_neg hStems.ne, List.nil_append]
  rw [hTo]
  rw [hAbove] at hTake hBeneath
  have hSplit : expand source (numbers v.body.nextId seq) trail
      = (expand source (numbers v.body.nextId seq) later ++ [source]) ++
        ((numbers v.body.nextId seq).reverse ++
          expand source (numbers v.body.nextId seq) earlier) := by
    rw [hTrail, expand_append, expand_cons_self, List.append_assoc]
    rfl
  refine ⟨_, _, value, hSplit, fun other hNew hLater => ?_, hHead,
    ⟨(hWalk.length_stack hHeights h.old).symm ▸ hPops, hTake, hBeneath, fun hAll => ?_⟩⟩
  · have hFirst := numbers_new hNew
    have hOld : other.index < v.body.nextId := by
      rcases List.mem_append.mp hLater with hLater | hLater
      · rcases mem_expand hLater with hLater | ⟨hAgain, -⟩
        · refine h.old other (hWalk.mem_order hHeights.current other ?_)
          rw [hTrail]
          exact List.mem_append_left _ hLater
        · exact (hGone hAgain).elim
      · exact List.mem_singleton.mp hLater ▸ h.old_anchor
    omega
  · exact (Nat.not_lt.mpr hAll hSlot).elim

end Spliced

end CodeView

namespace MethodBody

variable {b b' : MethodBody} {types : List TypeRef} {anchor : InstrId} {seq : List Instruction}

/-- New locals get the numbers after those that are there, while there is room. -/
theorem addLocals_ok {locals : List Nat} (hRoom : b.locals.length + types.length ≤ 65536)
    (h : types.mapM addLocal b = .ok locals b') :
    locals = List.range' b.locals.length types.length ∧
      ∃ revision, b' = { b with locals := b.locals ++ types, revision := revision } := by
  induction types generalizing b locals with
  | nil =>
      obtain ⟨rfl, rfl⟩ := Step.pure_ok.mp h
      exact ⟨rfl, b.revision, by simp⟩
  | cons type types ih =>
      obtain ⟨l, c, rest, hFirst, hRest, rfl⟩ := Step.mapM_cons_ok.mp h
      simp only [addLocal, Step.bind_ok, Step.get_ok, Step.set_ok, Step.pure_ok] at hFirst
      obtain ⟨_, _, ⟨rfl, rfl⟩, _, _, rfl, rfl, rfl⟩ := hFirst
      rw [List.length_cons] at hRoom
      have hLeft : (b.locals ++ [type]).length + types.length ≤ 65536 := by
        rw [List.length_append, List.length_singleton]
        omega
      obtain ⟨rfl, revision, rfl⟩ := ih hLeft hRest
      refine ⟨?_, revision, by simp⟩
      rw [Nat.mod_eq_of_lt (by omega), List.length_cons, List.range'_succ, List.length_append,
        List.length_singleton]

theorem number_infix (first : Nat) (before seq after : List Instruction) :
    number (first + before.length) seq <:+: number first (before ++ (seq ++ after)) := by
  rw [number_append, number_append]
  exact ⟨_, _, List.append_assoc ..⟩

theorem mem_number_operand {first : Nat} {code : List Instruction} {i : Instruction}
    (h : i ∈ number first code) : ∃ j ∈ code, i.operand = j.operand := by
  induction code generalizing first with
  | nil => exact (List.not_mem_nil h).elim
  | cons j code ih =>
      rw [number, List.mem_cons] at h
      rcases h with rfl | h
      · exact ⟨j, List.mem_cons_self .., rfl⟩
      · obtain ⟨k, hMem, hSame⟩ := ih h
        exact ⟨k, List.mem_cons_of_mem _ hMem, hSame⟩

namespace Inserts

variable {code : List Instruction}

/-- If the new code names no local of the old body, nothing new does. -/
theorem untouched (h : b.Inserts anchor code b')
    (hLocals : ∀ i ∈ code, ∀ l, i.localVar? = some l → b.locals.length ≤ l) :
    ∀ i ∈ b'.instructions, (∃ j ∈ b.instructions, i = j.retarget anchor ⟨b.nextId⟩) ∨
      b.nextId ≤ i.id.index ∧ ∀ l, i.localVar? = some l → b.locals.length ≤ l := by
  intro i hMem
  obtain ⟨before, k, after, hBefore, -, hAfter⟩ := h.spliced
  have hOld {part : List Instruction} (hPart : part ⊆ b.instructions)
      (hIn : i ∈ part.map (Instruction.retarget anchor ⟨b.nextId⟩)) :
      ∃ j ∈ b.instructions, i = j.retarget anchor ⟨b.nextId⟩ := by
    obtain ⟨j, hThere, rfl⟩ := List.mem_map.mp hIn
    exact ⟨j, hPart hThere, rfl⟩
  rw [hAfter, List.mem_append, List.mem_append] at hMem
  rcases hMem with (hMem | hMem) | hMem
  · exact Or.inl (hOld (hBefore ▸ List.subset_append_left ..) hMem)
  · obtain ⟨j, hThere, hSame⟩ := mem_number_operand hMem
    refine Or.inr ⟨(mem_number hMem).2.1, fun l hLocal => hLocals j hThere l ?_⟩
    rw [← hLocal, Instruction.localVar?, Instruction.localVar?, hSame]
  · exact Or.inl (hOld (hBefore ▸ List.subset_append_right ..) hMem)

section Placed

variable {p p' : Program} {method : MethodId} {height : InstrId → Nat} {id source : InstrId}
  {effect : StackEffect} {slot : Nat}

theorem placed_between {added : List TypeRef}
    (h : b.Inserts id (CodeView.between (List.range' b.locals.length added.length) seq) b')
    (hNumbered : b.Numbered)
    (hHandlers : ∀ handler ∈ b.handlers, handler.handlerStart.index < b.nextId)
    (hHeights : (CodeView.ofBody p method b).HasHeights height)
    (hEffect : (CodeView.ofBody p method b).effect id = .ok effect)
    (hEffects : p'.stackEffect = p.stackEffect) (hOne : p.PushesOne method seq)
    (hCount : added.length = effect.pops - slot) (hLocals : b'.locals = b.locals ++ added) :
    (CodeView.ofBody p method b).Placed (.ofBody p' method b') seq id effect.pops slot := by
  let locals := List.range' b.locals.length added.length
  have hOnNew {opcode : OpCode} {codes : List Nat} (hCodes : codes ⊆ locals) :
      ∀ i ∈ codes.map (Instruction.onLocal opcode), ∀ l, i.localVar? = some l →
        b.locals.length ≤ l := by
    intro i hMem l hLocal
    obtain ⟨l', hThere, rfl⟩ := List.mem_map.mp hMem
    obtain rfl : l' = l := Option.some_inj.mp hLocal
    exact (List.mem_range'_1.mp (hCodes hThere)).1
  have hStraight : ∀ i ∈ CodeView.between locals seq, i.opcode.flow = .next := by
    intro i hMem
    simp only [CodeView.between, List.mem_append, List.mem_map] at hMem
    rcases hMem with ⟨l, -, rfl⟩ | hMem | ⟨l, -, rfl⟩
    · rfl
    · exact hOne.straight i hMem
    · rfl
  have hNew : ∀ i ∈ CodeView.between locals seq, ∀ l, i.localVar? = some l →
      b.locals.length ≤ l := by
    intro i hMem l hLocal
    simp only [CodeView.between, List.mem_append] at hMem
    rcases hMem with hMem | hMem | hMem
    · exact hOnNew (fun _ => List.mem_reverse.mp) i hMem l hLocal
    · cases (hOne.noLocal i hMem).symm.trans hLocal
    · exact hOnNew (fun _ hThere => hThere) i hMem l hLocal
  have hSpliced : (CodeView.ofBody p method b).Spliced (.ofBody p' method b') id b.nextId
      (CodeView.between locals seq) := h.spliced_view hNumbered hHandlers hStraight hEffects
  have hLength : locals.length = effect.pops - slot := List.length_range'.trans hCount
  refine ⟨⟨b.nextId + locals.length, Nat.le_add_right .., ?_, ?_⟩,
    fun _ _ => hSpliced.covers hHeights.current, hLocals ▸ List.prefix_append ..,
    id, h.untouched hNew⟩
  · have hBetween := MethodBody.number_infix b.nextId
      (locals.reverse.map (Instruction.onLocal .stloc)) seq
      (locals.map (Instruction.onLocal .ldloc))
    rw [List.length_map, List.length_reverse] at hBetween
    exact hBetween.trans h.number_infix
  · exact hSpliced.delivers_between hHeights hEffect (List.nodup_range' ..) hLength hOne

theorem placed_ahead (h : b.Inserts source seq b') (hNumbered : b.Numbered)
    (hHandlers : ∀ handler ∈ b.handlers, handler.handlerStart.index < b.nextId)
    (hHeights : (CodeView.ofBody p method b).HasHeights height)
    (hEffect : (CodeView.ofBody p method b).effect id = .ok effect)
    (hEffects : p'.stackEffect = p.stackEffect) (hOne : p.PushesOne method seq)
    (hReach : ∀ other ∈ b.instructions.map (·.id), (CodeView.ofBody p method b).Reachable other)
    (hSlot : slot < effect.pops)
    (hStems : (CodeView.ofBody p method b).StemsFrom height source id)
    (hHeight : height source + (effect.pops - slot) = height id) (hLocals : b'.locals = b.locals) :
    (CodeView.ofBody p method b).Placed (.ofBody p' method b') seq id effect.pops slot := by
  have hSpliced : (CodeView.ofBody p method b).Spliced (.ofBody p' method b') source b.nextId seq :=
    h.spliced_view hNumbered hHandlers hOne.straight hEffects
  refine ⟨⟨b.nextId, Nat.le_refl _, h.number_infix, ?_⟩,
    fun _ _ => hSpliced.covers hHeights.current, hLocals ▸ List.prefix_refl _,
    source, h.untouched fun i hMem l hLocal => ?_⟩
  · exact hSpliced.delivers_ahead hHeights hReach hEffect hSlot hStems hHeight hOne
  · cases (hOne.noLocal i hMem).symm.trans hLocal

end Placed

end Inserts

/-- Spilling puts the code in between stores and loads of as many new locals as there are types. -/
theorem spill_inserts {n : Nat} (hRoom : b.locals.length + types.length ≤ 65536) (hSome : seq ≠ [])
    (h : Placement.spill types anchor seq b = .ok n b') :
    b'.locals = b.locals ++ types ∧
      b.Inserts anchor (CodeView.between (List.range' b.locals.length types.length) seq) b' := by
  obtain ⟨locals, c, hLocals, h⟩ := Step.bind_ok.mp h
  obtain ⟨rfl, revision, rfl⟩ := addLocals_ok hRoom hLocals
  obtain ⟨ids, c, hInsert, h⟩ := Step.bind_ok.mp h
  obtain ⟨-, rfl⟩ := Step.pure_ok.mp h
  rw [List.append_assoc] at hInsert
  have hCode : CodeView.between (List.range' b.locals.length types.length) seq ≠ [] := by
    simp [CodeView.between, hSome]
  obtain ⟨hInserts, hSame⟩ := insertBefore_inserts hCode hInsert
  exact ⟨hSame, hInserts.nonempty, hInserts.spliced, hInserts.handlers⟩

end MethodBody

namespace CodeEdit

variable {w w' : Workspace} {method : MethodId} {b : MethodBody} {id : InstrId} {slot : Nat}
  {seq : List Instruction} {placement : Placement} {effect : StackEffect}

theorem spillTypes_ok {slots : List Nat} {types : List TypeRef}
    (h : slots.mapM (spillType method id) w = .ok types w') :
    types.length = slots.length ∧ w'.program = w.program := by
  induction slots generalizing w types with
  | nil =>
      obtain ⟨rfl, rfl⟩ := Step.pure_ok.mp h
      exact ⟨rfl, rfl⟩
  | cons slot slots ih =>
      obtain ⟨type, u, types, hFirst, hRest, rfl⟩ := Step.mapM_cons_ok.mp h
      obtain ⟨hLength, hSame⟩ := ih hRest
      obtain ⟨found, u', hQuery, hPure⟩ := Step.bind_ok.mp hFirst
      obtain ⟨flow, -, rfl⟩ := query_ok.mp hQuery
      have hEnd : u = { w with flow := flow } := by
        cases found with
        | known type => exact (Step.pure_ok.mp hPure).2.symm
        | null => exact (Step.pure_ok.mp hPure).2.symm
        | divergent => exact (Step.pure_ok.mp hPure).2.symm
      rw [hEnd] at hSame
      exact ⟨congrArg Nat.succ hLength, hSame⟩

/-- An edit of the code of a method is one of its body. -/
theorem editBody_ok {α : Type} {e : BodyEdit α} {a : α} (hBody : w.program.body method = .ok b)
    (h : edit (Program.editBody method e) w = .ok a w') :
    ∃ b', e b = .ok a b' ∧ w'.program = w.program.touch.putBody method b' := by
  obtain ⟨p, hEdit, rfl⟩ := edit_ok.mp h
  obtain ⟨m, c, b', hMethod, hCode, hDone, rfl⟩ := Program.editBody_ok hEdit
  obtain rfl := Except.ok.inj (hBody.symm.trans (Program.body_ok.mpr ⟨m, hMethod, hCode⟩))
  exact ⟨b', hDone, rfl⟩

theorem insertAhead_ok {anchor : InstrId} (hBody : w.program.body method = .ok b) (hSome : seq ≠ [])
    (h : insertAhead method anchor seq w = .ok placement w') :
    ∃ b', w'.program = w.program.touch.putBody method b' ∧ b'.locals = b.locals ∧
      b.Inserts anchor seq b' := by
  obtain ⟨ids, u, hEdit, h⟩ := Step.bind_ok.mp h
  obtain ⟨-, rfl⟩ := Step.pure_ok.mp h
  obtain ⟨b', hInsert, hProgram⟩ := editBody_ok hBody hEdit
  obtain ⟨hInserts, hSame⟩ := MethodBody.insertBefore_inserts hSome hInsert
  exact ⟨b', hProgram, hSame, hInserts⟩

/-- Where a value is inserted: right ahead of the instruction, between stores and loads of the
operands that it has to be beneath, or ahead of the one exact path to the first of these. -/
theorem insertBelow_ok (hBody : w.program.body method = .ok b) (hNumbered : b.Numbered)
    (hEffect : (CodeView.ofBody w.program method b).effect id = .ok effect)
    (hRoom : b.locals.length + (effect.pops - slot) ≤ 65536) (hSome : seq ≠ [])
    (h : insertBelow method id slot seq w = .ok placement w') :
    ∃ b', w'.program = w.program.touch.putBody method b' ∧
      ((∃ added, added.length = effect.pops - slot ∧ b'.locals = b.locals ++ added ∧
        b.Inserts id (CodeView.between (List.range' b.locals.length added.length) seq) b') ∨
      slot < effect.pops ∧ b'.locals = b.locals ∧ ∃ path source after,
        Query.operand w.program method id slot w.flow = .ok [path] after ∧
          path.isInsertable = true ∧ path.start? = some source ∧ b.Inserts source seq b') := by
  obtain ⟨i, _, hInstr, h⟩ := Step.bind_ok.mp h
  obtain ⟨⟨c, hCode, hGet⟩, rfl⟩ := instruction_ok.mp hInstr
  obtain rfl := Except.ok.inj (hBody.symm.trans hCode)
  obtain ⟨effect', _, hQuery, h⟩ := Step.bind_ok.mp h
  obtain ⟨flow, hLift, rfl⟩ := query_ok.mp hQuery
  obtain ⟨hStack, rfl⟩ := Step.lift_ok.mp hLift
  obtain ⟨hMem, rfl⟩ := MethodBody.mem_of_get? hGet
  have hThere : (CodeView.ofBody w.program method b).instr i.id = .ok i :=
    CodeView.ofBody_instr hNumbered.distinct hMem
  obtain rfl : effect' = effect := by
    rw [CodeView.effect_of_instr hThere] at hEffect
    exact Except.ok.inj (hStack.symm.trans hEffect)
  split at h
  · rename_i hAll
    obtain ⟨b', hProgram, hLocals, hInserts⟩ := insertAhead_ok hBody hSome h
    refine ⟨b', hProgram, Or.inl ⟨[], (Nat.sub_eq_zero_of_le hAll).symm, by simp [hLocals], ?_⟩⟩
    simpa [CodeView.between] using hInserts
  · rename_i hSlot
    have hSlot := Nat.not_le.mp hSlot
    obtain ⟨paths, _, hQuery, h⟩ := Step.bind_ok.mp h
    obtain ⟨flow, hPaths, rfl⟩ := query_ok.mp hQuery
    cases hAnchor : Placement.anchor? paths with
    | some source =>
        simp only [hAnchor] at h
        obtain ⟨b', hProgram, hLocals, hInserts⟩ :=
          insertAhead_ok (w := { w with flow := flow }) hBody hSome h
        obtain ⟨path, rfl, hInsertable, hStart⟩ := Placement.anchor?_eq_some hAnchor
        exact ⟨b', hProgram, Or.inr ⟨hSlot, hLocals, path, source, flow, hPaths, hInsertable,
          hStart, hInserts⟩⟩
    | none =>
        simp only [hAnchor] at h
        obtain ⟨types, u, hTypes, h⟩ := Step.bind_ok.mp h
        obtain ⟨hCount, hSame⟩ := spillTypes_ok hTypes
        rw [List.length_drop, List.length_range] at hCount
        obtain ⟨n, u', hEdit, h⟩ := Step.bind_ok.mp h
        obtain ⟨-, rfl⟩ := Step.pure_ok.mp h
        obtain ⟨b', hSpill, hProgram⟩ := editBody_ok (hSame ▸ hBody) hEdit
        obtain ⟨hLocals, hInserts⟩ := MethodBody.spill_inserts (hCount ▸ hRoom) hSome hSpill
        exact ⟨b', hSame ▸ hProgram, Or.inl ⟨types, hCount, hLocals, hInserts⟩⟩

/-- Inserting a value beneath operands puts it there. On every walk that comes to the instruction,
over the new code, the operands from `slot` on are what they are on the walk over the old code that
it keeps, and right beneath them, or on top if there are no more operands than `slot`, lies what
`seq` left when the walk passed it last. All walks over the old code are kept by some walk, and no
local of the old code is written. This holds for all code with stack heights in which everything can
be reached, with handlers that start at numbers which were handed out. -/
theorem insertBelow_delivers {height : InstrId → Nat} (hBody : w.program.body method = .ok b)
    (hCache : w.flow.Describes method b) (hNumbered : b.Numbered)
    (hHandlers : ∀ handler ∈ b.handlers, handler.handlerStart.index < b.nextId)
    (hHeights : (CodeView.ofBody w.program method b).HasHeights height)
    (hReach : ∀ other ∈ b.instructions.map (·.id),
      (CodeView.ofBody w.program method b).Reachable other)
    (hEffect : (CodeView.ofBody w.program method b).effect id = .ok effect)
    (hRoom : b.locals.length + (effect.pops - slot) ≤ 65536)
    (hOne : w.program.PushesOne method seq)
    (h : insertBelow method id slot seq w = .ok placement w') :
    ∃ b', w'.program.body method = .ok b' ∧ (CodeView.ofBody w.program method b).Placed
      (.ofBody w'.program method b') seq id effect.pops slot := by
  obtain ⟨b', hProgram, hInserted⟩ := insertBelow_ok hBody hNumbered hEffect hRoom hOne.ne_nil h
  obtain ⟨m, hMethod, -⟩ := Program.body_ok.mp hBody
  rw [hProgram]
  refine ⟨b', Program.body_putBody (p := w.program.touch) hMethod, ?_⟩
  have hEffects : (w.program.touch.putBody method b').stackEffect = w.program.stackEffect :=
    (Program.DiffersIn.putBody w.program method b').stackEffect.symm
  rcases hInserted with ⟨added, hCount, hLocals, hInserts⟩ |
    ⟨hSlot, hLocals, path, source, after, hPaths, hInsertable, hStart, hInserts⟩
  · exact hInserts.placed_between hNumbered hHandlers hHeights hEffect hEffects hOne hCount hLocals
  · have hMem := CodeView.mem_order_of_effect hEffect
    have hPops : effect.pops ≤ height id := hHeights.pops_le hEffect
    have hAnswers := CodeView.operand_answers hEffect hSlot (Query.of_ask_ok hBody hCache hPaths)
    obtain ⟨hStems, hHeight⟩ := hAnswers.stemsFrom (hHeights.retraceable hReach) (hReach id hMem)
      (by omega) hInsertable hStart
    exact hInserts.placed_ahead hNumbered hHandlers hHeights hEffect hEffects hOne hReach hSlot
      hStems (by omega) hLocals

/-- A call whose first argument comes from either of two branches. -/
def branchedCall : MethodBody :=
  .ofParts [⟨⟨0⟩, .ldarg, .arg 0⟩, ⟨⟨1⟩, .brfalse, .target ⟨4⟩⟩, ⟨⟨2⟩, .ldcI4, .int32 1⟩,
    ⟨⟨3⟩, .br, .target ⟨5⟩⟩, ⟨⟨4⟩, .ldcI4, .int32 2⟩, ⟨⟨5⟩, .ldcI4, .int32 3⟩,
    ⟨⟨6⟩, .call, .method ⟨1⟩⟩, ⟨⟨7⟩, .ret, .none⟩] [] []

/-- The stack heights of the call and what is ahead of it. -/
def branchedHeight (id : InstrId) : Nat := [0, 1, 0, 1, 0, 1, 2, 0].getD id.index 0

/-- A program with the call in the code of a method, about which nothing was asked yet. -/
def branchedWorkspace : Workspace where
  program :=
    { Program.empty with
      methods := [⟨⟨0⟩, "Run", [⟨"flag", .bool⟩], .void, .ofList [.static], [], some branchedCall⟩,
        ⟨⟨0⟩, "Use", [⟨"a", .int32⟩, ⟨"b", .int32⟩], .void, .ofList [.static], [], none⟩] }
  flow := .empty

/-- Both arguments of the call are stored, so that a text comes to lie beneath them. -/
theorem branchedCall_delivers : ∃ w',
    insertBelow ⟨0⟩ ⟨6⟩ 0 [.unplaced .ldstr (.text "h")] branchedWorkspace
      = .ok (.spilled 2) w' ∧
    ∃ b', w'.program.body ⟨0⟩ = .ok b' ∧
      (CodeView.ofBody branchedWorkspace.program ⟨0⟩ branchedCall).Placed
        (.ofBody w'.program ⟨0⟩ b') [.unplaced .ldstr (.text "h")] ⟨6⟩ 2 0 := by
  have hTrace : (CodeView.ofBody branchedWorkspace.program ⟨0⟩ branchedCall).Traceable
      branchedHeight := CodeView.traceable_of_isTraceable rfl (by decide)
  have hCheck : Step.yields
      (insertBelow ⟨0⟩ ⟨6⟩ 0 [.unplaced .ldstr (.text "h")] branchedWorkspace)
      (fun placement _ => decide (placement = .spilled 2)) = true := by decide +kernel
  obtain ⟨placement, w', hRun, hSpilled⟩ := Step.ok_of_yields hCheck
  obtain rfl := of_decide_eq_true hSpilled
  have hEffect : (CodeView.ofBody branchedWorkspace.program ⟨0⟩ branchedCall).effect ⟨6⟩
      = .ok ⟨2, 0⟩ := rfl
  exact ⟨w', hRun, insertBelow_delivers rfl (.empty _ _) (by decide) (by decide)
    hTrace.toHasHeights hTrace.reachable hEffect (by decide)
    ⟨by decide, by decide, ⟨0, 1⟩, rfl, by decide, rfl⟩ hRun⟩

end CodeEdit

end ContextBinding
