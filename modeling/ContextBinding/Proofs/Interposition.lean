import ContextBinding.Proofs.History
import ContextBinding.Proofs.Splice
import Mathlib.Data.List.TakeWhile

/-! Code put ahead of an instruction stands between it and all that led there. Edges change in two
ways, by what is next to each other and by what jumps name, and regions in a third, by where they
begin and end; the three agree on where the new code belongs. -/

namespace ContextBinding

namespace MethodBody

/-- Control may go from one instruction on to the other. -/
def Edge (b : MethodBody) (a y : InstrId) : Prop := y ∈ (FlowIndex.build b).successors a

/-- The instructions of a region: those from its start on, up to its end. -/
def region (b : MethodBody) (start stop : InstrId) : List InstrId :=
  (b.ids.dropWhile (· != start)).takeWhile (· != stop)

/-- An instruction, with the new ones ahead of it if it is their anchor. -/
def withAhead (anchor : InstrId) (new : List InstrId) (id : InstrId) : List InstrId :=
  if id = anchor then new ++ [anchor] else [id]

/-- The new instructions `first :: rest` stand ahead of `anchor`, where control and regions are
concerned. -/
structure Interposed (b : MethodBody) (anchor first : InstrId) (rest : List InstrId)
    (b' : MethodBody) : Prop where
  fresh : ∀ id ∈ first :: rest, id ∉ b.ids
  order : b'.ids = b.ids.flatMap (withAhead anchor (first :: rest))
  /-- What led to the anchor leads to the new code. -/
  ahead : ∀ a, b'.Edge a first ↔ b.Edge a anchor
  /-- The new code is entered at its start only, and left for the anchor only. -/
  within : ∀ x y, (x, y) ∈ (first :: rest).zip (rest ++ [anchor]) → ∀ a, b'.Edge a y ↔ a = x
  apart : ∀ y ∈ b.ids, y ≠ anchor → ∀ a, b'.Edge a y ↔ b.Edge a y
  handlers : b'.handlers = b.handlers.map (Handler.mapBoundaries (anchor.redirect first))
  /-- A region has the new instructions if and only if it had the anchor. -/
  regions : ∀ start stop, start ∉ first :: rest → stop ∉ first :: rest →
    b'.region (anchor.redirect first start) (anchor.redirect first stop)
      = (b.region start stop).flatMap (withAhead anchor (first :: rest))
  began : ∀ stop, stop ∉ first :: rest → stop ≠ anchor →
    first :: rest ⊆ b'.region (anchor.redirect first anchor) (anchor.redirect first stop)
  ended : ∀ start, start ∉ first :: rest → ∀ id ∈ first :: rest,
    id ∉ b'.region (anchor.redirect first start) (anchor.redirect first anchor)

section Regions

variable {b : MethodBody} {start stop anchor first target : InstrId} {rest order : List InstrId}

theorem start_mem_region (hMem : start ∈ b.ids) (hOther : stop ≠ start) :
    start ∈ b.region start stop := by
  obtain ⟨before, after, hIds, hNot⟩ := List.eq_append_cons_of_mem hMem
  have hSkip : ∀ id ∈ before, (id != start) = true := by
    intro id hIn
    rw [bne_iff_ne]
    rintro rfl
    exact hNot hIn
  unfold region
  rw [hIds, List.dropWhile_append_of_pos hSkip, List.dropWhile_cons_of_neg (by simp),
    List.takeWhile_cons_of_pos (by simpa using hOther.symm)]
  exact List.mem_cons_self ..

theorem region_subset : b.region start stop ⊆ b.ids :=
  ((List.takeWhile_sublist _).trans (List.dropWhile_sublist _)).subset

theorem stop_not_mem_region (b : MethodBody) (start stop : InstrId) :
    stop ∉ b.region start stop := by
  intro hMem
  have hPass := List.mem_takeWhile_imp hMem
  simp at hPass

theorem withAhead_self (anchor : InstrId) (new : List InstrId) :
    withAhead anchor new anchor = new ++ [anchor] :=
  if_pos rfl

theorem withAhead_of_ne {id : InstrId} (h : id ≠ anchor) (new : List InstrId) :
    withAhead anchor new id = [id] :=
  if_neg h

/-- With the new code ahead of it, the target is reached at the place that its references lead
to. -/
theorem withAhead_target (anchor first target : InstrId) (rest : List InstrId) : ∃ further,
    withAhead anchor (first :: rest) target = anchor.redirect first target :: further := by
  by_cases hTarget : target = anchor
  · subst hTarget
    rw [withAhead_self, InstrId.redirect_self]
    exact ⟨_, rfl⟩
  · rw [withAhead_of_ne hTarget, InstrId.redirect_of_ne hTarget]
    exact ⟨[], rfl⟩

/-- Elsewhere it is not reached. -/
theorem withAhead_passes {id : InstrId} (hTarget : target ∉ first :: rest)
    (hId : id ∉ first :: rest) (hOther : id ≠ target) :
    ∀ y ∈ withAhead anchor (first :: rest) id, (y != anchor.redirect first target) = true := by
  intro y hMem
  rw [bne_iff_ne]
  by_cases hAnchor : id = anchor
  · subst hAnchor
    rw [withAhead_self, List.mem_append, List.mem_singleton] at hMem
    rw [InstrId.redirect_of_ne hOther.symm]
    rintro rfl
    exact hMem.elim hTarget hOther.symm
  · rw [withAhead_of_ne hAnchor, List.mem_singleton] at hMem
    subst hMem
    unfold InstrId.redirect
    split
    · rintro rfl
      exact hId (List.mem_cons_self ..)
    · exact hOther

theorem dropWhile_withAhead (hTarget : target ∉ first :: rest)
    (hOrder : ∀ id ∈ first :: rest, id ∉ order) :
    (order.flatMap (withAhead anchor (first :: rest))).dropWhile
        (· != anchor.redirect first target)
      = (order.dropWhile (· != target)).flatMap (withAhead anchor (first :: rest)) := by
  induction order with
  | nil => rfl
  | cons id order ih =>
      have ih := ih fun x hMem hIn => hOrder x hMem (List.mem_cons_of_mem _ hIn)
      by_cases hId : id = target
      · subst hId
        obtain ⟨further, hAhead⟩ := withAhead_target anchor first id rest
        simp [List.flatMap_cons, hAhead]
      · have hNew : id ∉ first :: rest := fun hIn => hOrder id hIn (List.mem_cons_self ..)
        rw [List.flatMap_cons, List.dropWhile_append_of_pos (withAhead_passes hTarget hNew hId), ih,
          List.dropWhile_cons_of_pos (by simpa using hId)]

theorem takeWhile_withAhead (hTarget : target ∉ first :: rest)
    (hOrder : ∀ id ∈ first :: rest, id ∉ order) :
    (order.flatMap (withAhead anchor (first :: rest))).takeWhile
        (· != anchor.redirect first target)
      = (order.takeWhile (· != target)).flatMap (withAhead anchor (first :: rest)) := by
  induction order with
  | nil => rfl
  | cons id order ih =>
      have ih := ih fun x hMem hIn => hOrder x hMem (List.mem_cons_of_mem _ hIn)
      by_cases hId : id = target
      · subst hId
        obtain ⟨further, hAhead⟩ := withAhead_target anchor first id rest
        simp [List.flatMap_cons, hAhead]
      · have hNew : id ∉ first :: rest := fun hIn => hOrder id hIn (List.mem_cons_self ..)
        rw [List.flatMap_cons, List.takeWhile_append_of_pos (withAhead_passes hTarget hNew hId), ih,
          List.takeWhile_cons_of_pos (by simpa using hId), List.flatMap_cons]

end Regions

namespace Inserts

variable {b b' : MethodBody} {anchor first : InstrId} {rest : List InstrId}
  {code : List Instruction}

/-- The numbers of the new code, one by one. -/
theorem freshIds_getElem? (b : MethodBody) (code : List Instruction) (n : Nat) :
    (b.freshIds code)[n]? = if n < code.length then some ⟨b.nextId + n⟩ else none := by
  unfold freshIds
  rw [number_ids, List.getElem?_map]
  split
  · rename_i hLess
    rw [List.getElem?_range' hLess]
    simp
  · rename_i hLess
    rw [List.getElem?_eq_none (by simpa using hLess)]
    rfl

theorem first_eq (hNew : b.freshIds code = first :: rest) : first = ⟨b.nextId⟩ := by
  have hFirst : (b.freshIds code)[0]? = some first := by rw [hNew, List.getElem?_cons_zero]
  rw [freshIds_getElem?, Option.ite_none_right_eq_some] at hFirst
  exact (Option.some_inj.mp hFirst.2).symm

/-- The edges over which the new code is passed. -/
theorem mem_links (hNew : b.freshIds code = first :: rest) {x y : InstrId} :
    (x, y) ∈ (first :: rest).zip (rest ++ [anchor]) ↔
      ∃ n < code.length, x = ⟨b.nextId + n⟩ ∧
        y = if n + 1 = code.length then anchor else ⟨b.nextId + (n + 1)⟩ := by
  have hLength : rest.length + 1 = code.length := by
    have hIds := congrArg List.length hNew
    unfold freshIds at hIds
    rw [number_ids] at hIds
    simpa using hIds.symm
  have hFrom (n : Nat) : (first :: rest)[n]? = some x ↔ n < code.length ∧ x = ⟨b.nextId + n⟩ := by
    rw [← hNew, freshIds_getElem?, Option.ite_none_right_eq_some, Option.some_inj, eq_comm]
  have hTo {n : Nat} (hLess : n < code.length) : (rest ++ [anchor])[n]? = some y ↔
      y = if n + 1 = code.length then anchor else ⟨b.nextId + (n + 1)⟩ := by
    have hNext : rest[n]? = (b.freshIds code)[n + 1]? := by rw [hNew, List.getElem?_cons_succ]
    rw [List.getElem?_append, hNext, freshIds_getElem?]
    by_cases hLast : n + 1 = code.length
    · rw [if_neg (by omega), if_pos hLast]
      have hZero : n - rest.length = 0 := by omega
      simp [hZero, eq_comm]
    · rw [if_pos (by omega), if_pos (by omega), if_neg hLast, Option.some_inj, eq_comm]
  simp only [List.mem_iff_getElem?, List.getElem?_zip_eq_some, hFrom]
  constructor
  · rintro ⟨n, ⟨hLess, hFirst⟩, hSecond⟩
    exact ⟨n, hLess, hFirst, (hTo hLess).mp hSecond⟩
  · rintro ⟨n, hLess, hFirst, hSecond⟩
    exact ⟨n, ⟨hLess, hFirst⟩, (hTo hLess).mpr hSecond⟩

/-- The edges of the body with the new code: those that were there, passed on, and those over which
the new code is passed. -/
theorem edge_iff (h : b.Inserts anchor code b') (hNumbered : b.Numbered)
    (hOn : ∀ i ∈ code, i.PassesOn) (hNew : b.freshIds code = first :: rest) {a y : InstrId} :
    b'.Edge a y ↔ (∃ c, b.Edge a c ∧ anchor.redirect first c = y) ∨
      (a, y) ∈ (first :: rest).zip (rest ++ [anchor]) := by
  obtain rfl : first = ⟨b.nextId⟩ := first_eq hNew
  rw [mem_links hNew]
  exact h.mem_successors hNumbered hOn

/-- No instruction is behind two of the new ones. -/
theorem link_unique (h : b.Inserts anchor code b') (hNumbered : b.Numbered)
    (hNew : b.freshIds code = first :: rest) {a x y : InstrId}
    (hFrom : (a, y) ∈ (first :: rest).zip (rest ++ [anchor]))
    (hOther : (x, y) ∈ (first :: rest).zip (rest ++ [anchor])) : a = x := by
  have hAnchor : anchor.index < b.nextId := hNumbered.below_ids h.anchor_mem
  obtain ⟨n, -, rfl, hTo⟩ := (mem_links hNew).mp hFrom
  obtain ⟨m, -, rfl, hTo'⟩ := (mem_links hNew).mp hOther
  suffices n = m by rw [this]
  have hIndex := congrArg InstrId.index (hTo.symm.trans hTo')
  split at hIndex <;> split at hIndex <;> simp only at hIndex <;> omega

/-- The order of the code, with the new instructions in it. -/
theorem order_eq (h : b.Inserts anchor code b') (hNumbered : b.Numbered) :
    b'.ids = b.ids.flatMap (withAhead anchor (b.freshIds code)) := by
  obtain ⟨before, i, after, hBefore, rfl, hAfter⟩ := h.spliced
  have hSame {order : List InstrId} (hNot : i.id ∉ order) :
      order.flatMap (withAhead i.id (b.freshIds code)) = order := by
    induction order with
    | nil => rfl
    | cons id order ih =>
        obtain ⟨hOther, hRest⟩ := not_or.mp (mt List.mem_cons.mpr hNot)
        rw [List.flatMap_cons, withAhead_of_ne (Ne.symm hOther), ih hRest, List.singleton_append]
  have hDistinct := hNumbered.distinct
  rw [hBefore, List.map_append, List.map_cons, List.nodup_append] at hDistinct
  obtain ⟨-, hBehind, hApart⟩ := hDistinct
  have hAhead : i.id ∉ before.map (·.id) :=
    fun hMem => hApart _ hMem _ (List.mem_cons_self ..) rfl
  have hIds : b.ids = before.map (·.id) ++ i.id :: after.map (·.id) := by
    rw [ids, hBefore, List.map_append, List.map_cons]
  have hIds' : b'.ids = before.map (·.id) ++ b.freshIds code ++ i.id :: after.map (·.id) := by
    simp [ids, hAfter, freshIds, Function.comp_def, Instruction.retarget]
  rw [hIds, hIds', List.flatMap_append, List.flatMap_cons, withAhead_self, hSame hAhead,
    hSame (List.nodup_cons.mp hBehind).1]
  simp

section Edges

variable (h : b.Inserts anchor code b') (hNumbered : b.Numbered)
  (hNew : b.freshIds code = first :: rest)

include hNumbered hNew

theorem fresh_not_mem : ∀ id ∈ first :: rest, id ∉ b.ids := by
  intro id hMem hOld
  exact absurd (le_of_mem_freshIds (hNew ▸ hMem)) (Nat.not_le.mpr (hNumbered.below_ids hOld))

include h

/-- The new code leads on to itself or to the anchor, and not back to its start. -/
theorem of_link {x y : InstrId} (hLink : (x, y) ∈ (first :: rest).zip (rest ++ [anchor])) :
    y ≠ first ∧ (y ∈ rest ∨ y = anchor) := by
  have hTo : y ∈ rest ∨ y = anchor := by simpa using (List.of_mem_zip hLink).2
  refine ⟨?_, hTo⟩
  rintro rfl
  rcases hTo with hRest | rfl
  · exact (List.nodup_cons.mp (hNew ▸ freshIds_nodup)).1 hRest
  · exact fresh_not_mem hNumbered hNew y (List.mem_cons_self ..) h.anchor_mem

variable (hTargets : ∀ i ∈ b.instructions, i.targetIds ⊆ b.ids) (hOn : ∀ i ∈ code, i.PassesOn)

include hTargets hOn

/-- An edge of the new body was there, led to the anchor, or is one of the new code. -/
theorem edge_cases {a y : InstrId} : b'.Edge a y ↔
    y ∈ b.ids ∧ y ≠ anchor ∧ b.Edge a y ∨ y = first ∧ b.Edge a anchor ∨
      (a, y) ∈ (first :: rest).zip (rest ++ [anchor]) := by
  rw [h.edge_iff hNumbered hOn hNew, ← or_assoc]
  apply or_congr_left
  constructor
  · rintro ⟨c, hEdge, rfl⟩
    by_cases hSame : c = anchor
    · subst hSame
      exact Or.inr ⟨InstrId.redirect_self .., hEdge⟩
    · rw [InstrId.redirect_of_ne hSame]
      have hThere : c ∈ b.ids :=
        (FlowIndex.mem_of_successor hEdge).elim id fun ⟨i, hMem, hTo⟩ => hTargets i hMem hTo
      exact Or.inl ⟨hThere, hSame, hEdge⟩
  · rintro (⟨-, hOther, hEdge⟩ | ⟨rfl, hEdge⟩)
    · exact ⟨y, hEdge, InstrId.redirect_of_ne hOther _⟩
    · exact ⟨anchor, hEdge, InstrId.redirect_self ..⟩

/-- What is inserted ahead of an instruction is interposed there. -/
theorem interposed : b.Interposed anchor first rest b' := by
  have hFresh := fresh_not_mem hNumbered hNew
  have hFirst : first ∉ b.ids := hFresh first (List.mem_cons_self ..)
  have hAnchor : anchor ∈ b.ids := h.anchor_mem
  have hNotNew : anchor ∉ first :: rest := fun hMem => hFresh anchor hMem hAnchor
  have hEdges {a y : InstrId} :=
    h.edge_cases hNumbered hNew hTargets hOn (a := a) (y := y)
  have hRegions (start stop : InstrId) (hStart : start ∉ first :: rest)
      (hStop : stop ∉ first :: rest) :
      b'.region (anchor.redirect first start) (anchor.redirect first stop)
        = (b.region start stop).flatMap (withAhead anchor (first :: rest)) := by
    unfold region
    rw [h.order_eq hNumbered, hNew, dropWhile_withAhead hStart hFresh,
      takeWhile_withAhead hStop fun id hMem hIn =>
        hFresh id hMem ((List.dropWhile_sublist _).subset hIn)]
  refine ⟨hFresh, hNew ▸ h.order_eq hNumbered, fun a => ?_, fun x y hLink a => ?_,
    fun y hOld hOther a => ?_, first_eq hNew ▸ h.handlers, hRegions, fun stop hStop hOther => ?_,
    fun start hStart id hMem => ?_⟩
  · rw [hEdges]
    constructor
    · rintro (⟨hOld, -, -⟩ | ⟨-, hEdge⟩ | hLink)
      · exact (hFirst hOld).elim
      · exact hEdge
      · exact ((h.of_link hNumbered hNew hLink).1 rfl).elim
    · exact fun hEdge => Or.inr (Or.inl ⟨rfl, hEdge⟩)
  · obtain ⟨hNotFirst, hTo⟩ := h.of_link hNumbered hNew hLink
    rw [hEdges]
    constructor
    · rintro (⟨hOld, hOther, -⟩ | ⟨hSame, -⟩ | hFrom)
      · rcases hTo with hRest | hSame
        · exact (hFresh y (List.mem_cons_of_mem _ hRest) hOld).elim
        · exact (hOther hSame).elim
      · exact (hNotFirst hSame).elim
      · exact h.link_unique hNumbered hNew hFrom hLink
    · rintro rfl
      exact Or.inr (Or.inr hLink)
  · rw [hEdges]
    constructor
    · rintro (⟨-, -, hEdge⟩ | ⟨rfl, -⟩ | hLink)
      · exact hEdge
      · exact (hFirst hOld).elim
      · rcases (h.of_link hNumbered hNew hLink).2 with hRest | hSame
        · exact (hFresh y (List.mem_cons_of_mem _ hRest) hOld).elim
        · exact (hOther hSame).elim
    · exact fun hEdge => Or.inl ⟨hOld, hOther, hEdge⟩
  · rw [hRegions anchor stop hNotNew hStop]
    intro id hMem
    refine List.mem_flatMap.mpr ⟨anchor, start_mem_region hAnchor hOther, ?_⟩
    rw [withAhead_self]
    exact List.mem_append_left _ hMem
  · rw [hRegions start anchor hStart hNotNew]
    intro hIn
    obtain ⟨other, hThere, hIn⟩ := List.mem_flatMap.mp hIn
    have hOther : other ≠ anchor := by
      rintro rfl
      exact stop_not_mem_region b start other hThere
    rw [withAhead_of_ne hOther, List.mem_singleton] at hIn
    exact hFresh id hMem (hIn ▸ region_subset hThere)

end Edges

end Inserts

/-- Code that falls through is put in ahead of an instruction exactly. The first new instruction has
the edges that led to the anchor, those of the anchor itself included; the others and the anchor are
led to by the one ahead of them only; and all other edges between instructions that were there are
as before. The boundaries of handlers that named the anchor name the first new instruction, so that
the new code belongs to regions that began at the anchor, and not to those that ended there. -/
theorem insertBefore_interposed {b : MethodBody} {anchor : InstrId} {code : List Instruction}
    (hNumbered : b.Numbered) (hTargets : ∀ i ∈ b.instructions, i.targetIds ⊆ b.ids)
    (hAnchor : anchor ∈ b.ids) (hSome : code ≠ [])
    (hCode : ∀ i ∈ code, i.opcode.fallsThrough = true ∧ i.targetIds = []) :
    ∃ first rest b', insertBefore anchor code b = .ok (first :: rest) b' ∧
      b.freshIds code = first :: rest ∧ b.Inserts anchor code b' ∧
      b.Interposed anchor first rest b' := by
  have hOn : ∀ i ∈ code, i.PassesOn := fun i hMem => ⟨(hCode i hMem).1, fun _ => (hCode i hMem).2⟩
  obtain ⟨first, rest, hNew⟩ : ∃ first rest, b.freshIds code = first :: rest := by
    cases code with
    | nil => exact (hSome rfl).elim
    | cons i code => exact ⟨_, _, rfl⟩
  obtain ⟨b', hRun⟩ : ∃ b', insertBefore anchor code b = .ok (b.freshIds code) b' := by
    obtain ⟨position, hRequire⟩ := require_succeeds hAnchor
    unfold insertBefore
    rw [Step.bind_of_ok hRequire, if_neg (by simpa using hSome)]
    exact ⟨_, rfl⟩
  obtain ⟨hInserts, -⟩ := insertBefore_inserts hSome hRun
  exact ⟨first, rest, b', hNew ▸ hRun, hNew, hInserts,
    hInserts.interposed hNumbered hNew hTargets hOn⟩

section Examples

/-- A loop that turns on itself behind a switch. A protected region ends at the loop, and the code
that handles it begins there. -/
def turningLoop : MethodBody :=
  ofParts [⟨⟨0⟩, .switch, .targets [⟨2⟩, ⟨2⟩, ⟨0⟩]⟩, ⟨⟨1⟩, .ldcI4, .int32 1⟩,
    ⟨⟨2⟩, .brtrue, .target ⟨2⟩⟩, ⟨⟨3⟩, .br, .target ⟨2⟩⟩, ⟨⟨4⟩, .ret, .none⟩] []
    [⟨none, ⟨0⟩, ⟨2⟩, ⟨2⟩, ⟨4⟩⟩]

theorem turningLoop_interposed :
    turningLoop.Numbered ∧ (∀ i ∈ turningLoop.instructions, i.targetIds ⊆ turningLoop.ids) ∧
      ∃ b', insertBefore ⟨2⟩ [.plain .nop, .plain .dup] turningLoop = .ok [⟨5⟩, ⟨6⟩] b' ∧
        (∀ a, b'.Edge a ⟨5⟩ ↔ turningLoop.Edge a ⟨2⟩) ∧ (∀ a, b'.Edge a ⟨6⟩ ↔ a = ⟨5⟩) ∧
        (∀ a, b'.Edge a ⟨2⟩ ↔ a = ⟨6⟩) ∧ (∀ a, b'.Edge a ⟨0⟩ ↔ turningLoop.Edge a ⟨0⟩) ∧
        b'.handlers = [⟨none, ⟨0⟩, ⟨5⟩, ⟨5⟩, ⟨4⟩⟩] ∧
        [⟨5⟩, ⟨6⟩] ⊆ b'.region ⟨5⟩ ⟨4⟩ ∧ ∀ id ∈ [⟨5⟩, ⟨6⟩], id ∉ b'.region ⟨0⟩ ⟨5⟩ := by
  have hNumbered : turningLoop.Numbered := by decide
  have hTargets : ∀ i ∈ turningLoop.instructions, i.targetIds ⊆ turningLoop.ids := by decide
  have hAnchor : ⟨2⟩ ∈ turningLoop.ids := by decide
  have hCode : ∀ i ∈ [Instruction.plain .nop, .plain .dup],
      i.opcode.fallsThrough = true ∧ i.targetIds = [] := by decide
  obtain ⟨first, rest, b', hRun, hNew, -, hInterposed⟩ :=
    insertBefore_interposed hNumbered hTargets hAnchor (List.cons_ne_nil _ _) hCode
  have hIds : turningLoop.freshIds [.plain .nop, .plain .dup] = [⟨5⟩, ⟨6⟩] := by decide
  obtain ⟨rfl, rfl⟩ := List.cons.inj (hNew.symm.trans hIds)
  exact ⟨hNumbered, hTargets, b', hRun, hInterposed.ahead, hInterposed.within _ _ (by decide),
    hInterposed.within _ _ (by decide), hInterposed.apart _ (by decide) (by decide),
    hInterposed.handlers, hInterposed.began ⟨4⟩ (by decide) (by decide),
    hInterposed.ended ⟨0⟩ (by decide)⟩

end Examples

end MethodBody

end ContextBinding
