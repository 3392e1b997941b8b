import ContextBinding.Proofs.Edit
import ContextBinding.Proofs.LeastOrder
import ContextBinding.Proofs.Ordering
import Mathlib.Data.List.Cycle

/-! The circuits that are reported where contexts depend on themselves. They are all the elementary
circuits of the dependencies, by name and each once, however much could be ordered before. -/

namespace ContextBinding

open Relation Std

section Names

/-- Names are in the order of strings, lists of them in the order of their first difference. -/
theorem namesLe_eq (a b : List String) : namesLe a b = (compare a b).isLE := by
  have hName (x y : String) : (compare x y).isLE = nameLe x y := by
    rw [nameLe, Bool.eq_iff_iff, decide_eq_true_eq]
    exact isLE_compareOfLessAndEq String.le_antisymm String.not_le String.le_total
  induction a generalizing b with
  | nil => cases b <;> rfl
  | cons x a ih =>
      cases b with
      | nil => rfl
      | cons y b =>
          rw [namesLe, List.compare_cons_cons, ih]
          split
          · rename_i hSame
            simp [hSame]
          · rename_i hDiffer
            rw [← hName]
            cases hCompare : compare x y with
            | eq => exact (hDiffer (LawfulEqOrd.eq_of_compare hCompare)).elim
            | lt => rfl
            | gt => rfl

theorem lt_of_compare {a b : List String} (h : compare a b = .lt) : a < b := by
  induction a generalizing b with
  | nil =>
      cases b with
      | nil => cases h
      | cons y b => exact List.nil_lt_cons ..
  | cons x a ih =>
      cases b with
      | nil => cases h
      | cons y b =>
          rw [List.compare_cons_cons] at h
          rw [List.cons_lt_cons_iff]
          cases hCompare : compare x y with
          | eq =>
              rw [hCompare, Ordering.eq_then] at h
              exact Or.inr ⟨LawfulEqOrd.eq_of_compare hCompare, ih h⟩
          | lt => exact Or.inl (compareOfLessAndEq_eq_lt.mp hCompare)
          | gt => simp [hCompare] at h

/-- A list of names that starts at the smallest of them, which it has once. -/
def StartsLeast (names : List String) : Prop :=
  ∃ first rest, names = first :: rest ∧ ∀ name ∈ rest, first < name

theorem exists_least {α : Type} (le : α → α → Prop) (hTotal : ∀ a b, le a b ∨ le b a)
    (hTrans : ∀ a b c, le a b → le b c → le a c) {l : List α} (h : l ≠ []) :
    ∃ first ∈ l, ∀ a ∈ l, le first a := by
  induction l with
  | nil => exact (h rfl).elim
  | cons a l ih =>
      have hRefl : le a a := (hTotal a a).elim id id
      by_cases hMore : l = []
      · exact ⟨a, by simp, by simpa [hMore] using hRefl⟩
      · obtain ⟨first, hFirst, hLeast⟩ := ih hMore
        rcases hTotal a first with hLe | hLe
        · refine ⟨a, List.mem_cons_self .., List.forall_mem_cons.mpr ⟨hRefl, fun b hb => ?_⟩⟩
          exact hTrans a first b hLe (hLeast b hb)
        · exact ⟨first, List.mem_cons_of_mem _ hFirst, List.forall_mem_cons.mpr ⟨hLe, hLeast⟩⟩

theorem coe_rotateToSmallest (names : List String) :
    (rotateToSmallest names : Cycle String) = names := by
  unfold rotateToSmallest
  refine Cycle.coe_eq_coe.mpr (List.isRotated_append.trans ?_)
  rw [List.take_append_drop]

theorem startsLeast_rotateToSmallest {names : List String} (h : names ≠ [])
    (hDistinct : names.Nodup) : StartsLeast (rotateToSmallest names) := by
  obtain ⟨first, hFirst, hLeast⟩ := exists_least (· ≤ ·) String.le_total (fun _ _ _ => String.le_trans) h
  let smallest (name : String) : Bool := names.all (nameLe name)
  have hFound : names.findIdx smallest < names.length :=
    List.findIdx_lt_length_of_exists ⟨first, hFirst, by simpa [smallest, nameLe] using hLeast⟩
  have hSmallest : smallest names[names.findIdx smallest] = true := List.findIdx_getElem
  have hRotated : rotateToSmallest names = names[names.findIdx smallest]
      :: (names.drop (names.findIdx smallest + 1) ++ names.take (names.findIdx smallest)) := by
    rw [← List.cons_append, ← List.drop_eq_getElem_cons hFound]
    rfl
  have hOnce : (rotateToSmallest names).Nodup :=
    (Cycle.coe_eq_coe.mp (coe_rotateToSmallest names)).nodup_iff.mpr hDistinct
  -- The first name is at most as large as any other, and none is there twice.
  refine ⟨_, _, hRotated, fun name hMem => ?_⟩
  rw [hRotated] at hOnce
  have hThere : name ∈ names := by
    have hAll : name ∈ rotateToSmallest names := hRotated ▸ List.mem_cons_of_mem _ hMem
    exact (Cycle.coe_eq_coe.mp (coe_rotateToSmallest names)).mem_iff.mp hAll
  have hLe : names[names.findIdx smallest] ≤ name := by
    simpa [nameLe] using List.all_eq_true.mp hSmallest name hThere
  have hOther : name ≠ names[names.findIdx smallest] :=
    fun hSame => (List.nodup_cons.mp hOnce).1 (hSame ▸ hMem)
  exact String.not_le.mp fun hGe => hOther (String.le_antisymm hGe hLe)

end Names

/-- Without repetition, a cycle is determined as a list by where it starts. -/
theorem eq_of_rotated {α : Type} {a : α} {l l' : List α} (hDistinct : (a :: l).Nodup)
    (h : ((a :: l : List α) : Cycle α) = (a :: l' : List α)) : a :: l = a :: l' := by
  obtain ⟨n, hLess, hRotate⟩ := List.isRotated_iff_mod.mp (Cycle.coe_eq_coe.mp h)
  rw [List.rotate_eq_drop_append_take hLess] at hRotate
  have hSplit := List.take_append_drop n (a :: l)
  generalize (a :: l).take n = s at hRotate hSplit
  generalize (a :: l).drop n = t at hRotate hSplit
  cases s with
  | nil => simpa [← hSplit] using hRotate
  | cons b s =>
      cases t with
      | nil => simpa [← hSplit] using hRotate
      | cons b' t =>
          obtain ⟨-, rfl⟩ := List.cons.inj hSplit
          obtain ⟨hFirst, -⟩ := List.cons.inj hRotate
          have hTwice : a ∈ s ++ b' :: t := by simp [hFirst]
          exact absurd hTwice (List.nodup_cons.mp hDistinct).1

namespace Dependencies

variable {d : Dependencies} {allowed path q among : List ContextId} {start last : ContextId}
  {rest : List ContextId} {fuel : Nat} {c : Cycle ContextId}

/-- An elementary circuit: each context on it needs the next one, and it has none twice. -/
structure IsCircuit (d : Dependencies) (c : Cycle ContextId) : Prop where
  ne_nil : c ≠ Cycle.nil
  nodup : c.Nodup
  needs : c.Chain fun a b => b ∈ d.needs a

theorem isCircuit_coe : d.IsCircuit (start :: rest : List ContextId) ↔
    (start :: rest).Nodup ∧ (start :: (rest ++ [start])).IsChain fun a b => b ∈ d.needs a := by
  refine ⟨fun h => ⟨h.nodup, (Cycle.chain_coe_cons ..).mp h.needs⟩,
    fun h => ⟨fun hNil => ?_, h.1, (Cycle.chain_coe_cons ..).mpr h.2⟩⟩
  exact List.cons_ne_nil _ _ (List.isRotated_nil_iff.mp (Cycle.coe_eq_coe.mp hNil))

/-- What is on a circuit depends on itself. -/
theorem IsCircuit.transGen (h : d.IsCircuit c) {a : ContextId} (ha : a ∈ c) :
    TransGen (fun a b => b ∈ d.needs a) a a := by
  have hAll : c.Chain (TransGen fun a b => b ∈ d.needs a) :=
    h.needs.imp fun _ _ => TransGen.single
  exact Cycle.chain_iff_pairwise.mp hAll a ha a ha

/-- A closed walk that comes by one context twice is cut short there, until it is a circuit. -/
theorem exists_isCircuit_of_chain
    (hChain : (start :: (rest ++ [start])).IsChain fun a b => b ∈ d.needs a) :
    ∃ c, d.IsCircuit c := by
  induction hLength : rest.length using Nat.strong_induction_on generalizing start rest with
  | _ n ih =>
      by_cases hDistinct : (start :: rest).Nodup
      · exact ⟨_, isCircuit_coe.mpr ⟨hDistinct, hChain⟩⟩
      · simp only [List.nodup_iff_sublist, not_forall, not_not] at hDistinct
        obtain ⟨a, hTwice⟩ := hDistinct
        obtain ⟨first, second, hSplit, hFirst, hSecond⟩ := List.cons_sublist_iff.mp hTwice
        obtain ⟨before, loop, rfl⟩ := List.append_of_mem hFirst
        obtain ⟨loop', after, rfl⟩ := List.append_of_mem (List.singleton_sublist.mp hSecond)
        -- What stands between the two places of `a` is a shorter closed walk.
        have hLoop : a :: ((loop ++ loop') ++ [a]) <:+: start :: (rest ++ [start]) := by
          refine ⟨before, after ++ [start], ?_⟩
          rw [← List.cons_append (a := start), hSplit]
          simp
        have hShorter := congrArg List.length hSplit
        simp only [List.length_cons, List.length_append] at hShorter
        have hClosed := List.IsChain.infix hChain hLoop
        exact ih (loop ++ loop').length (by simp; omega) hClosed rfl

theorem exists_isCircuit (h : ¬ d.Acyclic) : ∃ c, d.IsCircuit c := by
  simp only [Acyclic, not_forall, not_not] at h
  obtain ⟨a, hCycle⟩ := h
  obtain ⟨b, hPath, hBack⟩ := TransGen.tail'_iff.mp hCycle
  obtain ⟨l, hChain, rfl⟩ := List.exists_isChain_cons_of_relationReflTransGen hPath
  suffices hClosed : (a :: (l ++ [a])).IsChain fun a b => b ∈ d.needs a from
    exists_isCircuit_of_chain hClosed
  refine hChain.append (List.isChain_singleton a) fun x hx y hy => ?_
  obtain rfl : a = y := by simpa using hy
  rw [List.getLast?_eq_some_getLast (List.cons_ne_nil a l), Option.mem_some_iff] at hx
  exact hx ▸ hBack

/-- The ways to close a path are those over distinct contexts that are allowed. The induction is on
what may still be appended. -/
theorem mem_closings (hStart : start ∈ path) (hDistinct : path.Nodup) :
    q ∈ d.closings allowed start fuel path last ↔ ∃ more, q = path ++ more ∧ more.length < fuel ∧
      (path ++ more).Nodup ∧ more ⊆ allowed ∧
      (last :: (more ++ [start])).IsChain fun a b => b ∈ d.needs a := by
  induction fuel generalizing path last with
  | zero => simp [closings]
  | succ fuel ih =>
      rw [closings, List.mem_flatMap]
      constructor
      · rintro ⟨next, hNext, hMem⟩
        split at hMem
        · rename_i hClosed
          obtain rfl := List.mem_singleton.mp hMem
          exact ⟨[], by simp, by simp, by simpa using hDistinct, by simp, by simpa [← hClosed]⟩
        · split at hMem
          · rename_i hOpen
            obtain ⟨hAllowed, hNew⟩ : next ∈ allowed ∧ next ∉ path := by simpa using hOpen
            have hPath : (path ++ [next]).Nodup := by simpa using hDistinct.concat hNew
            obtain ⟨more, rfl, hLength, hOnce, hSubset, hChain⟩ :=
              (ih (by simp [hStart]) hPath).mp hMem
            refine ⟨next :: more, by simp, by simpa using hLength, by simpa using hOnce,
              List.cons_subset.mpr ⟨hAllowed, hSubset⟩, ?_⟩
            exact List.isChain_cons_cons.mpr ⟨hNext, hChain⟩
          · cases hMem
      · rintro ⟨more, rfl, hLength, hOnce, hAllowed, hChain⟩
        cases more with
        | nil => exact ⟨start, by simpa using hChain, by simp⟩
        | cons next more =>
            obtain ⟨hNext, hChain⟩ := List.isChain_cons_cons.mp hChain
            obtain ⟨hThere, hAllowed⟩ := List.cons_subset.mp hAllowed
            have hNew : next ∉ path := fun hMem =>
              (List.nodup_append.mp hOnce).2.2 next hMem next (List.mem_cons_self ..) rfl
            have hOther : next ≠ start := fun hSame => hNew (hSame ▸ hStart)
            refine ⟨next, hNext, ?_⟩
            rw [if_neg hOther, if_pos (by simp [hThere, hNew])]
            have hPath : (path ++ [next]).Nodup := by simpa using hDistinct.concat hNew
            refine (ih (by simp [hStart]) hPath).mpr ⟨more, by simp, ?_⟩
            exact ⟨by simpa using hLength, by simpa using hOnce, hAllowed, hChain⟩

/-- The circuits that are found are the elementary ones, each from its smallest context on. -/
theorem mem_circuits : q ∈ d.circuits among ↔ ∃ start rest, q = start :: rest ∧ q ⊆ among ∧
    (∀ a ∈ rest, start.index ≤ a.index) ∧ d.IsCircuit (start :: rest : List ContextId) := by
  rw [circuits, List.mem_flatMap]
  constructor
  · rintro ⟨start, hStart, hMem⟩
    obtain ⟨rest, rfl, -, hOnce, hAllowed, hChain⟩ :=
      (mem_closings (List.mem_singleton_self start) (List.nodup_singleton start)).mp hMem
    have hIn (a : ContextId) (ha : a ∈ rest) : a ∈ among ∧ start.index ≤ a.index := by
      simpa using hAllowed ha
    exact ⟨start, rest, rfl, List.cons_subset.mpr ⟨hStart, fun a ha => (hIn a ha).1⟩,
      fun a ha => (hIn a ha).2, isCircuit_coe.mpr ⟨hOnce, hChain⟩⟩
  · rintro ⟨start, rest, rfl, hAmong, hLeast, hCircuit⟩
    obtain ⟨hOnce, hChain⟩ := isCircuit_coe.mp hCircuit
    obtain ⟨hStart, hRest⟩ := List.cons_subset.mp hAmong
    refine ⟨start, hStart, ?_⟩
    refine (mem_closings (List.mem_singleton_self start) (List.nodup_singleton start)).mpr
      ⟨rest, rfl, (List.subperm_of_subset hOnce hAmong).length_le, hOnce, fun a ha => ?_, hChain⟩
    simpa using ⟨hRest ha, hLeast a ha⟩

/-- Every circuit is found. -/
theorem IsCircuit.found (h : d.IsCircuit c) (hAmong : ∀ a ∈ c, a ∈ among) :
    ∃ q ∈ d.circuits among, (q : Cycle ContextId) = c := by
  induction c using Quotient.inductionOn' with
  | _ l =>
      have hNonempty : l ≠ [] := fun hNil => h.ne_nil (congrArg _ hNil)
      obtain ⟨start, hStart, hLeast⟩ : ∃ start ∈ l, ∀ a ∈ l, start.index ≤ a.index :=
        exists_least (·.index ≤ ·.index) (fun _ _ => Nat.le_total ..) (fun _ _ _ => Nat.le_trans)
          hNonempty
      obtain ⟨before, after, rfl⟩ := List.append_of_mem hStart
      have hRotated : (start :: after ++ before).IsRotated (before ++ start :: after) :=
        List.isRotated_append
      have hMem (a : ContextId) (ha : a ∈ start :: (after ++ before)) :
          a ∈ before ++ start :: after := hRotated.mem_iff.mp ha
      have hSame := Cycle.coe_eq_coe.mpr hRotated
      have hCircuit : d.IsCircuit (start :: after ++ before : List ContextId) := by
        rw [hSame]
        exact h
      exact ⟨_, mem_circuits.mpr ⟨start, after ++ before, rfl, fun a ha => hAmong a (hMem a ha),
        fun a ha => hLeast a (hMem a (List.mem_cons_of_mem _ ha)), hCircuit⟩, hSame⟩

/-- It is found once. -/
theorem eq_of_mem_circuits {q' : List ContextId} (h : q ∈ d.circuits among)
    (h' : q' ∈ d.circuits among) (hSame : (q : Cycle ContextId) = q') : q = q' := by
  obtain ⟨start, rest, rfl, -, hLeast, hCircuit⟩ := mem_circuits.mp h
  obtain ⟨start', rest', rfl, -, hLeast', -⟩ := mem_circuits.mp h'
  have hRotated := Cycle.coe_eq_coe.mp hSame
  have hBelow {a b : ContextId} {l : List ContextId} (hLeast : ∀ c ∈ l, a.index ≤ c.index)
      (hMem : b ∈ a :: l) : a.index ≤ b.index :=
    (List.mem_cons.mp hMem).elim (fun hStart => hStart ▸ Nat.le_refl _) (hLeast b)
  have hLe := hBelow hLeast (hRotated.mem_iff.mpr (List.mem_cons_self ..))
  have hGe := hBelow hLeast' (hRotated.mem_iff.mp (List.mem_cons_self ..))
  obtain rfl : start = start' := congrArg ContextId.mk (Nat.le_antisymm hLe hGe)
  exact eq_of_rotated (isCircuit_coe.mp hCircuit).1 hSame

end Dependencies

namespace ContextPlan

open Dependencies

variable {plan : ContextPlan} {p : Program} {g : ReferenceGraph} {d : Dependencies}
  {among : List ContextId} {names : List String} {c : Cycle ContextId}

/-- The names along a circuit. -/
def namesOn (plan : ContextPlan) (c : Cycle ContextId) : Cycle String :=
  c.map fun id => (plan.context id).name

/-- A list of the elementary circuits by name, in order and each once. -/
structure ListsCircuits (plan : ContextPlan) (d : Dependencies) (listed : List (List String)) :
    Prop where
  ascending : listed.Pairwise (· < ·)
  least : ∀ names ∈ listed, StartsLeast names
  sound : ∀ names ∈ listed, ∃! c, d.IsCircuit c ∧ plan.namesOn c = names
  complete : ∀ c, d.IsCircuit c → ∃! names, names ∈ listed ∧ plan.namesOn c = names

/-- Where no two contexts have one name, a context is known by its name. -/
theorem exists_byName (hNames : (plan.contexts.map (·.name)).Nodup) :
    ∃ byName : String → ContextId, ∀ id ∈ plan.ids, byName (plan.context id).name = id := by
  have hAt {id : ContextId} {c : ContextDescriptor} (h : plan.context? id = some c) :
      (plan.contexts.map (·.name))[id.index]? = some (plan.context id).name := by
    rw [List.getElem?_map, context_of_some h]
    exact congrArg (Option.map (·.name)) h
  have hInj : Set.InjOn (fun id => (plan.context id).name) {id | id ∈ plan.ids} := by
    intro a ha b hb hSame
    obtain ⟨_, hA⟩ := mem_ids.mp ha
    obtain ⟨_, hB⟩ := mem_ids.mp hb
    have hLess := (List.getElem?_eq_some_iff.mp (hAt hA)).1
    have hSame : some (plan.context a).name = some (plan.context b).name := congrArg some hSame
    refine congrArg ContextId.mk ((List.getElem?_inj hLess hNames).mp ?_)
    rw [hAt hA, hAt hB, hSame]
  exact ⟨_, fun id hMem => hInj.leftInvOn_invFunOn hMem⟩

section ByName

variable {byName : String → ContextId}

theorem map_byName (hByName : ∀ id ∈ plan.ids, byName (plan.context id).name = id)
    {l : List ContextId} (hIds : ∀ a ∈ l, a ∈ plan.ids) :
    (l.map fun id => (plan.context id).name).map byName = l := by
  rw [List.map_map]
  exact (List.map_congr_left fun a ha => hByName a (hIds a ha)).trans (List.map_id l)

theorem map_namesOn (hByName : ∀ id ∈ plan.ids, byName (plan.context id).name = id)
    (hIds : ∀ a ∈ c, a ∈ plan.ids) : (plan.namesOn c).map byName = c := by
  induction c using Quotient.inductionOn' with
  | _ l =>
      exact congrArg (fun l : List ContextId => (l : Cycle ContextId)) (map_byName hByName hIds)

end ByName

theorem mem_cycleNames : names ∈ plan.cycleNames d among ↔
    ∃ q ∈ d.circuits among, plan.circuitNames q = names := by
  rw [cycleNames, mem_dedupAdjacent, mem_sortOrdered, List.mem_map]

theorem cycleNames_ascends : (plan.cycleNames d among).Pairwise (· < ·) := by
  unfold cycleNames
  rw [show namesLe = fun a b => (compare a b).isLE from funext₂ namesLe_eq]
  exact (ascends_dedupAdjacent (pairwise_sortOrdered _)).imp lt_of_compare

theorem coe_circuitNames (q : List ContextId) :
    (plan.circuitNames q : Cycle String) = plan.namesOn q :=
  coe_rotateToSmallest _

/-- What is on a circuit is in the plan, and is left over when the plan is ordered. -/
theorem mem_of_isCircuit {order left : List ContextId}
    (h : (plan.dependencies p g).arrange plan.size [] plan.ids = (order, left))
    (hCircuit : (plan.dependencies p g).IsCircuit c) {a : ContextId} (ha : a ∈ c) :
    a ∈ plan.ids ∧ a ∈ left := by
  have hPerm : (order ++ left).Perm plan.ids := arrange_perm nodup_ids h
  have hCycle := hCircuit.transGen ha
  obtain ⟨b, hNeeds, -⟩ := TransGen.head'_iff.mp hCycle
  have hIn := mem_ids_of_needs hNeeds
  have hDone : order.Nodup := (List.nodup_append.mp (hPerm.nodup_iff.mpr nodup_ids)).1
  have hRespects := arrange_respects (fun _ h => (List.not_mem_nil h).elim) h
  exact ⟨hIn, (List.mem_append.mp (hPerm.mem_iff.mpr hIn)).resolve_left
    (not_mem_of_cycle hDone hRespects hCycle)⟩

/-- The circuits among some contexts that are reported, where these have all circuits. -/
theorem cycleNames_listsCircuits (hNames : (plan.contexts.map (·.name)).Nodup)
    (hIds : ∀ c, d.IsCircuit c → ∀ a ∈ c, a ∈ plan.ids)
    (hAmong : ∀ c, d.IsCircuit c → ∀ a ∈ c, a ∈ among) :
    plan.ListsCircuits d (plan.cycleNames d among) := by
  obtain ⟨byName, hByName⟩ := exists_byName hNames
  have hInj {c c' : Cycle ContextId} (h : d.IsCircuit c) (h' : d.IsCircuit c')
      (hSame : plan.namesOn c = plan.namesOn c') : c = c' := by
    rw [← map_namesOn hByName (hIds c h), hSame, map_namesOn hByName (hIds c' h')]
  have hCircuit {q : List ContextId} (h : q ∈ d.circuits among) : d.IsCircuit q := by
    obtain ⟨start, rest, rfl, -, -, h⟩ := mem_circuits.mp h
    exact h
  -- Each list comes from a path that was found, and paths found on one circuit are one path.
  refine ⟨cycleNames_ascends, fun names hMem => ?_, fun names hMem => ?_, fun c h => ?_⟩
  · obtain ⟨q, hFound, rfl⟩ := mem_cycleNames.mp hMem
    have hDistinct : (q.map fun id => (plan.context id).name).Nodup := by
      refine .of_map byName ?_
      rw [map_byName hByName (hIds q (hCircuit hFound))]
      exact (hCircuit hFound).nodup
    refine startsLeast_rotateToSmallest (fun hNil => ?_) hDistinct
    exact (hCircuit hFound).ne_nil (congrArg _ (List.map_eq_nil_iff.mp hNil))
  · obtain ⟨q, hFound, rfl⟩ := mem_cycleNames.mp hMem
    refine ⟨q, ⟨hCircuit hFound, (coe_circuitNames q).symm⟩, fun c ⟨h, hSame⟩ => ?_⟩
    exact hInj h (hCircuit hFound) (hSame.trans (coe_circuitNames q))
  · obtain ⟨q, hFound, rfl⟩ := h.found (hAmong c h)
    refine ⟨plan.circuitNames q, ⟨mem_cycleNames.mpr ⟨q, hFound, rfl⟩, (coe_circuitNames q).symm⟩,
      fun names ⟨hMem, hSame⟩ => ?_⟩
    obtain ⟨q', hFound', rfl⟩ := mem_cycleNames.mp hMem
    have hCycle := hInj (hCircuit hFound') h ((coe_circuitNames q').symm.trans hSame.symm)
    rw [eq_of_mem_circuits hFound' hFound hCycle]

end ContextPlan

section Entangled

open Program

/-- Code that reads some fields of the first argument. -/
def reading (fields : List FieldId) : MethodBody :=
  .fresh (fields.flatMap (fun field => [.onArg .ldarg 1, .onField .ldfld field, .plain .pop])
    ++ [.plain .ret])

/-- The constructor of `Gamma` reads the slot of `Alpha`, and that of `Alpha` the slots of `Beta`
and `Gamma`. The constructor of `Beta` reads the slots of `Gamma` and `Done`. -/
def entangled : Edit ContextPlan := do
  let root ← addType "G" "Root" none ⟨0⟩
  let newRoot ← addMethod root ".ctor" [] .void (.ofList [.constructor])
  let context (name : String) : Edit (ContextDescriptor × FieldId) := do
    let holder ← addType "G" name none ⟨0⟩
    let generated ← addType "G" (name ++ "_Ctx") none ⟨0⟩
    let constructor ← addMethod generated ".ctor" [⟨"root", .named root⟩] .void
      (.ofList [.constructor])
    let slot ← addField root (name ++ "_f") (.named generated) ⟨0⟩
    pure ({ ContextDescriptor.bare name holder generated constructor with chain := [slot] }, slot)
  let (gamma, gammaSlot) ← context "Gamma"
  let (alpha, alphaSlot) ← context "Alpha"
  let (beta, betaSlot) ← context "Beta"
  let (done, doneSlot) ← context "Done"
  setBody gamma.constructor (reading [alphaSlot])
  setBody alpha.constructor (reading [betaSlot, gammaSlot])
  setBody beta.constructor (reading [gammaSlot, doneSlot])
  setBody done.constructor (reading [])
  pure ⟨root, newRoot, [gamma, alpha, beta, done]⟩

end Entangled

end ContextBinding
