import ContextBinding.Proofs.Arrangement
import ContextBinding.Proofs.Settling
import Mathlib

/-! The batches of a run come to an end. Whatever brings a method into the next batch takes one out
of those that wait. When a method of a holder moves, methods of copied display classes may come to
wait, but fewer methods of holders are left to move, unless a copy is itself a holder; and such a
type is copied once. -/

namespace ContextBinding

theorem ContextPlan.mem_holders {plan : ContextPlan} {type : TypeId} {context : ContextId}
    (h : plan.byHolder? type = some context) : type ∈ plan.contexts.map (·.holder) := by
  obtain ⟨e, hFound, rfl⟩ := Option.map_eq_some_iff.mp h
  have hHolder : e.2.holder = type := by simpa using List.find?_some hFound
  have hContext := ContextPlan.mem_entries.mp (List.mem_of_find?_eq_some hFound)
  exact List.mem_map.mpr ⟨e.2, List.mem_of_getElem? hContext, hHolder⟩

namespace Propagation

variable {copying : Prop} {ahead rest : List MethodId} {method : MethodId} {s t : Propagation}

/-- The methods that wait. -/
def waiting (ahead : List MethodId) (s : Propagation) : Set MethodId := {id | s.Waits ahead id}

/-- The methods that wait and belong to a holder, if they are there. -/
def movable (ahead : List MethodId) (s : Propagation) : Set MethodId :=
  {id | s.Waits ahead id ∧ ∀ m, s.program.method? id = some m →
    m.owner ∈ s.plan.contexts.map (·.holder)}

/-- The holders that are still to come. -/
def unborn (s : Propagation) : Set TypeId :=
  {type | type ∈ s.plan.contexts.map (·.holder) ∧ s.program.types.length ≤ type.index}

/-- What is left to do: the holders to come count most, then the methods that may move. -/
noncomputable def rank (ahead : List MethodId) (s : Propagation) : (Nat ×ₗ Nat) ×ₗ Nat :=
  toLex (toLex (s.unborn.ncard, (s.movable ahead).ncard), (s.waiting ahead).ncard)

theorem holders_of_shape (h : t.plan.shape = s.plan.shape) :
    t.plan.contexts.map (·.holder) = s.plan.contexts.map (·.holder) := by
  have hHolders (plan : ContextPlan) :
      plan.contexts.map (·.holder) = plan.shape.contexts.map (·.holder) := by
    simp [ContextPlan.shape]
  rw [hHolders, h, ← hHolders]

/-- What may come to be visited is there, or constructs a context. -/
theorem Regular.waiting_subset (h : s.Regular ahead) : s.waiting ahead ⊆
    ↑((List.range s.program.methods.length).map MethodId.mk ++
      s.plan.contexts.map (·.constructor)).toFinset := by
  intro id hWaits
  rw [Finset.mem_coe, List.mem_toFinset, List.mem_append]
  rcases hWaits.known with hKnown | ⟨c, hMem, rfl⟩
  · obtain ⟨m, hMethod⟩ := h.present id hKnown
    refine Or.inl (List.mem_map.mpr ⟨id.index, List.mem_range.mpr ?_, rfl⟩)
    exact (List.getElem?_eq_some_iff.mp hMethod).1
  · exact Or.inr (List.mem_map.mpr ⟨c, hMem, rfl⟩)

theorem Regular.finite_waiting (h : s.Regular ahead) : (s.waiting ahead).Finite :=
  (Finset.finite_toSet _).subset h.waiting_subset

theorem movable_subset : s.movable ahead ⊆ s.waiting ahead := fun _ h => h.1

theorem Regular.finite_movable (h : s.Regular ahead) : (s.movable ahead).Finite :=
  h.finite_waiting.subset movable_subset

/-- Fewer methods wait than batches may be visited for. -/
theorem Regular.waiting_lt (h : s.Regular ahead) :
    (s.waiting ahead).ncard < Propagate.batchBound s := by
  refine Nat.lt_succ_of_le ((Set.ncard_le_ncard h.waiting_subset (Finset.finite_toSet _)).trans ?_)
  rw [Set.ncard_coe_finset]
  refine (List.toFinset_card_le _).trans (le_of_eq ?_)
  simp [ContextPlan.size]

theorem Regular.movable_lt (h : s.Regular ahead) :
    (s.movable ahead).ncard < Propagate.batchBound s :=
  (Set.ncard_le_ncard movable_subset h.finite_waiting).trans_lt h.waiting_lt

theorem unborn_subset : s.unborn ⊆ ↑(s.plan.contexts.map (·.holder)).toFinset :=
  fun _ hUnborn => List.mem_toFinset.mpr hUnborn.1

theorem finite_unborn : s.unborn.Finite := (Finset.finite_toSet _).subset unborn_subset

theorem unborn_lt : s.unborn.ncard < Propagate.batchBound s := by
  refine Nat.lt_succ_of_le ((Set.ncard_le_ncard unborn_subset (Finset.finite_toSet _)).trans ?_)
  rw [Set.ncard_coe_finset]
  refine (List.toFinset_card_le _).trans ?_
  simp [ContextPlan.size]

theorem Waits.mono {ahead' : List MethodId} (hAhead : ahead' ⊆ ahead) {id : MethodId}
    (h : s.Waits ahead' id) : s.Waits ahead id :=
  { h with known := h.known.imp_left (Or.imp_left fun hMem => hAhead hMem) }

theorem Regular.mono {ahead' : List MethodId} (hAhead : ahead' ⊆ ahead) (h : s.Regular ahead) :
    s.Regular ahead' :=
  { h with present := fun id hMem => h.present id (hMem.imp_left fun hMem => hAhead hMem) }

namespace Settles

theorem unborn_subset (h : s.Settles copying ahead t) : t.unborn ⊆ s.unborn := by
  rintro type ⟨hHolder, hNew⟩
  exact ⟨holders_of_shape h.plan ▸ hHolder, h.grows.types.length_le.trans hNew⟩

/-- What may move later waits before and may move before, unless it arrived. -/
theorem movable_of_waits (h : s.Settles copying ahead t) {id : MethodId} (hBefore : s.Waits ahead id)
    (hMovable : id ∈ t.movable ahead) : id ∈ s.movable ahead := by
  refine ⟨hBefore, fun m hMethod => ?_⟩
  obtain ⟨m', hMethod', hSame⟩ := h.grows.method hMethod
  rw [← hSame.owner, ← holders_of_shape h.plan]
  exact hMovable.2 m' hMethod'

/-- What waits waited before where no display classes are copied. -/
theorem waiting_subset (h : s.Settles False ahead t) : t.waiting ahead ⊆ s.waiting ahead :=
  fun _ hWaits => (h.waits hWaits).resolve_right And.left

theorem movable_subset (h : s.Settles False ahead t) : t.movable ahead ⊆ s.movable ahead :=
  fun _ hMovable => h.movable_of_waits (h.waiting_subset hMovable.1) hMovable

/-- No more methods may move than before, or a holder came. -/
theorem movable_or_unborn (h : s.Settles copying ahead t) :
    t.movable ahead ⊆ s.movable ahead ∨ t.unborn ⊂ s.unborn := by
  by_cases hAll : t.movable ahead ⊆ s.movable ahead
  · exact Or.inl hAll
  · obtain ⟨id, hMovable, hOld⟩ := Set.not_subset.mp hAll
    right
    rcases h.waits hMovable.1 with hBefore | ⟨-, -, m, hMethod, hNew, hThere⟩
    · exact (hOld (h.movable_of_waits hBefore hMovable)).elim
    · refine ⟨h.unborn_subset, fun hSame => ?_⟩
      have hHolder := hMovable.2 m hMethod
      have hLater := hSame ⟨holders_of_shape h.plan ▸ hHolder, hNew⟩
      exact absurd hThere (Nat.not_lt.mpr hLater.2)

theorem rank_le (h : s.Settles False ahead t) (hRegular : s.Regular ahead) :
    t.rank ahead ≤ s.rank ahead := by
  refine Prod.Lex.toLex_mono ⟨Prod.Lex.toLex_mono ⟨?_, ?_⟩, ?_⟩
  · exact Set.ncard_le_ncard h.unborn_subset finite_unborn
  · exact Set.ncard_le_ncard h.movable_subset hRegular.finite_movable
  · exact Set.ncard_le_ncard h.waiting_subset hRegular.finite_waiting

/-- A method that waits no more is one less to be done. -/
theorem rank_lt (h : s.Settles False ahead t) (hRegular : s.Regular ahead) (hWaited : s.Waits ahead method)
    (hDone : ¬ t.Waits ahead method) : t.rank ahead < s.rank ahead := by
  have hLess : (t.waiting ahead).ncard < (s.waiting ahead).ncard :=
    Set.ncard_lt_ncard ⟨h.waiting_subset, fun hSame => hDone (hSame hWaited)⟩ hRegular.finite_waiting
  refine Prod.Lex.toLex_strictMono (Prod.mk_lt_mk.mpr (Or.inr ⟨?_, hLess⟩))
  refine Prod.Lex.toLex_mono ⟨?_, ?_⟩
  · exact Set.ncard_le_ncard h.unborn_subset finite_unborn
  · exact Set.ncard_le_ncard h.movable_subset hRegular.finite_movable

/-- So is a method of a holder that moved, whatever display classes were copied for it. -/
theorem rank_lt_moved (h : s.Settles copying ahead t) (hRegular : s.Regular ahead)
    (hMovable : method ∈ s.movable ahead) (hDone : ¬ t.Waits ahead method) :
    t.rank ahead < s.rank ahead := by
  refine Prod.Lex.toLex_lt_toLex.mpr (Or.inl (Prod.Lex.toLex_lt_toLex.mpr ?_))
  rcases h.movable_or_unborn with hSubset | hBorn
  · have hLess : (t.movable ahead).ncard < (s.movable ahead).ncard :=
      Set.ncard_lt_ncard ⟨hSubset, fun hSame => hDone (hSame hMovable).1⟩ hRegular.finite_movable
    rcases Nat.lt_or_eq_of_le (Set.ncard_le_ncard h.unborn_subset finite_unborn) with hFewer | hSame
    · exact Or.inl hFewer
    · exact Or.inr ⟨hSame, hLess⟩
  · exact Or.inl (Set.ncard_lt_ncard hBorn finite_unborn)

end Settles

/-- The methods that are visited count as long as they are ahead only. -/
theorem rank_mono {ahead' : List MethodId} (hAhead : ahead' ⊆ ahead) (hRegular : s.Regular ahead) :
    s.rank ahead' ≤ s.rank ahead := by
  refine Prod.Lex.toLex_mono ⟨Prod.Lex.toLex_mono ⟨le_refl _, ?_⟩, ?_⟩
  · exact Set.ncard_le_ncard (fun _ h => ⟨h.1.mono hAhead, h.2⟩) hRegular.finite_movable
  · exact Set.ncard_le_ncard (fun _ h => h.mono hAhead) hRegular.finite_waiting

/-- What a visit comes to: the next batch stays as it is, a display class is given a field for the
root, or the method is bound. -/
inductive Turn (ahead : List MethodId) (method : MethodId) (s t : Propagation) : Prop where
  | rested (hSettles : s.Settles True ahead t) (hRank : t.rank ahead ≤ s.rank ahead)
      (hPending : t.pending = s.pending)
  | captured (hSettles : s.Settles True ahead t) (hRank : t.rank ahead < s.rank ahead)
      (field : FieldId) (hField : t.IsRootField field)
      (hNew : s.program.fields.length ≤ field.index)
  | bound (hSettles : s.Settles True ahead t) (hRank : t.rank ahead < s.rank ahead)
      (hFree : s.bindings.get? method = none) (hBound : ∃ b, t.bindings.get? method = some b)

theorem Turn.settles (h : Turn ahead method s t) : s.Settles True ahead t := by
  cases h with
  | rested hSettles | captured hSettles | bound hSettles => exact hSettles

/-- Either the next batch stays as it is, or less is left to do. -/
theorem Turn.lowers (h : Turn ahead method s t) :
    t.pending = s.pending ∧ t.rank ahead ≤ s.rank ahead ∨ t.rank ahead < s.rank ahead := by
  cases h with
  | rested hSettles hRank hPending => exact Or.inl ⟨hPending, hRank⟩
  | captured hSettles hRank | bound hSettles hRank => exact Or.inr hRank

end Propagation

namespace Propagate

open Propagation (Advanced CodeOnly Settles Turn)

variable {ahead : List MethodId} {method : MethodId} {s t : Propagation}

theorem visited_settles {copying : Prop} (h : s.Regular ahead) : s.Settles copying ahead s.visited := by
  have hCode : CodeOnly s s.visited := ⟨rfl, rfl, rfl, rfl, rfl, rfl, ⟨rfl, rfl, rfl⟩⟩
  exact hCode.settled (fun hKeyed => { Propagation.Advances.refl hKeyed with }) h

/-- Counting a visit is no part of its turn. -/
theorem turn_of_visited (h : Turn ahead method s.visited t) (hRegular : s.Regular ahead) :
    Turn ahead method s t := by
  have hVisited : s.Settles False ahead s.visited := visited_settles hRegular
  have hRank := hVisited.rank_le hRegular
  cases h with
  | rested hSettles hLe hPending =>
      exact .rested (hVisited.mono.trans hSettles) (hLe.trans hRank) hPending
  | captured hSettles hLess field hField hNew =>
      exact .captured (hVisited.mono.trans hSettles) (hLess.trans_le hRank) field hField hNew
  | bound hSettles hLess hFree hBound =>
      exact .bound (hVisited.mono.trans hSettles) (hLess.trans_le hRank) hFree hBound

theorem pending_adaptInPlace {site : RootedMethod} {places : List NeedySite} {u : Unit}
    (h : adaptInPlace site places s = .ok u t) : t.pending = s.pending := by
  obtain ⟨outcomes, s₁, hSites, h⟩ := Step.bind_ok.mp h
  have hAdapted : CodeOnly s s₁ := Keeps.mapM (fun _ _ => codeOnly_adaptSite) hSites
  split at h
  · obtain ⟨_, s₂, hCount, h⟩ := Step.bind_ok.mp h
    obtain rfl := Step.modify_ok.mp hCount
    obtain ⟨v, -, rfl⟩ := graph_ok.mp h
    exact hAdapted.pending
  · obtain ⟨-, rfl⟩ := Step.pure_ok.mp h
    exact hAdapted.pending

/-- A method that a batch comes to and that does not reach the root waits, unless it is bound. -/
theorem waits_of_handleless (hRegular : s.Regular ahead) (hMem : method ∈ ahead)
    (hFree : s.bindings.isBound method = false) (hNone : handleOf? method s = .ok none s) :
    s.Waits ahead method := by
  obtain ⟨m, hMethod, hWay⟩ := handleOf?_none hNone
  rcases hWay with ⟨b, hStands, hMode⟩ | ⟨hNone, hRootless⟩
  · exact (hRegular.modes b (List.mem_of_find?_eq_some hStands) hMode).elim
  · refine ⟨Or.inl (Or.inl hMem), ?_, fun m' hMethod' => ?_⟩
    · rintro (⟨b, hGet⟩ | hStands)
      · simp [BindingMap.isBound, hGet] at hFree
      · refine BindingMap.not_standsIn ?_ hStands
        rw [BindingMap.isReplacement, hNone]
        rfl
    · obtain rfl := Option.some_inj.mp (hMethod.symm.trans hMethod')
      exact hRootless

/-- Every visit of a batch takes its turn. -/
theorem visit_turns {u : Unit} (h : visit method s = .ok u t) (hRegular : s.Regular ahead)
    (hMem : method ∈ ahead) : Turn ahead method s t := by
  refine turn_of_visited ?_ hRegular
  have hVisited : s.Settles True ahead s.visited := visited_settles hRegular
  have hStart := hVisited.regular
  have hRested (hSettles : s.visited.Settles False ahead t)
      (hPending : t.pending = s.visited.pending) : Turn ahead method s.visited t :=
    .rested hSettles.mono (hSettles.rank_le hStart) hPending
  cases visit_ok h with
  | skipped hDone hEnd =>
      subst hEnd
      exact hRested (.refl hStart) rfl
  | settled b hLive hNone hEnd =>
      subst hEnd
      exact hRested (.refl hStart) rfl
  | adapted b hLive hFree hSome handle hHandle hAdapt =>
      exact hRested (adaptInPlace_settles hAdapt hStart hMem) (pending_adaptInPlace hAdapt)
  | captured b hLive hFree hSome handle u hNone hDisplay hAdapt =>
      have hFirst : s.visited.Settles False ahead u := settled_displayHandle? hDisplay hStart
      have hLater : u.Settles False ahead t :=
        adaptInPlace_settles hAdapt hFirst.regular hMem
      have hBoth := hFirst.trans hLater
      rcases displayHandle?_ok hDisplay with hSame |
        ⟨m, field, p, hMethod, hInstance, -, -, -, hField, hEnd⟩
      · exact hRested hBoth (hSame ▸ pending_adaptInPlace hAdapt)
      · have hWaited := waits_of_handleless hStart hMem hFree hNone
        obtain ⟨rfl, -, -, -, hThere⟩ := Program.addField_ok hField
        have hRoot : u.IsRootField ⟨s.visited.program.fields.length⟩ := by
          rw [hEnd]
          refine ⟨⟨_, hThere, rfl, rfl⟩, fun hCopied => ?_⟩
          exact Nat.lt_irrefl _ (hStart.copies _ hCopied)
        have hDone : ¬ t.Waits ahead method := fun hWaits => by
          obtain ⟨m', hMethod', hPersists⟩ := hBoth.grows.method hMethod
          have hNone := hWaits.rootless m' hMethod' (hPersists.isStatic.trans hInstance)
          refine hLater.roots m.owner ?_ (hPersists.owner ▸ hNone)
          rw [hEnd]
          change (s.visited.closures.displayRoots.insert _ _).get? _ ≠ none
          simp [Table.get?_insert]
        exact .captured hBoth.mono (hBoth.rank_lt hStart hWaited hDone) _
          (hLater.isRootField hRoot) (Nat.le_refl _)
  | bound b hLive hFree hSome hNone hBind =>
      have hWaited := waits_of_handleless hStart hMem hFree hNone
      have hBound : ∃ b, t.bindings.get? method = some b :=
        Option.isSome_iff_exists.mp (bindNeedy_isBound hBind hStart.keyed)
      have hDone : ¬ t.Waits ahead method := fun hWaits => hWaits.free (Or.inl hBound)
      have hUnbound : s.visited.bindings.get? method = none := Option.not_isSome_iff_eq_none.mp
        (Bool.eq_false_iff.mp hFree)
      obtain ⟨m, _, hModel, hBind⟩ := Step.bind_ok.mp hBind
      obtain ⟨hMethod, rfl⟩ := model_ok.mp hModel
      obtain ⟨_, _, hGet, hBind⟩ := Step.bind_ok.mp hBind
      obtain ⟨rfl, rfl⟩ := Step.get_ok.mp hGet
      have hAdded (h : addParameter method s.visited = .ok () t) :
          Turn ahead method s.visited t := by
        have hSettles : s.visited.Settles False ahead t := settled_addParameter h hStart
        exact .bound hSettles.mono (hSettles.rank_lt hStart hWaited hDone) hUnbound hBound
      cases hHolder : s.visited.plan.byHolder? m.owner with
      | none =>
          simp only [hHolder] at hBind
          exact hAdded hBind
      | some context =>
          simp only [hHolder] at hBind
          split at hBind
          · have hSettles : s.visited.Settles True ahead t := settled_convert hBind hStart
            have hMovable : method ∈ s.visited.movable ahead := by
              refine ⟨hWaited, fun m' hMethod' => ?_⟩
              obtain rfl := Option.some_inj.mp
                ((Program.methodDef_ok.mp hMethod).symm.trans hMethod')
              exact ContextPlan.mem_holders hHolder
            exact .bound hSettles (hSettles.rank_lt_moved hStart hMovable hDone) hUnbound hBound
          · exact hAdded hBind

/-- The visits of a batch leave the next batch as it is, or less is left to do. -/
theorem visits_lower {rest : List MethodId} {u : Unit} (h : rest.forM visit s = .ok u t)
    (hRegular : s.Regular rest) : t.Regular [] ∧
      (t.pending = s.pending ∧ t.rank [] ≤ s.rank rest ∨ t.rank [] < s.rank rest) := by
  induction rest generalizing s with
  | nil =>
      obtain ⟨-, rfl⟩ := Step.pure_ok.mp h
      exact ⟨hRegular, Or.inl ⟨rfl, le_refl _⟩⟩
  | cons method rest ih =>
      obtain ⟨_, s₁, hFirst, hRest⟩ := Step.bind_ok.mp h
      have hTurn := visit_turns hFirst hRegular (List.mem_cons_self ..)
      have hLater : rest ⊆ method :: rest := List.subset_cons_self ..
      have hFewer := Propagation.rank_mono hLater hTurn.settles.regular
      obtain ⟨hEnd, hLowers⟩ := ih hRest (hTurn.settles.regular.mono hLater)
      refine ⟨hEnd, ?_⟩
      rcases hTurn.lowers with ⟨hSame, hLe⟩ | hLess
      · have hStart := hFewer.trans hLe
        rcases hLowers with ⟨hSame', hLe'⟩ | hLess
        · exact Or.inl ⟨hSame'.trans hSame, hLe'.trans hStart⟩
        · exact Or.inr (hLess.trans_le hStart)
      · refine Or.inr (lt_of_le_of_lt ?_ (hFewer.trans_lt hLess))
        exact hLowers.elim And.right le_of_lt

/-- When a batch is opened, nothing more comes to wait. -/
theorem opened_regular (h : s.Regular []) :
    s.opened.Regular s.pending ∧ s.opened.rank s.pending ≤ s.rank [] := by
  have hWaits (id : MethodId) (hMem : s.opened.Waits s.pending id) : s.Waits [] id :=
    ⟨hMem.known.imp_left Propagation.Known.of_opened, hMem.free, hMem.rootless⟩
  refine ⟨⟨h.keyed, fun id hMem => h.present id hMem.of_opened, h.modes, h.copies⟩, ?_⟩
  refine Prod.Lex.toLex_mono ⟨Prod.Lex.toLex_mono ⟨le_refl _, ?_⟩, ?_⟩
  · exact Set.ncard_le_ncard (fun id hMem => ⟨hWaits id hMem.1, hMem.2⟩) h.finite_movable
  · exact Set.ncard_le_ncard hWaits h.finite_waiting

/-- After a step nothing is pending, or it lowered a measure. -/
def Lowers {κ : Type} [LT κ] (measure : Propagation → κ) (step : Propagate Unit) : Prop :=
  ∀ s t, s.Regular [] → step s = .ok () t → t.Regular [] ∧ (t.pending = [] ∨ measure t < measure s)

theorem lowers_batch : Lowers (Propagation.rank []) batch := by
  intro s t hRegular h
  obtain ⟨-, hVisits⟩ := batch_ok.mp h
  obtain ⟨hOpened, hRank⟩ := opened_regular hRegular
  obtain ⟨hEnd, hLowers⟩ := visits_lower hVisits hOpened
  exact ⟨hEnd, hLowers.imp And.left fun hLess => hLess.trans_le hRank⟩

section Levels

variable {κ : Type} [Preorder κ] {major : Propagation → κ} {minor : Propagation → Nat}
  {step : Propagate Unit}

/-- As long as a step does not lower the major part of its measure, it uses up the minor part. -/
theorem whilePending_uses (hStep : Lowers (fun s => toLex (major s, minor s)) step) (n : Nat)
    (hRegular : s.Regular []) (h : whilePending step n s = .ok () t) : t.Regular [] ∧
      (t.pending = [] ∨ major t < major s ∨ major t = major s ∧ minor t + n ≤ minor s) := by
  induction n generalizing s with
  | zero =>
      obtain ⟨-, rfl⟩ := Step.pure_ok.mp h
      exact ⟨hRegular, Or.inr (Or.inr ⟨rfl, le_refl _⟩)⟩
  | succ n ih =>
      rw [whilePending_succ] at h
      split at h
      · rename_i hDone
        cases h
        exact ⟨hRegular, Or.inl hDone⟩
      · obtain ⟨_, u, hFirst, hRest⟩ := Step.bind_ok.mp h
        obtain ⟨hRegular', hLowers⟩ := hStep s u hRegular hFirst
        obtain ⟨hEnd, hUses⟩ := ih hRegular' hRest
        refine ⟨hEnd, ?_⟩
        rcases hLowers with hDone | hLess
        · rw [whilePending_done hDone] at hRest
          cases hRest
          exact Or.inl hDone
        · refine hUses.imp_right fun hUses => ?_
          rcases Prod.Lex.toLex_lt_toLex.mp hLess with hMajor | ⟨hSame, hMinor⟩
          · exact Or.inl (hUses.elim (fun h => h.trans hMajor) fun h => h.1.trans_lt hMajor)
          · refine hUses.imp (fun h => h.trans_eq hSame) fun h => ⟨h.1.trans hSame, ?_⟩
            have hLeft := h.2
            change minor u < minor s at hMinor
            omega

/-- Enough steps use up the minor part. -/
theorem lowers_whilePending (hStep : Lowers (fun s => toLex (major s, minor s)) step)
    (hBound : ∀ s : Propagation, s.Regular [] → minor s < batchBound s) :
    Lowers major (do whilePending step (batchBound (← get))) := by
  intro s t hRegular h
  obtain ⟨_, _, hGet, h⟩ := Step.bind_ok.mp h
  obtain ⟨rfl, rfl⟩ := Step.get_ok.mp hGet
  obtain ⟨hEnd, hUses⟩ := whilePending_uses hStep _ hRegular h
  refine ⟨hEnd, hUses.imp_right fun hUses => hUses.resolve_right fun ⟨_, hLeft⟩ => ?_⟩
  have hLess := hBound s hRegular
  omega

end Levels

/-- The batches end with nothing pending. -/
theorem batches_done (hRegular : s.Regular []) (h : batches 3 s = .ok () t) : t.pending = [] := by
  have hFirst : Lowers (fun s => toLex (s.unborn.ncard, (s.movable []).ncard)) (batches 1) :=
    lowers_whilePending lowers_batch fun _ h => h.waiting_lt
  have hSecond : Lowers (fun s => s.unborn.ncard) (batches 2) :=
    lowers_whilePending hFirst fun _ h => h.movable_lt
  have hBelow : Lowers (fun s => toLex ((), s.unborn.ncard)) (batches 2) := fun s t hRegular h =>
    (hSecond s t hRegular h).imp_right (Or.imp_right fun hLess =>
      Prod.Lex.toLex_lt_toLex.mpr (Or.inr ⟨rfl, hLess⟩))
  have hThird : Lowers (fun _ => ()) (batches 3) :=
    lowers_whilePending hBelow fun _ _ => Propagation.unborn_lt
  exact (hThird s t hRegular h).2.resolve_right (lt_irrefl ())

/-- Visiting batches until nothing is pending comes to an end, with what the visits come to. -/
theorem visitAll_ends (hRegular : s.Regular []) : Concludes s (visitAll s) := by
  by_cases hNone : s.pending = []
  · rw [visitAll_done hNone]
    exact .done hNone
  · cases hBatches : batches 3 s with
    | error e u =>
        rw [visitAll, Step.bind_of_error hBatches]
        exact (batched_batches 3).error hNone hBatches
    | ok _ u =>
        have hDone := batches_done hRegular hBatches
        have hEnd : visitAll s = .ok () u :=
          visitAll_iff.mpr ⟨(batches_succ 2 s).symm.trans hBatches, hDone⟩
        rw [hEnd]
        exact (visitAll_concludes hEnd).1

end Propagate

end ContextBinding
