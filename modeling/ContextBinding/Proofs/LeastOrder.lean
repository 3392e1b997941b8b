import ContextBinding.Proofs.Arrangement
import Mathlib.Order.WellFoundedSet

/-! The order of contexts among all orders that respect their dependencies. There is one if and
only if no context depends on itself, and of several it is the first one in the order of the numbers
of the contexts. -/

namespace ContextBinding

open Relation

namespace Dependencies

variable {d : Dependencies} {done left order rest : List ContextId} {fuel : Nat}

/-- No context depends on itself, however indirectly. -/
def Acyclic (d : Dependencies) : Prop := ∀ a, ¬ TransGen (fun a b => b ∈ d.needs a) a a

/-- What is left when nothing is ready needs something that has not come. -/
theorem ready?_eq_none (h : d.ready? done left = none) {a : ContextId} (ha : a ∈ left) :
    ∃ b ∈ d.needs a, b ∉ done := by
  have hAll : ¬ (d.needs a).all done.contains = true := List.find?_eq_none.mp h a ha
  simpa using hAll

/-- The first one that is ready has the smallest number. -/
theorem index_le_of_ready? {next a : ContextId} (hAscends : left.Pairwise (·.index < ·.index))
    (h : d.ready? done left = some next) (ha : a ∈ left) (hReady : ∀ b ∈ d.needs a, b ∈ done) :
    next.index ≤ a.index := by
  obtain ⟨-, ahead, behind, rfl, hAhead⟩ := List.find?_eq_some_iff_append.mp h
  have hReady : (d.needs a).all done.contains = true := by simpa using hReady
  rcases List.mem_append.mp ha with hMem | hMem
  · exact absurd hReady (by simpa using hAhead a hMem)
  · rcases List.mem_cons.mp hMem with rfl | hMem
    · exact Nat.le_refl _
    · have hLater := (List.pairwise_append.mp hAscends).2.1
      exact Nat.le_of_lt ((List.pairwise_cons.mp hLater).1 a hMem)

theorem prefix_arrange (h : d.arrange fuel done left = (order, rest)) : done <+: order := by
  induction fuel generalizing done left with
  | zero => exact (arrange_zero h).1 ▸ List.prefix_rfl
  | succ fuel ih =>
      obtain ⟨-, rfl, -⟩ | ⟨next, -, -, h⟩ := arrange_cases h
      · exact List.prefix_rfl
      · exact (List.prefix_append done [next]).trans (ih h)

/-- Arranging goes on as long as something is ready. -/
theorem arrange_ends (hFuel : left.length ≤ fuel) (h : d.arrange fuel done left = (order, rest)) :
    d.ready? order rest = none := by
  induction fuel generalizing done left with
  | zero =>
      obtain ⟨rfl, rfl⟩ := arrange_zero h
      rw [List.length_eq_zero_iff.mp (Nat.le_zero.mp hFuel)]
      rfl
  | succ fuel ih =>
      obtain ⟨hStuck, rfl, rfl⟩ | ⟨next, hNext, -, h⟩ := arrange_cases h
      · exact hStuck
      · have hShorter : (left.filter (· != next)).length < left.length :=
          List.length_filter_lt_length_iff_exists.mpr ⟨next, hNext, by simp⟩
        exact ih (by omega) h

/-- Whatever else can come after `done` is no smaller than what is arranged. At each point the one
that comes next is the smallest of those that could, so that another order differs first where it
takes a larger one. -/
theorem arrange_least {other : List ContextId} (hAscends : left.Pairwise (·.index < ·.index))
    (h : d.arrange fuel done left = (order, [])) (hOther : other.Perm left)
    (hDistinct : (done ++ other).Nodup) (hRespects : d.Respects (done ++ other)) :
    ∃ new, order = done ++ new ∧ (new = other ∨ List.Lex (·.index < ·.index) new other) := by
  induction fuel generalizing done left other with
  | zero =>
      obtain ⟨rfl, rfl⟩ := arrange_zero h
      exact ⟨[], (List.append_nil _).symm, Or.inl (List.perm_nil.mp hOther).symm⟩
  | succ fuel ih =>
      obtain ⟨-, rfl, rfl⟩ | ⟨next, hNext, hReady, h⟩ := arrange_cases h
      · exact ⟨[], (List.append_nil _).symm, Or.inl (List.perm_nil.mp hOther).symm⟩
      cases other with
      | nil =>
          rw [List.nil_perm.mp hOther] at hNext
          exact (List.not_mem_nil hNext).elim
      | cons a others =>
          have hLess : next.index ≤ a.index :=
            index_le_of_ready? hAscends hReady (hOther.subset (List.mem_cons_self ..))
              fun b hb => hRespects.mem_before hDistinct rfl hb
          by_cases hSame : a = next
          · subst hSame
            have hLeft : left.Nodup := hAscends.imp fun hLt hEq => by simp [hEq] at hLt
            have hOthers : others.Perm (left.filter (· != a)) := by
              rw [← hLeft.erase_eq_filter]
              exact (hOther.trans (List.perm_cons_erase hNext)).cons_inv
            obtain ⟨new, hNew, hLeast⟩ := ih (hAscends.filter _) h hOthers
              (by simpa using hDistinct) (by simpa using hRespects)
            refine ⟨a :: new, by simpa using hNew, ?_⟩
            exact hLeast.imp (congrArg _) .cons
          · -- The other order takes a larger one here, so what follows does not matter.
            obtain ⟨new, rfl⟩ := prefix_arrange h
            refine ⟨next :: new, by simp, ?_⟩
            have hDiffer : next.index ≠ a.index :=
              fun hIndex => hSame (congrArg ContextId.mk hIndex.symm)
            exact Or.inr (.rel (by omega))

/-- Where everything needs something else of a list, there is nothing in it or a cycle. -/
theorem Acyclic.eq_nil (h : d.Acyclic) (hNeeds : ∀ a ∈ rest, ∃ b ∈ d.needs a, b ∈ rest) :
    rest = [] := by
  let below : ContextId → ContextId → Prop := fun b a => TransGen (fun a b => b ∈ d.needs a) a b
  have hOrder : IsStrictOrder ContextId below :=
    { irrefl := h, trans := fun _ _ _ h₁ h₂ => h₂.trans h₁ }
  have hFounded : {a | a ∈ rest}.WellFoundedOn below := (List.finite_toSet rest).wellFoundedOn
  refine List.eq_nil_iff_forall_not_mem.mpr fun a ha => ?_
  refine hFounded.induction (P := fun _ => False) ha fun a ha ih => ?_
  obtain ⟨b, hb, hMem⟩ := hNeeds a ha
  exact ih b hMem (.single hb)

end Dependencies

namespace ContextPlan

variable {plan : ContextPlan} {p : Program} {g : ReferenceGraph} {order : List ContextId}

/-- Only contexts of the plan depend on anything. -/
theorem mem_ids_of_needs {a b : ContextId} (h : b ∈ (plan.dependencies p g).needs a) :
    a ∈ plan.ids := by
  unfold Dependencies.needs at h
  cases hGet : (plan.dependencies p g).get? a with
  | none => simp [hGet] at h
  | some needs =>
      obtain ⟨e, hMem, hEntry⟩ := List.mem_map.mp (Table.mem_of_get?_ofList hGet)
      rw [← entries_keys]
      exact List.mem_map.mpr ⟨e, hMem, (Prod.mk.inj hEntry).1⟩

theorem ids_ascend : plan.ids.Pairwise (·.index < ·.index) :=
  List.pairwise_map.mpr List.pairwise_lt_range

/-- What is arranged before is on no cycle. -/
theorem not_mem_of_cycle (hDistinct : order.Nodup)
    (hRespects : (plan.dependencies p g).Respects order)
    {a : ContextId} (hCycle : TransGen (fun a b => b ∈ (plan.dependencies p g).needs a) a a) :
    a ∉ order := by
  intro hMem
  obtain ⟨earlier, later, hOrder⟩ := List.append_of_mem hMem
  have hBefore := hRespects.mem_before_of_transGen hDistinct hOrder hCycle
  rw [hOrder] at hDistinct
  exact (List.nodup_append.mp hDistinct).2.2 a hBefore a (List.mem_cons_self ..) rfl

/-- The contexts of a plan can be ordered just if no context depends on itself. The order has each
context once, behind all that it depends on, and is the least one of this kind. -/
theorem order_least
    (hNamed : ∀ a, ∀ b ∈ (plan.dependencies p g).needs a, b ∈ plan.ids) :
    ((∃ order, plan.order p g = .ok order) ↔ (plan.dependencies p g).Acyclic) ∧
      ∀ order, plan.order p g = .ok order →
        order.Perm plan.ids ∧ order.Nodup ∧ (plan.dependencies p g).Respects order ∧
        ∀ other, other.Perm plan.ids → (plan.dependencies p g).Respects other →
          order = other ∨ List.Lex (·.index < ·.index) order other := by
  refine ⟨⟨fun ⟨order, hOrder⟩ a hCycle => ?_, fun hAcyclic => ?_⟩, fun order hOrder => ?_⟩
  · obtain ⟨b, hNeeds, -⟩ := TransGen.head'_iff.mp hCycle
    have hPerm := order_perm hOrder
    exact not_mem_of_cycle (hPerm.nodup_iff.mpr nodup_ids) (respects_order hOrder) hCycle
      (hPerm.mem_iff.mpr (mem_ids_of_needs hNeeds))
  · cases hArranged : (plan.dependencies p g).arrange plan.size [] plan.ids with
    | mk order rest =>
        have hPerm := Dependencies.arrange_perm nodup_ids hArranged
        have hStuck := Dependencies.arrange_ends (by simp [ids]) hArranged
        have hNone : rest = [] := hAcyclic.eq_nil fun a ha => by
          obtain ⟨b, hb, hOut⟩ := Dependencies.ready?_eq_none hStuck ha
          have hThere : b ∈ order ++ rest := hPerm.mem_iff.mpr (by simpa using hNamed a b hb)
          exact ⟨b, hb, (List.mem_append.mp hThere).resolve_left hOut⟩
        refine ⟨order, ?_⟩
        unfold ContextPlan.order
        dsimp only
        rw [hArranged, hNone]
  · have hPerm := order_perm hOrder
    refine ⟨hPerm, hPerm.nodup_iff.mpr nodup_ids, respects_order hOrder,
      fun other hOther hRespects => ?_⟩
    obtain ⟨new, hNew, hLeast⟩ := Dependencies.arrange_least ids_ascend (order_arranged hOrder)
      hOther (by simpa using hOther.nodup_iff.mpr nodup_ids) (by simpa using hRespects)
    obtain rfl : order = new := hNew
    exact hLeast

/-- The first context is stored in the third. -/
def lateParent : ContextPlan where
  root := ⟨0⟩
  rootConstructor := ⟨0⟩
  contexts :=
    [{ ContextDescriptor.bare "Inner" ⟨1⟩ ⟨2⟩ ⟨1⟩ with parent := some ⟨2⟩ },
      .bare "Left" ⟨3⟩ ⟨4⟩ ⟨2⟩, .bare "Outer" ⟨5⟩ ⟨6⟩ ⟨3⟩, .bare "Right" ⟨7⟩ ⟨8⟩ ⟨4⟩]

/-- The first context comes as soon as the third is there, and ahead of the fourth. -/
theorem lateParent_least :
    lateParent.order .empty .empty = .ok [⟨1⟩, ⟨2⟩, ⟨0⟩, ⟨3⟩] ∧
    (lateParent.dependencies .empty .empty).Acyclic ∧
    ∀ other, other.Perm lateParent.ids → (lateParent.dependencies .empty .empty).Respects other →
      [⟨1⟩, ⟨2⟩, ⟨0⟩, ⟨3⟩] = other ∨ List.Lex (·.index < ·.index) [⟨1⟩, ⟨2⟩, ⟨0⟩, ⟨3⟩] other := by
  have hIds : ∀ a ∈ lateParent.ids, ∀ b ∈ (lateParent.dependencies .empty .empty).needs a,
      b ∈ lateParent.ids := by decide +kernel
  have hOrder : lateParent.order .empty .empty = .ok [⟨1⟩, ⟨2⟩, ⟨0⟩, ⟨3⟩] := by decide +kernel
  obtain ⟨hAcyclic, hLeast⟩ := order_least fun a b hb => hIds a (mem_ids_of_needs hb) b hb
  exact ⟨hOrder, hAcyclic.mp ⟨_, hOrder⟩, (hLeast _ hOrder).2.2.2⟩

end ContextPlan

end ContextBinding
