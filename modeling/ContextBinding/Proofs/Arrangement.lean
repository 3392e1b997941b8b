import ContextBinding.Instantiation.Order
import ContextBinding.Proofs.Exploration
import ContextBinding.Proofs.Graph
import Mathlib.Data.List.Nodup

/-! What the order of contexts respects. Every context comes after all that it
 depends on, and it depends on whatever is read where the graph leads. -/

namespace ContextBinding

namespace Dependencies

variable {d : Dependencies} {done left order : List ContextId}

/-- Every context of a list comes after all that it needs. -/
def Respects (d : Dependencies) (order : List ContextId) : Prop :=
  ∀ a ∈ order, ∀ b ∈ d.needs a, [b, a].Sublist order

/-- A context may come next if all that it needs has come. -/
theorem Respects.concat {a : ContextId} (h : d.Respects done) (hReady : ∀ b ∈ d.needs a, b ∈ done) :
    d.Respects (done ++ [a]) := by
  intro c hc b hb
  rcases List.mem_append.mp hc with hOld | hNew
  · exact (h c hOld b hb).trans (List.sublist_append_left ..)
  · obtain rfl := List.mem_singleton.mp hNew
    exact (List.singleton_sublist.mpr (hReady b hb)).append (List.Sublist.refl [c])

theorem ready?_eq_some {a : ContextId} (h : d.ready? done left = some a) :
    ∀ b ∈ d.needs a, b ∈ done := by
  intro b hb
  have hAll : (d.needs a).all done.contains = true := by
    simpa using List.find?_some (p := fun id => (d.needs id).all done.contains) h
  exact List.contains_iff_mem.mp (List.all_eq_true.mp hAll b hb)

section Arrange

variable {fuel : Nat} {rest : List ContextId}

/-- Nothing is arranged without fuel. -/
theorem arrange_zero (h : d.arrange 0 done left = (order, rest)) : order = done ∧ rest = left :=
  ⟨(congrArg Prod.fst h).symm, (congrArg Prod.snd h).symm⟩

/-- One turn of arranging either finds nothing that is ready or moves one context over. -/
theorem arrange_cases (h : d.arrange (fuel + 1) done left = (order, rest)) :
    (d.ready? done left = none ∧ order = done ∧ rest = left) ∨
      ∃ next ∈ left, d.ready? done left = some next ∧
        d.arrange fuel (done ++ [next]) (left.filter (· != next)) = (order, rest) := by
  rw [arrange] at h
  cases hReady : d.ready? done left with
  | none =>
      simp only [hReady, Prod.mk.injEq] at h
      exact Or.inl ⟨rfl, h.1.symm, h.2.symm⟩
  | some next =>
      simp only [hReady] at h
      exact Or.inr ⟨next, List.mem_of_find?_eq_some hReady, rfl, h⟩

/-- Arranging keeps each context behind what it needs. -/
theorem arrange_respects (hDone : d.Respects done)
    (h : d.arrange fuel done left = (order, rest)) : d.Respects order := by
  induction fuel generalizing done left with
  | zero =>
      obtain ⟨rfl, -⟩ := arrange_zero h
      exact hDone
  | succ fuel ih =>
      obtain ⟨-, rfl, -⟩ | ⟨next, -, hReady, h⟩ := arrange_cases h
      · exact hDone
      · exact ih (hDone.concat (ready?_eq_some hReady)) h

/-- Arranging moves contexts over one after the other, each once. -/
theorem arrange_perm (hLeft : left.Nodup) (h : d.arrange fuel done left = (order, rest)) :
    (order ++ rest).Perm (done ++ left) := by
  induction fuel generalizing done left with
  | zero =>
      obtain ⟨rfl, rfl⟩ := arrange_zero h
      exact .refl _
  | succ fuel ih =>
      obtain ⟨-, rfl, rfl⟩ | ⟨next, hNext, -, h⟩ := arrange_cases h
      · exact .refl _
      · apply (ih (hLeft.filter _) h).trans
        rw [← hLeft.erase_eq_filter, List.append_assoc]
        exact (List.perm_cons_erase hNext).symm.append_left done

end Arrange

section Before

variable {a b : ContextId} {earlier later : List ContextId}

/-- Where each context stands once, what one needs stands ahead of it. -/
theorem Respects.mem_before (h : d.Respects order) (hDistinct : order.Nodup)
    (hOrder : order = earlier ++ a :: later) (hNeeds : b ∈ d.needs a) : b ∈ earlier := by
  subst hOrder
  have hSublist := h a (List.mem_append_right _ (List.mem_cons_self ..)) b hNeeds
  obtain ⟨-, hLater, hApart⟩ := List.nodup_append.mp hDistinct
  have hOnce : a ∉ later := (List.nodup_cons.mp hLater).1
  obtain ⟨first, second, hPair, hFirst, hSecond⟩ := List.sublist_append_iff.mp hSublist
  cases first with
  | nil =>
      obtain rfl : [b, a] = second := hPair
      cases hSecond with
      | cons _ hRest => exact absurd (hRest.subset (by simp)) hOnce
      | cons_cons _ hRest => exact absurd (hRest.subset (by simp)) hOnce
  | cons c first =>
      obtain ⟨rfl, -⟩ := List.cons.inj hPair
      exact hFirst.subset (List.mem_cons_self ..)

/-- So does what it needs over others. -/
theorem Respects.mem_before_of_transGen (h : d.Respects order) (hDistinct : order.Nodup)
    (hOrder : order = earlier ++ a :: later)
    (hNeeds : Relation.TransGen (fun x y => y ∈ d.needs x) a b) : b ∈ earlier := by
  induction hNeeds with
  | single hNeeds => exact h.mem_before hDistinct hOrder hNeeds
  | @tail c b _ hNeeds ih =>
      obtain ⟨start, between, rfl⟩ := List.append_of_mem ih
      have hSplit : order = start ++ c :: (between ++ a :: later) := by simpa using hOrder
      exact List.mem_append_left _ (h.mem_before hDistinct hSplit hNeeds)

end Before

end Dependencies

namespace Table

variable {κ ν : Type} [Ord κ] [Std.LawfulEqOrd κ] [DecidableEq κ]

/-- A table made of pairs with keys of their own holds every pair. -/
theorem get?_ofList {l : List (κ × ν)} (hKeys : (l.map (·.1)).Nodup) {k : κ} {v : ν}
    (h : (k, v) ∈ l) : (ofList l).get? k = some v := by
  suffices hFold : ∀ (l : List (κ × ν)) (t : Table κ ν), (l.map (·.1)).Nodup →
      ((k, v) ∈ l ∨ t.get? k = some v ∧ k ∉ l.map (·.1)) →
        (l.foldl (fun t e => t.insert e.1 e.2) t).get? k = some v from
    hFold l empty hKeys (Or.inl h)
  intro l
  induction l with
  | nil =>
      intro t _ h
      exact h.elim (fun h => (List.not_mem_nil h).elim) And.left
  | cons e l ih =>
      intro t hKeys h
      obtain ⟨hFresh, hKeys⟩ := List.nodup_cons.mp hKeys
      refine ih _ hKeys ?_
      rcases h with hMem | ⟨hGet, hNew⟩
      · rcases List.mem_cons.mp hMem with rfl | hMem
        · exact Or.inr ⟨by simp [get?_insert], hFresh⟩
        · exact Or.inl hMem
      · rw [List.map_cons, List.mem_cons, not_or] at hNew
        exact Or.inr ⟨by simp [get?_insert, Ne.symm hNew.1, hGet], hNew.2⟩

/-- What a table made of pairs holds is one of them. -/
theorem mem_of_get?_ofList {l : List (κ × ν)} {k : κ} {v : ν} (h : (ofList l).get? k = some v) :
    (k, v) ∈ l := by
  suffices hFold : ∀ (l : List (κ × ν)) (t : Table κ ν),
      (l.foldl (fun t e => t.insert e.1 e.2) t).get? k = some v →
        (k, v) ∈ l ∨ t.get? k = some v from
    (hFold l empty h).resolve_right nofun
  intro l
  induction l with
  | nil => exact fun t h => Or.inr h
  | cons e l ih =>
      intro t h
      rcases ih _ h with hMem | hGet
      · exact Or.inl (List.mem_cons_of_mem _ hMem)
      · rw [get?_insert] at hGet
        split at hGet
        · rename_i hKey
          obtain rfl := Option.some_inj.mp hGet
          exact Or.inl (hKey ▸ List.mem_cons_self ..)
        · exact Or.inr hGet

end Table

namespace ContextPlan

variable {plan : ContextPlan}

theorem mem_ids {id : ContextId} : id ∈ plan.ids ↔ ∃ c, plan.context? id = some c := by
  unfold ids context? size
  simp only [List.mem_map, List.mem_range]
  constructor
  · rintro ⟨i, hi, rfl⟩
    exact ⟨_, List.getElem?_eq_getElem hi⟩
  · rintro ⟨c, hc⟩
    exact ⟨id.index, (List.getElem?_eq_some_iff.mp hc).1, rfl⟩

theorem context_of_some {id : ContextId} {c : ContextDescriptor}
    (hContext : plan.context? id = some c) : plan.context id = c := by
  rw [context, hContext]
  rfl

theorem mem_entries {id : ContextId} {c : ContextDescriptor} :
    (id, c) ∈ plan.entries ↔ plan.context? id = some c := by
  unfold entries context?
  simp only [List.mem_map, Prod.mk.injEq, Prod.exists]
  constructor
  · rintro ⟨c', i, hMem, rfl, rfl⟩
    exact List.mk_mem_zipIdx_iff_getElem?.mp hMem
  · intro h
    exact ⟨c, id.index, List.mk_mem_zipIdx_iff_getElem?.mpr h, rfl, rfl⟩

theorem entries_keys : plan.entries.map (·.1) = plan.ids := by
  unfold entries ids size
  rw [List.range_eq_range', ← List.zipIdx_map_snd 0 plan.contexts, List.map_map, List.map_map]
  rfl

theorem nodup_ids : plan.ids.Nodup :=
  List.nodup_range.map fun _ _ h => ContextId.mk.inj h

section Order

variable {p : Program} {g : ReferenceGraph} {order : List ContextId}

theorem order_arranged (h : plan.order p g = .ok order) :
    (plan.dependencies p g).arrange plan.size [] plan.ids = (order, []) := by
  unfold ContextPlan.order at h
  dsimp only at h
  split at h
  · rename_i hArranged
    obtain rfl := Except.ok.inj h
    exact hArranged
  · cases h

/-- The order of a plan has every context of it once. -/
theorem order_perm (h : plan.order p g = .ok order) : order.Perm plan.ids := by
  have hPerm := Dependencies.arrange_perm nodup_ids (order_arranged h)
  simpa using hPerm

theorem respects_order (h : plan.order p g = .ok order) :
    (plan.dependencies p g).Respects order :=
  Dependencies.arrange_respects (fun _ h => (List.not_mem_nil h).elim) (order_arranged h)

/-- What a context of a plan depends on. -/
theorem needs_eq {id : ContextId} {c : ContextDescriptor} (hContext : plan.context? id = some c) :
    (plan.dependencies p g).needs id =
      ascending (c.parent.toList ++ (plan.readFrom p g c).filter (· != id)) := by
  have hKeys : ((plan.entries.map fun e => (e.1, ascending (e.2.parent.toList
      ++ (plan.readFrom p g e.2).filter (· != e.1)))).map (·.1)).Nodup := by
    rw [List.map_map]
    exact entries_keys ▸ nodup_ids
  unfold Dependencies.needs dependencies
  rw [Table.get?_ofList hKeys (List.mem_map.mpr ⟨(id, c), mem_entries.mpr hContext, rfl⟩)]
  rfl

end Order

end ContextPlan

end ContextBinding
