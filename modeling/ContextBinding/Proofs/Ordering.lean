import ContextBinding.Proofs.Table
import Mathlib.Data.List.Sort

/-! Tables and sorted lists are in order. What is in order is determined by what it holds. -/

namespace ContextBinding

open Std

instance : TransOrd MethodId := inferInstanceAs (TransCmp (compareOn MethodId.index))

instance : TransOrd InstrId := inferInstanceAs (TransCmp (compareOn InstrId.index))

instance : TransOrd CodeSite :=
  inferInstanceAs (TransCmp (compareLex (compareOn CodeSite.method) (compareOn CodeSite.instr)))

instance : LawfulEqOrd CodeSite where
  eq_of_compare {a b} h := by
    obtain ⟨hMethod, hInstr⟩ := Ordering.then_eq_eq.mp h
    cases a
    cases b
    exact CodeSite.mk.injEq .. ▸ ⟨LawfulEqOrd.eq_of_compare hMethod, LawfulEqOrd.eq_of_compare hInstr⟩

section Lists

variable {α : Type} [Ord α]

/-- Each entry comes before all that follow it. -/
def Ascends (l : List α) : Prop := l.Pairwise fun a b => compare a b = .lt

variable [TransOrd α]

instance irrefl_compare_lt : Irrefl fun a b : α => compare a b = .lt := ⟨fun a h => by simp at h⟩

instance antisymm_compare_lt : Antisymm fun a b : α => compare a b = .lt :=
  ⟨fun a b h h' => by simp [OrientedCmp.gt_of_lt h] at h'⟩

/-- Ascending lists with the same entries are the same. -/
theorem Ascends.ext {l l' : List α} (h : Ascends l) (h' : Ascends l')
    (hMem : ∀ a, a ∈ l ↔ a ∈ l') : l = l' :=
  h.eq_of_mem_iff h' hMem

omit [TransOrd α] in
theorem Ascends.filter {l : List α} (h : Ascends l) (keep : α → Bool) : Ascends (l.filter keep) :=
  List.Pairwise.filter keep h

/-- Insertion into a sorted list leaves it sorted. -/
theorem pairwise_insertOrdered {a : α} {l : List α}
    (h : l.Pairwise fun a b => (compare a b).isLE) :
    (insertOrdered (fun a b => (compare a b).isLE) a l).Pairwise fun a b => (compare a b).isLE := by
  induction l with
  | nil => exact List.pairwise_singleton ..
  | cons b l ih =>
      obtain ⟨hFirst, hRest⟩ := List.pairwise_cons.mp h
      rw [insertOrdered]
      split
      · rename_i hLess
        refine List.pairwise_cons.mpr ⟨fun c hMem => ?_, h⟩
        rcases List.mem_cons.mp hMem with rfl | hMem
        · exact hLess
        · exact TransCmp.isLE_trans hLess (hFirst c hMem)
      · rename_i hMore
        refine List.pairwise_cons.mpr ⟨fun c hMem => ?_, ih hRest⟩
        rcases mem_insertOrdered.mp hMem with rfl | hMem
        · have hGreater : compare c b = .gt := by simpa using hMore
          exact OrientedCmp.lt_of_gt hGreater ▸ rfl
        · exact hFirst c hMem

theorem pairwise_sortOrdered (l : List α) :
    (sortOrdered (fun a b => (compare a b).isLE) l).Pairwise fun a b => (compare a b).isLE := by
  induction l with
  | nil => exact List.Pairwise.nil
  | cons a l ih => exact pairwise_insertOrdered ih

/-- A sorted list ascends once what repeats the entry before it is dropped. -/
theorem ascends_dedupAdjacent [LawfulEqOrd α] [DecidableEq α] {l : List α}
    (h : l.Pairwise fun a b => (compare a b).isLE) : Ascends (dedupAdjacent l) := by
  fun_induction dedupAdjacent l with
  | case1 => exact List.Pairwise.nil
  | case2 a => exact List.pairwise_singleton ..
  | case3 b l ih => exact ih (List.pairwise_cons.mp h).2
  | case4 a b l hDiffer ih =>
      obtain ⟨hFirst, hRest⟩ := List.pairwise_cons.mp h
      refine List.pairwise_cons.mpr ⟨fun c hMem => ?_, ih hRest⟩
      have hNext : compare a b = .lt := by
        cases hCompare : compare a b with
        | lt => rfl
        | eq => exact (hDiffer (LawfulEqOrd.eq_of_compare hCompare)).elim
        | gt => simpa [hCompare] using hFirst b (List.mem_cons_self ..)
      rcases List.mem_cons.mp (mem_dedupAdjacent.mp hMem) with rfl | hMem
      · exact hNext
      · exact TransCmp.lt_of_lt_of_isLE hNext ((List.pairwise_cons.mp hRest).1 c hMem)

theorem ascends_ascending [LawfulEqOrd α] [DecidableEq α] (l : List α) : Ascends (ascending l) :=
  ascends_dedupAdjacent (pairwise_sortOrdered l)

end Lists

namespace Table

variable {κ ν : Type} [Ord κ]

/-- The keys come in order, each once. -/
def Ordered (t : Table κ ν) : Prop := t.entries.Pairwise fun a b => compare a.1 b.1 = .lt

instance : DecidablePred fun t : Table κ ν => t.Ordered := fun t =>
  inferInstanceAs (Decidable (t.entries.Pairwise _))

theorem Ordered.empty : (∅ : Table κ ν).Ordered := List.Pairwise.nil

theorem Ordered.erase {t : Table κ ν} (h : t.Ordered) (k : κ) : (t.erase k).Ordered :=
  List.Pairwise.filter _ h

variable [TransOrd κ] [LawfulEqOrd κ]

theorem Ordered.insert {t : Table κ ν} (h : t.Ordered) (k : κ) (v : ν) : (t.insert k v).Ordered := by
  obtain ⟨l⟩ := t
  unfold Ordered at h ⊢
  change (insertEntry k v l).Pairwise _
  induction l with
  | nil => exact List.pairwise_singleton ..
  | cons e l ih =>
      obtain ⟨hFirst, hRest⟩ := List.pairwise_cons.mp h
      rw [insertEntry]
      split
      · rename_i hLess
        refine List.pairwise_cons.mpr ⟨fun c hMem => ?_, h⟩
        rcases List.mem_cons.mp hMem with rfl | hMem
        · exact hLess
        · exact TransCmp.lt_trans hLess (hFirst c hMem)
      · rename_i hSame
        obtain rfl := LawfulEqOrd.eq_of_compare hSame
        exact List.pairwise_cons.mpr ⟨hFirst, hRest⟩
      · rename_i hMore
        refine List.pairwise_cons.mpr ⟨fun c hMem => ?_, ih hRest⟩
        rcases mem_entries_insert (t := ⟨l⟩) hMem with rfl | hMem
        · exact OrientedCmp.lt_of_gt hMore
        · exact hFirst c hMem

omit [TransOrd κ] in
/-- In an ordered table every entry is found. -/
theorem Ordered.get?_eq_some [DecidableEq κ] {t : Table κ ν} (h : t.Ordered) {k : κ} {v : ν} :
    t.get? k = some v ↔ (k, v) ∈ t.entries := by
  refine ⟨mem_entries_of_get?, fun hMem => ?_⟩
  obtain ⟨l⟩ := t
  induction l with
  | nil => exact (List.not_mem_nil hMem).elim
  | cons e l ih =>
      obtain ⟨hFirst, hRest⟩ := List.pairwise_cons.mp h
      rw [get?_cons]
      rcases List.mem_cons.mp hMem with rfl | hMem
      · simp
      · have hLess := hFirst _ hMem
        have hOther : e.1 ≠ k := fun hSame => by simp [hSame] at hLess
        rw [if_neg hOther]
        exact ih hRest hMem

/-- Ordered tables that agree on the keys that satisfy a condition have the same entries there. -/
theorem Ordered.filter_congr [DecidableEq κ] {t t' : Table κ ν} (h : t.Ordered) (h' : t'.Ordered)
    {c : κ → Bool} (hSame : ∀ k, c k = true → t.get? k = t'.get? k) :
    t.entries.filter (fun e => c e.1) = t'.entries.filter fun e => c e.1 := by
  have hIrrefl : Irrefl fun a b : κ × ν => compare a.1 b.1 = .lt := ⟨fun a h => by simp at h⟩
  have hAntisymm : Antisymm fun a b : κ × ν => compare a.1 b.1 = .lt :=
    ⟨fun a b h h' => by simp [OrientedCmp.gt_of_lt h] at h'⟩
  refine (List.Pairwise.filter _ h).eq_of_mem_iff (List.Pairwise.filter _ h') fun e => ?_
  simp only [List.mem_filter, and_congr_left_iff]
  intro hCondition
  rw [← h.get?_eq_some, ← h'.get?_eq_some, hSame e.1 hCondition]

/-- Ordered tables with the same look-ups are the same. -/
theorem Ordered.ext [DecidableEq κ] {t t' : Table κ ν} (h : t.Ordered) (h' : t'.Ordered)
    (hSame : ∀ k, t.get? k = t'.get? k) : t = t' := by
  have hAll := h.filter_congr h' (c := fun _ => true) fun k _ => hSame k
  simp only [List.filter_true] at hAll
  cases t
  cases t'
  exact congrArg Table.mk hAll

end Table

end ContextBinding
