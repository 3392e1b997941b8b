import ContextBinding.Id
import ContextBinding.Table
import Mathlib.Data.List.Basic

/-! Laws of ordered tables and of the sorted lists beside them. Look-ups obey
 the laws of finite maps whether or not the entries are in order. -/

namespace ContextBinding

open Std

instance : LawfulEqOrd TypeId where
  compare_self {a} := compare_self (a := a.index)
  eq_of_compare {a b} h := by
    cases a
    cases b
    exact congrArg TypeId.mk (LawfulEqOrd.eq_of_compare h)

instance : LawfulEqOrd FieldId where
  compare_self {a} := compare_self (a := a.index)
  eq_of_compare {a b} h := by
    cases a
    cases b
    exact congrArg FieldId.mk (LawfulEqOrd.eq_of_compare h)

instance : LawfulEqOrd MethodId where
  compare_self {a} := compare_self (a := a.index)
  eq_of_compare {a b} h := by
    cases a
    cases b
    exact congrArg MethodId.mk (LawfulEqOrd.eq_of_compare h)

instance : LawfulEqOrd InstrId where
  compare_self {a} := compare_self (a := a.index)
  eq_of_compare {a b} h := by
    cases a
    cases b
    exact congrArg InstrId.mk (LawfulEqOrd.eq_of_compare h)

instance : LawfulEqOrd ContextId where
  compare_self {a} := compare_self (a := a.index)
  eq_of_compare {a b} h := by
    cases a
    cases b
    exact congrArg ContextId.mk (LawfulEqOrd.eq_of_compare h)

section Lists

variable {α : Type}

theorem mem_insertOrdered {le : α → α → Bool} {a b : α} {l : List α} :
    b ∈ insertOrdered le a l ↔ b = a ∨ b ∈ l := by
  induction l with
  | nil => simp [insertOrdered]
  | cons c l ih =>
      rw [insertOrdered]
      split
      · simp
      · simp [ih, or_left_comm]

theorem mem_sortOrdered {le : α → α → Bool} {b : α} {l : List α} :
    b ∈ sortOrdered le l ↔ b ∈ l := by
  induction l with
  | nil => rfl
  | cons a l ih => rw [sortOrdered, mem_insertOrdered, ih, List.mem_cons]

variable [DecidableEq α]

theorem mem_dedupAdjacent {b : α} {l : List α} : b ∈ dedupAdjacent l ↔ b ∈ l := by
  fun_induction dedupAdjacent l with
  | case1 => rfl
  | case2 => rfl
  | case3 c l ih => simp [ih]
  | case4 a c l _ ih => simp [ih]

theorem mem_insertNew {a b : α} {l : List α} : b ∈ insertNew l a ↔ b ∈ l ∨ b = a := by
  unfold insertNew
  split
  · rename_i h
    exact ⟨Or.inl, fun hb => hb.elim id fun e => e ▸ h⟩
  · simp

theorem mem_ascending [Ord α] {b : α} {l : List α} : b ∈ ascending l ↔ b ∈ l := by
  rw [ascending, mem_dedupAdjacent, mem_sortOrdered]

end Lists

namespace Table

variable {κ ν : Type} [Ord κ]

theorem get?_empty (k : κ) : (∅ : Table κ ν).get? k = none := rfl

/-- The first entry of a key decides. -/
theorem get?_cons [LawfulEqOrd κ] [DecidableEq κ] (e : κ × ν) (l : List (κ × ν)) (k : κ) :
    (Table.mk (e :: l)).get? k = if e.1 = k then some e.2 else (Table.mk l).get? k := by
  unfold get?
  by_cases h : e.1 = k
  · simp [h]
  · simp [h]

theorem mem_entries_of_get? [LawfulEqOrd κ] {t : Table κ ν} {k : κ} {v : ν}
    (h : t.get? k = some v) : (k, v) ∈ t.entries := by
  obtain ⟨e, he, rfl⟩ := Option.map_eq_some_iff.mp h
  have hKey : e.1 = k := LawfulEqOrd.eq_of_compare (by simpa using List.find?_some he)
  exact hKey ▸ List.mem_of_find?_eq_some he

theorem get?_isSome_of_mem [LawfulEqOrd κ] {t : Table κ ν} {k : κ} {v : ν}
    (h : (k, v) ∈ t.entries) : (t.get? k).isSome := by
  simp only [get?, Option.isSome_map, List.find?_isSome]
  exact ⟨(k, v), h, by simp⟩

theorem get?_insert [LawfulEqOrd κ] [DecidableEq κ] (t : Table κ ν) (k j : κ) (v : ν) :
    (t.insert k v).get? j = if k = j then some v else t.get? j := by
  obtain ⟨l⟩ := t
  change (Table.mk (insertEntry k v l)).get? j = _
  induction l with
  | nil => rw [insertEntry, get?_cons]
  | cons e l ih =>
      rw [insertEntry]
      split
      · rw [get?_cons]
      · rename_i h
        have hKey : k = e.1 := LawfulEqOrd.eq_of_compare h
        simp only [get?_cons, hKey]
        split <;> rfl
      · rename_i h
        have hKey : k ≠ e.1 := by
          rintro rfl
          simp at h
        rw [get?_cons, ih, get?_cons]
        by_cases hj : e.1 = j
        · simp [hj, hj ▸ hKey]
        · simp [hj]

theorem get?_erase [LawfulEqOrd κ] [DecidableEq κ] (t : Table κ ν) (k j : κ) :
    (t.erase k).get? j = if k = j then none else t.get? j := by
  obtain ⟨l⟩ := t
  change (Table.mk (l.filter fun e => compare e.1 k != .eq)).get? j = _
  induction l with
  | nil => simp [get?]
  | cons e l ih =>
      by_cases h : e.1 = k
      · have hDrop : (compare e.1 k != .eq) = false := by simp [h]
        rw [List.filter_cons_of_neg (by simp [hDrop]), ih, get?_cons]
        subst h
        split <;> simp [*]
      · have hKeep : (compare e.1 k != .eq) = true := by simp [h]
        simp only [List.filter_cons, hKeep, if_true, get?_cons, ih]
        by_cases hj : e.1 = j
        · simp [hj, Ne.symm (hj ▸ h)]
        · simp [hj]

omit [Ord κ] in
theorem mem_values_iff {t : Table κ ν} {v : ν} : v ∈ t.values ↔ ∃ k, (k, v) ∈ t.entries := by
  simp [values]

theorem mem_values_of_get? [LawfulEqOrd κ] {t : Table κ ν} {k : κ} {v : ν}
    (h : t.get? k = some v) : v ∈ t.values :=
  mem_values_iff.mpr ⟨k, mem_entries_of_get? h⟩

theorem mem_entries_insert {t : Table κ ν} {k : κ} {v : ν} {e : κ × ν}
    (h : e ∈ (t.insert k v).entries) : e = (k, v) ∨ e ∈ t.entries := by
  obtain ⟨l⟩ := t
  change e ∈ insertEntry k v l at h
  induction l with
  | nil => exact Or.inl (List.mem_singleton.mp h)
  | cons c l ih =>
      rw [insertEntry] at h
      split at h
      · exact (List.mem_cons.mp h).imp_right id
      · exact (List.mem_cons.mp h).imp_right (List.mem_cons_of_mem _)
      · rcases List.mem_cons.mp h with rfl | h
        · exact Or.inr (List.mem_cons_self ..)
        · exact (ih h).imp_right (List.mem_cons_of_mem _)

/-- A key that was free makes one entry more. -/
theorem size_insert [LawfulEqOrd κ] [DecidableEq κ] {t : Table κ ν} {k : κ} {v : ν}
    (h : t.get? k = none) : (t.insert k v).size = t.size + 1 := by
  obtain ⟨l⟩ := t
  change (insertEntry k v l).length = l.length + 1
  induction l with
  | nil => rfl
  | cons e l ih =>
      rw [get?_cons] at h
      split at h
      · cases h
      · rename_i hOther
        rw [insertEntry]
        split
        · rfl
        · rename_i hSame
          exact (hOther (LawfulEqOrd.eq_of_compare hSame).symm).elim
        · simp [ih h]

theorem mem_values_insert {t : Table κ ν} {k : κ} {v w : ν} (h : w ∈ (t.insert k v).values) :
    w = v ∨ w ∈ t.values := by
  obtain ⟨j, hj⟩ := mem_values_iff.mp h
  rcases mem_entries_insert hj with e | hj
  · exact Or.inl (Prod.ext_iff.mp e).2
  · exact Or.inr (mem_values_iff.mpr ⟨j, hj⟩)

end Table

end ContextBinding
