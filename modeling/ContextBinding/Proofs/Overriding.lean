import ContextBinding.Proofs.Exploration
import ContextBinding.Proofs.Table
import ContextBinding.Reference.Override

/-! Virtual dispatch in the override relation. Every method with code that
 overrides another one, over however many steps, is found among its
 implementations. -/

namespace ContextBinding

open Relation

/-- A virtual method in use overrides or implements another one. -/
def Program.Overrides (p : Program) (id base : MethodId) : Prop :=
  ∃ m, p.method? id = some m ∧ m.isRetired = false ∧ m.isVirtual = true ∧ base ∈ p.basesOf id m

/-- A method can be run, in that it has code and is not abstract. -/
def Program.HasCode (p : Program) (id : MethodId) : Prop :=
  ∃ m, p.method? id = some m ∧ m.isAbstract = false ∧ m.body.isSome = true

theorem Program.mem_methodIds {p : Program} {id : MethodId} {m : MethodDef}
    (h : p.method? id = some m) : id ∈ p.methodIds :=
  List.mem_map.mpr ⟨id.index, List.mem_range.mpr (List.getElem?_eq_some_iff.mp h).1, rfl⟩

section Lengths

variable {α : Type} [DecidableEq α]

theorem length_dedupAdjacent_le (l : List α) : (dedupAdjacent l).length ≤ l.length := by
  fun_induction dedupAdjacent l with
  | case1 => exact Nat.le_refl _
  | case2 => exact Nat.le_refl _
  | case3 a l ih => exact Nat.le_succ_of_le ih
  | case4 a b l _ ih => exact Nat.succ_le_succ ih

omit [DecidableEq α] in
theorem length_insertOrdered (le : α → α → Bool) (a : α) (l : List α) :
    (insertOrdered le a l).length = l.length + 1 := by
  induction l with
  | nil => rfl
  | cons b l ih =>
      rw [insertOrdered]
      split
      · rfl
      · simp [ih]

omit [DecidableEq α] in
theorem length_sortOrdered (le : α → α → Bool) (l : List α) :
    (sortOrdered le l).length = l.length := by
  induction l with
  | nil => rfl
  | cons a l ih => rw [sortOrdered, length_insertOrdered, ih, List.length_cons]

theorem length_ascending_le [Ord α] (l : List α) : (ascending l).length ≤ l.length :=
  length_sortOrdered _ l ▸ length_dedupAdjacent_le _

end Lengths

namespace OverrideGraph

variable {p : Program} {id base : MethodId}

theorem mem_overriders {g : OverrideGraph} : id ∈ g.overriders base ↔ (base, id) ∈ g.edges := by
  unfold overriders
  simp [mem_ascending]

/-- The virtual methods in use with their entries. -/
theorem mem_virtuals {m : MethodDef} :
    (id, m) ∈ p.methodIds.filterMap (fun id =>
      ((p.method? id).filter fun m => !m.isRetired && m.isVirtual).map fun m => (id, m)) ↔
        p.method? id = some m ∧ m.isRetired = false ∧ m.isVirtual = true := by
  simp only [List.mem_filterMap, Option.map_eq_some_iff, Option.filter_eq_some_iff, Prod.mk.injEq,
    Bool.and_eq_true, Bool.not_eq_true']
  constructor
  · rintro ⟨other, -, m', ⟨hMethod, hUsed, hVirtual⟩, rfl, rfl⟩
    exact ⟨hMethod, hUsed, hVirtual⟩
  · rintro ⟨hMethod, hUsed, hVirtual⟩
    exact ⟨id, Program.mem_methodIds hMethod, m, ⟨hMethod, hUsed, hVirtual⟩, rfl, rfl⟩

theorem mem_overriders_build : id ∈ (build p).overriders base ↔ p.Overrides id base := by
  rw [mem_overriders]
  unfold build Program.Overrides
  simp only [List.mem_flatMap, List.mem_map, Prod.mk.injEq, Prod.exists]
  constructor
  · rintro ⟨other, m, hMem, base', hBase, rfl, rfl⟩
    obtain ⟨hMethod, hUsed, hVirtual⟩ := mem_virtuals.mp hMem
    exact ⟨m, hMethod, hUsed, hVirtual, hBase⟩
  · rintro ⟨m, hMethod, hUsed, hVirtual, hBase⟩
    exact ⟨id, m, mem_virtuals.mpr ⟨hMethod, hUsed, hVirtual⟩, base, hBase, rfl, rfl⟩

theorem not_mem_abstracts (h : p.HasCode id) : id ∉ (build p).abstracts := by
  obtain ⟨m, hMethod, hConcrete, hBody⟩ := h
  unfold build
  simp only [List.mem_map, List.mem_filter, Prod.exists, Bool.or_eq_true, not_exists, not_and]
  rintro other m' ⟨hMem, hAbstract⟩ rfl
  obtain ⟨hMethod', -⟩ := mem_virtuals.mp hMem
  obtain rfl : m = m' := Option.some_inj.mp (hMethod.symm.trans hMethod')
  rcases hAbstract with hAbstract | hNone
  · simp [hConcrete] at hAbstract
  · simp [Option.isNone_iff_eq_none.mp hNone] at hBody

/-- Each edge allows one step to an overrider. -/
theorem length_overriders_le (g : OverrideGraph) (base : MethodId) :
    (g.overriders base).length ≤ allowance (g.edges.map fun edge => (edge.1, 1)) base := by
  refine Nat.le_trans (length_ascending_le _) ?_
  unfold allowance
  induction g.edges with
  | nil => exact Nat.le_refl _
  | cons edge edges ih =>
      by_cases hSame : edge.1 = base
      · simp only [List.filter_cons, hSame, beq_self_eq_true, if_true, List.map_cons, decide_true,
          List.length_cons, List.sum_cons] at ih ⊢
        omega
      · simpa [List.filter_cons, hSame] using ih

/-- A method with code is an implementation of whatever it overrides, directly or
over others. -/
theorem mem_implementations_build (hCode : p.HasCode id) (h : TransGen p.Overrides id base) :
    id ∈ (build p).implementations base := by
  unfold implementations
  rw [mem_ascending, List.mem_filter]
  refine ⟨?_, by simpa using not_mem_abstracts hCode⟩
  obtain ⟨first, hFirst, hRest⟩ : ∃ first, p.Overrides first base ∧
      ReflTransGen (fun a b => b ∈ (build p).overriders a) first id := by
    clear hCode
    induction h using TransGen.head_induction_on with
    | single hStep => exact ⟨_, hStep, .refl⟩
    | head hStep _ ih =>
        obtain ⟨first, hFirst, hRest⟩ := ih
        exact ⟨first, hFirst, hRest.tail (mem_overriders_build.mpr hStep)⟩
  refine mem_reach (length_overriders_le (build p)) ?_ (mem_overriders_build.mpr hFirst) hRest
  have hStart : ((build p).overriders base).length ≤ (build p).edges.length := by
    refine Nat.le_trans (length_ascending_le _) ?_
    rw [List.length_map]
    exact List.length_filter_le ..
  have hSum : (((build p).edges.map fun edge => (edge.1, 1)).map (·.2)).sum
      = (build p).edges.length := by
    simp [Function.comp_def]
  rw [hSum, bound]
  omega

end OverrideGraph

end ContextBinding
