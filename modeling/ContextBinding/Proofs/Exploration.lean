import ContextBinding.Exploration
import Mathlib

/-! Exploration is complete. With enough fuel, everything that can be reached
 over the successor function is visited. -/

namespace ContextBinding

open Relation

variable {α ε : Type} [DecidableEq α]

/-- The number of successors that a table of counts allows a thing to have. -/
def allowance (counts : List (α × Nat)) (a : α) : Nat :=
  ((counts.filter fun e => e.1 = a).map (·.2)).sum

/-- The number of successors that are still to come from what was not seen. -/
def unseenAllowance (counts : List (α × Nat)) (seen : List α) : Nat :=
  ((counts.filter fun e => e.1 ∉ seen).map (·.2)).sum

/-- Seeing one more thing uses up its allowance. -/
theorem unseenAllowance_cons (counts : List (α × Nat)) {seen : List α} {a : α} (h : a ∉ seen) :
    unseenAllowance counts (a :: seen) + allowance counts a = unseenAllowance counts seen := by
  unfold unseenAllowance allowance
  induction counts with
  | nil => rfl
  | cons e counts ih =>
      rcases e with ⟨b, n⟩
      by_cases hb : b = a
      · subst hb
        simp only [List.mem_cons, not_or, List.filter_cons, decide_true, if_true, h,
          not_false_eq_true, not_true, false_and, decide_false, Bool.false_eq_true, if_false,
          List.map_cons, List.sum_cons] at ih ⊢
        omega
      · by_cases hSeen : b ∈ seen
        · simpa [hb, hSeen] using ih
        · simp only [List.mem_cons, not_or, List.filter_cons, hb, hSeen, not_false_eq_true,
            and_self, decide_true, decide_false, Bool.false_eq_true, if_true, if_false,
            List.map_cons, List.sum_cons] at ih ⊢
          omega

theorem unseenAllowance_nil (counts : List (α × Nat)) :
    unseenAllowance counts [] = (counts.map (·.2)).sum := by
  simp [unseenAllowance]

/-- A number of equal entries allows as many successors. -/
theorem allowance_map_one (l : List α) (a : α) :
    allowance (l.map fun b => (b, 1)) a = l.countP (· = a) := by
  unfold allowance
  simp [List.filter_map, Function.comp_def, List.countP_eq_length_filter]

/-- What one entry allows is allowed. -/
theorem le_allowance {counts : List (α × Nat)} {a : α} {n : Nat} (h : (a, n) ∈ counts) :
    n ≤ allowance counts a := by
  unfold allowance
  induction counts with
  | nil => exact (List.not_mem_nil h).elim
  | cons e counts ih =>
      rcases List.mem_cons.mp h with rfl | h
      · simp
      · have hRest := ih h
        rw [List.filter_cons]
        split
        · rw [List.map_cons, List.sum_cons]
          omega
        · exact hRest

/-- An exploration that starts where all is well, and is not led away from there,
comes to an end there. -/
theorem explore_within {next : α → Except ε (List α)} {P : α → Prop}
    (hNext : ∀ a, P a → ∃ l, next a = .ok l ∧ ∀ b ∈ l, P b)
    {fuel : Nat} {seen frontier : List α} (hSeen : ∀ a ∈ seen, P a)
    (hFrontier : ∀ a ∈ frontier, P a) :
    ∃ result, explore next fuel seen frontier = .ok result ∧ ∀ a ∈ result, P a := by
  induction fuel generalizing seen frontier with
  | zero => exact ⟨seen, rfl, hSeen⟩
  | succ fuel ih =>
      cases frontier with
      | nil => exact ⟨seen, rfl, hSeen⟩
      | cons a frontier =>
          obtain ⟨hFirst, hRest⟩ := List.forall_mem_cons.mp hFrontier
          rw [explore]
          split
          · exact ih hSeen hRest
          · obtain ⟨l, hSucc, hLed⟩ := hNext a hFirst
            rw [hSucc]
            refine ih (List.forall_mem_cons.mpr ⟨hFirst, hSeen⟩) fun b hb => ?_
            rcases List.mem_append.mp hb with hb | hb
            · exact hLed b (List.mem_reverse.mp hb)
            · exact hRest b hb

/-- What an exploration returns holds the frontier and what was seen before, and
is closed under successors of what it adds. Each thing taken from the frontier
costs one unit of fuel, and every thing adds its successors once. -/
theorem explore_closed {next : α → Except ε (List α)} {counts : List (α × Nat)} {P : α → Prop}
    (hNext : ∀ a l, P a → next a = .ok l → l.length ≤ allowance counts a ∧ ∀ b ∈ l, P b)
    {fuel : Nat} {seen frontier result : List α} (hFrontier : ∀ a ∈ frontier, P a)
    (hRun : explore next fuel seen frontier = .ok result)
    (hFuel : frontier.length + unseenAllowance counts seen ≤ fuel) :
    (∀ a, a ∈ frontier ∨ a ∈ seen → a ∈ result) ∧
      ∀ a ∈ result, a ∈ seen ∨ ∃ l, next a = .ok l ∧ ∀ b ∈ l, b ∈ result := by
  induction fuel generalizing seen frontier with
  | zero =>
      have hEmpty : frontier = [] := List.eq_nil_of_length_eq_zero (by omega)
      subst hEmpty
      obtain rfl : seen = result := by simpa [explore] using hRun
      exact ⟨fun a h => h.elim (fun h => (List.not_mem_nil h).elim) id, fun a h => Or.inl h⟩
  | succ fuel ih =>
      cases frontier with
      | nil =>
          obtain rfl : seen = result := by simpa [explore] using hRun
          exact ⟨fun a h => h.elim (fun h => (List.not_mem_nil h).elim) id, fun a h => Or.inl h⟩
      | cons a frontier =>
          obtain ⟨hFirst, hRest⟩ := List.forall_mem_cons.mp hFrontier
          rw [explore] at hRun
          rw [List.length_cons] at hFuel
          split at hRun
          · rename_i hSeen
            obtain ⟨hHeld, hClosed⟩ := ih hRest hRun (by omega)
            refine ⟨fun b hb => hHeld b ?_, hClosed⟩
            rcases hb with hb | hb
            · rcases List.mem_cons.mp hb with rfl | hb
              · exact Or.inr hSeen
              · exact Or.inl hb
            · exact Or.inr hb
          · rename_i hNew
            cases hSucc : next a with
            | error e => simp [hSucc, bind, Except.bind] at hRun
            | ok l =>
                simp only [hSucc, bind, Except.bind] at hRun
                obtain ⟨hLength, hLed⟩ := hNext a l hFirst hSucc
                have hLeft := unseenAllowance_cons counts hNew
                have hBound : (l.reverse ++ frontier).length + unseenAllowance counts (a :: seen)
                    ≤ fuel := by
                  rw [List.length_append, List.length_reverse]
                  omega
                have hAhead (b : α) (hb : b ∈ l.reverse ++ frontier) : P b :=
                  (List.mem_append.mp hb).elim (fun hb => hLed b (List.mem_reverse.mp hb)) (hRest b)
                obtain ⟨hHeld, hClosed⟩ := ih hAhead hRun hBound
                constructor
                · intro b hb
                  apply hHeld
                  simp only [List.mem_cons, List.mem_append, List.mem_reverse] at hb ⊢
                  tauto
                · intro b hb
                  rcases hClosed b hb with hb | hb
                  · rcases List.mem_cons.mp hb with rfl | hb
                    · exact Or.inr ⟨l, hSucc, fun c hc => hHeld c (Or.inl (by simp [hc]))⟩
                    · exact Or.inl hb
                  · exact Or.inr hb

/-- With enough fuel an exploration visits exactly what can be reached from where it starts. -/
theorem explore_visits {next : α → Except ε (List α)}
    {step : α → α → Prop} {counts : List (α × Nat)} {P : α → Prop}
    (hNext : ∀ a, P a → ∃ l, next a = .ok l ∧ l.length ≤ allowance counts a ∧
      ∀ b, b ∈ l ↔ step a b) (hKeep : ∀ a b, P a → step a b → P b) {fuel : Nat} {start : List α}
    (hStart : ∀ a ∈ start, P a) (hFuel : start.length + (counts.map (·.2)).sum ≤ fuel) :
    ∃ visited, explore next fuel [] start = .ok visited ∧
      ∀ b, b ∈ visited ↔ ∃ a ∈ start, ReflTransGen step a b := by
  let Q (b : α) : Prop := P b ∧ ∃ a ∈ start, ReflTransGen step a b
  have hFrom : ∀ a ∈ start, Q a := fun a hMem => ⟨hStart a hMem, a, hMem, .refl⟩
  have hLed {a b : α} (h : Q a) (hStep : step a b) : Q b := by
    obtain ⟨hP, first, hMem, hPath⟩ := h
    exact ⟨hKeep a b hP hStep, first, hMem, hPath.tail hStep⟩
  have hWithin (a : α) (h : Q a) : ∃ l, next a = .ok l ∧ ∀ b ∈ l, Q b := by
    obtain ⟨l, hl, -, hMem⟩ := hNext a h.1
    exact ⟨l, hl, fun b hb => hLed h ((hMem b).mp hb)⟩
  have hCounts (a : α) (l : List α) (h : Q a) (hl : next a = .ok l) :
      l.length ≤ allowance counts a ∧ ∀ b ∈ l, Q b := by
    obtain ⟨l', hl', hLength, hMem⟩ := hNext a h.1
    obtain rfl : l' = l := Except.ok.inj (hl'.symm.trans hl)
    exact ⟨hLength, fun b hb => hLed h ((hMem b).mp hb)⟩
  have hNone : ∀ a ∈ ([] : List α), Q a := fun _ h => (List.not_mem_nil h).elim
  obtain ⟨visited, hRun, hSound⟩ : ∃ visited, explore next fuel [] start = .ok visited ∧ _ :=
    explore_within hWithin hNone hFrom
  obtain ⟨hHeld, hClosed⟩ := explore_closed hCounts hFrom hRun (by rwa [unseenAllowance_nil])
  refine ⟨visited, hRun, fun b => ⟨fun hMem => (hSound b hMem).2, ?_⟩⟩
  rintro ⟨a, hMem, hPath⟩
  induction hPath with
  | refl => exact hHeld a (Or.inl hMem)
  | @tail c d _ hStep ih =>
      obtain ⟨l, hl, hAll⟩ := (hClosed c ih).resolve_left List.not_mem_nil
      obtain ⟨l', hl', -, hIff⟩ := hNext c (hSound c ih).1
      obtain rfl : l' = l := Except.ok.inj (hl'.symm.trans hl)
      exact hAll d ((hIff d).mpr hStep)

/-- Everything on a path from the start is reached. -/
theorem mem_reach {next : α → List α} {counts : List (α × Nat)}
    (hNext : ∀ a, (next a).length ≤ allowance counts a) {fuel : Nat} {start : List α}
    (hFuel : start.length + (counts.map (·.2)).sum ≤ fuel) {a b : α} (hStart : a ∈ start)
    (hPath : ReflTransGen (fun a b => b ∈ next a) a b) : b ∈ reach next fuel start := by
  have hGoes (a : α) (_ : True) : ∃ l, (Except.ok (next a) : Except Empty (List α)) = .ok l ∧
      l.length ≤ allowance counts a ∧ ∀ b, b ∈ l ↔ b ∈ next a :=
    ⟨next a, rfl, hNext a, fun _ => Iff.rfl⟩
  have hEnough : start.reverse.length + (counts.map (·.2)).sum ≤ fuel := by
    rwa [List.length_reverse]
  obtain ⟨visited, hRun, hVisited⟩ := explore_visits hGoes (fun _ _ _ _ => trivial)
    (fun _ _ => trivial) hEnough
  unfold reach
  rw [hRun]
  exact (hVisited b).mpr ⟨a, List.mem_reverse.mpr hStart, hPath⟩

/-- Whatever is reached is on a path from the start. -/
theorem reach_within {next : α → List α} {fuel : Nat} {start : List α} {b : α}
    (h : b ∈ reach next fuel start) :
    ∃ a ∈ start, ReflTransGen (fun a b => b ∈ next a) a b := by
  have hNext (a : α) (hPath : ∃ first ∈ start, ReflTransGen (fun a b => b ∈ next a) first a) :
      ∃ l, (Except.ok (next a) : Except Empty (List α)) = .ok l ∧
        ∀ b ∈ l, ∃ first ∈ start, ReflTransGen (fun a b => b ∈ next a) first b := by
    obtain ⟨first, hFirst, hPath⟩ := hPath
    exact ⟨next a, rfl, fun b hb => ⟨first, hFirst, hPath.tail hb⟩⟩
  have hFrontier : ∀ a ∈ start.reverse, ∃ first ∈ start,
      ReflTransGen (fun a b => b ∈ next a) first a :=
    fun a h => ⟨a, List.mem_reverse.mp h, .refl⟩
  have hSeen : ∀ a ∈ ([] : List α), ∃ first ∈ start,
      ReflTransGen (fun a b => b ∈ next a) first a :=
    fun a h => (List.not_mem_nil h).elim
  obtain ⟨result, hRun, hWithin⟩ : ∃ result, explore (fun a => Except.ok (ε := Empty) (next a))
      fuel [] start.reverse = .ok result ∧ _ := explore_within hNext hSeen hFrontier
  unfold reach at h
  rw [hRun] at h
  exact hWithin b h

/-- Nothing is visited twice. -/
theorem explore_nodup {next : α → Except ε (List α)} {fuel : Nat} {seen frontier result : List α}
    (hSeen : seen.Nodup) (h : explore next fuel seen frontier = .ok result) : result.Nodup := by
  induction fuel generalizing seen frontier with
  | zero =>
      obtain rfl : seen = result := by simpa [explore] using h
      exact hSeen
  | succ fuel ih =>
      cases frontier with
      | nil =>
          obtain rfl : seen = result := by simpa [explore] using h
          exact hSeen
      | cons a frontier =>
          rw [explore] at h
          split at h
          · exact ih hSeen h
          · rename_i hNew
            cases hSucc : next a with
            | error e => simp [hSucc, bind, Except.bind] at h
            | ok l =>
                simp only [hSucc, bind, Except.bind] at h
                exact ih (List.nodup_cons.mpr ⟨hNew, hSeen⟩) h

theorem reach_nodup (next : α → List α) (fuel : Nat) (start : List α) :
    (reach next fuel start).Nodup := by
  unfold reach
  split
  rename_i seen hRun
  exact explore_nodup List.nodup_nil hRun

end ContextBinding
