import ContextBinding.Proofs.Captures
import ContextBinding.Proofs.History
import Mathlib.Logic.Function.Basic

/-! The cache of control-flow indexes never serves a stale one. A kept index tells by revision and
size only whether it is current; that is enough, because no edit changes a body without advancing
its revision. -/

namespace ContextBinding

/-- What may happen to bodies and to the indexes kept of them. -/
inductive CacheEvent where
  | index (method : MethodId)
  | invalidate (method : MethodId)
  | clear
  | edit (method : MethodId) (change : BodyChange)

/-- The bodies of methods with the indexes kept of them. -/
structure CachedBodies where
  cache : FlowCache
  bodies : MethodId → MethodBody

namespace CachedBodies

/-- Nothing is kept yet. -/
def start (bodies : MethodId → MethodBody) : CachedBodies := ⟨.empty, bodies⟩

/-- The index that the cache yields for the body of a method. -/
def serve (s : CachedBodies) (method : MethodId) : FlowIndex :=
  (s.cache.index method (s.bodies method)).1

/-- An event takes place. An edit may fail; no index is dropped after it. -/
def next (s : CachedBodies) : CacheEvent → CachedBodies
  | .index method => { s with cache := (s.cache.index method (s.bodies method)).2 }
  | .invalidate method => { s with cache := s.cache.invalidate method }
  | .clear => { s with cache := s.cache.clear }
  | .edit method change =>
    { s with bodies := Function.update s.bodies method ((s.bodies method).after change) }

def run (s : CachedBodies) (events : List CacheEvent) : CachedBodies := events.foldl next s

/-- Every kept index was made from a version of the method's body that the present one continues. -/
def Continued (s : CachedBodies) : Prop :=
  ∀ method index, s.cache.entries.get? method = some index →
    ∃ b : MethodBody, index = FlowIndex.build b ∧ b.Later (s.bodies method)

variable {s : CachedBodies}

theorem continued_start (bodies : MethodId → MethodBody) : (start bodies).Continued := by
  intro method index h
  cases h

/-- Where an index is current, its body has not been changed since. -/
theorem Continued.describes (h : s.Continued) (method : MethodId) :
    s.cache.Describes method (s.bodies method) := by
  intro index hCurrent
  obtain ⟨hKept, hFits⟩ := Option.filter_eq_some_iff.mp hCurrent
  obtain ⟨b, rfl, hLater⟩ := h method index hKept
  have hRevision : b.revision = (s.bodies method).revision := by
    rw [FlowIndex.isCurrent, Bool.and_eq_true, beq_iff_eq] at hFits
    exact hFits.1
  rcases hLater with hSame | hAdvanced
  · rw [hSame]
  · exact absurd hAdvanced (Nat.not_lt.mpr (Nat.le_of_eq hRevision.symm))

theorem Continued.next (h : s.Continued) (event : CacheEvent) : (s.next event).Continued := by
  intro other index hKept
  cases event with
  | index method =>
      unfold CachedBodies.next FlowCache.index at hKept
      dsimp only at hKept
      split at hKept
      · exact h other index hKept
      · rw [Table.get?_insert] at hKept
        split at hKept
        · rename_i hMethod
          obtain rfl := hMethod
          obtain rfl := Option.some_inj.mp hKept
          exact ⟨s.bodies method, rfl, refl (r := MethodBody.Later) _⟩
        · exact h other index hKept
  | invalidate method =>
      change (s.cache.entries.erase method).get? other = some index at hKept
      rw [Table.get?_erase] at hKept
      split at hKept
      · cases hKept
      · exact h other index hKept
  | clear => cases hKept
  | edit method change =>
      obtain ⟨b, hIndex, hLater⟩ := h other index hKept
      refine ⟨b, hIndex, ?_⟩
      by_cases hMethod : other = method
      · subst hMethod
        have hEdited : (s.bodies other).Later ((s.bodies other).after change) :=
          MethodBody.later_after ..
        change b.Later (Function.update s.bodies other _ other)
        rw [Function.update_self]
        exact IsTrans.trans _ _ _ hLater hEdited
      · change b.Later (Function.update s.bodies method _ other)
        rw [Function.update_of_ne hMethod]
        exact hLater

theorem Continued.run (h : s.Continued) (events : List CacheEvent) : (s.run events).Continued := by
  induction events generalizing s with
  | nil => exact h
  | cons event events ih => exact ih (h.next event)

/-- Whatever look-ups, invalidations and edits came before, of which the edits may have failed, the
index that is served for the body of a method is the one that would be made from it now. -/
theorem serve_run (bodies : MethodId → MethodBody) (events : List CacheEvent) (method : MethodId) :
    ((start bodies).run events).serve method
      = FlowIndex.build (((start bodies).run events).bodies method) := by
  have hContinued : ((start bodies).run events).Continued := (continued_start bodies).run events
  exact (hContinued.describes method).index.1

end CachedBodies

end ContextBinding
