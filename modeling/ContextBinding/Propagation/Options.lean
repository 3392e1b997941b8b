/-!
# Options and counters

What may be chosen about a run, and what it counts.
-/

namespace ContextBinding

/-- What may be chosen about how methods are bound. -/
structure PropagationOptions where
  /-- Fail on a capture that cannot be adapted instead of leaving it alone. -/
  strictCaptures : Bool
  /-- Call init units that moved to a context from its constructor if nothing else calls them. -/
  inlineInitUnits : Bool
  /-- Take replaced methods and moved fields from their owners. -/
  retireReplaced : Bool
  /-- The number of batches that may be worked on. -/
  maxIterations : Option Nat
  deriving DecidableEq, Repr

instance : Inhabited PropagationOptions := ⟨⟨true, true, true, none⟩⟩

/-- What a run counts. -/
structure PropagationStats where
  /-- Batches of methods. -/
  iterations : Nat
  /-- Visits of methods over all batches. -/
  visits : Nat
  /-- Methods that were bound. -/
  transitions : Nat
  /-- Places adapted in the code of methods that reach the root. -/
  adaptedSites : Nat
  /-- Places whose operands were stored and loaded again. -/
  spilledSites : Nat
  captureSites : Nat
  skippedCaptureSites : Nat
  deriving DecidableEq, Repr

instance : Inhabited PropagationStats := ⟨⟨0, 0, 0, 0, 0, 0, 0⟩⟩

end ContextBinding
