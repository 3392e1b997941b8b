/-!
# Exploration

Visiting everything that can be reached over a successor function. The frontier is a stack: what was
added last is visited first, so that of several failing successors the same one is met every time.
-/

namespace ContextBinding

variable {α ε : Type} [DecidableEq α]

/-- Visit the frontier and what can be reached from it, each thing once, ahead of what `seen` holds.
The result lists what was visited, the latest first. `fuel` bounds the number of things that are
taken from the frontier. -/
def explore (next : α → Except ε (List α)) : Nat → List α → List α → Except ε (List α)
  | 0, seen, _ => .ok seen
  | _ + 1, seen, [] => .ok seen
  | fuel + 1, seen, a :: frontier =>
    if a ∈ seen then explore next fuel seen frontier
    else do explore next fuel (a :: seen) ((← next a).reverse ++ frontier)

/-- Everything that can be reached from `start` over `next`, `start` included. -/
def reach (next : α → List α) (fuel : Nat) (start : List α) : List α :=
  match explore (ε := Empty) (fun a => .ok (next a)) fuel [] start.reverse with
  | .ok seen => seen

end ContextBinding
