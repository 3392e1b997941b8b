/-!
# Parts of a state

An edit of one part of a larger state, with its failures taken as failures of the whole.
-/

namespace ContextBinding

/-- Run an edit on the part of the state that `part` reads and `put` writes. Also what was changed
before a failure is written back. -/
def focus {ε ε' σ τ α : Type} (part : σ → τ) (put : τ → σ → σ) (wrap : ε → ε')
    (edit : EStateM ε τ α) : EStateM ε' σ α := fun s =>
  match edit (part s) with
  | .ok a t => .ok a (put t s)
  | .error e t => .error (wrap e) (put t s)

end ContextBinding
