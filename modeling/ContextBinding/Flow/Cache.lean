import ContextBinding.Flow.Index

/-!
# Kept indexes

Control-flow indexes are kept by method and made anew when the body has changed since.
-/

namespace ContextBinding

/-- The indexes that were made last, and how many were made in all. -/
structure FlowCache where
  entries : Table MethodId FlowIndex
  builds : Nat
  deriving DecidableEq, Repr

namespace FlowCache

def empty : FlowCache := ⟨∅, 0⟩

instance : Inhabited FlowCache := ⟨empty⟩

/-- The kept index of a method, if it is current for the body. -/
def current? (cache : FlowCache) (id : MethodId) (b : MethodBody) : Option FlowIndex :=
  (cache.entries.get? id).filter fun index => index.isCurrent b

/-- The index of a method's body, taken from the cache or made and put there. -/
def index (cache : FlowCache) (id : MethodId) (b : MethodBody) : FlowIndex × FlowCache :=
  match cache.current? id b with
  | some index => (index, cache)
  | none =>
    let index := FlowIndex.build b
    (index, ⟨cache.entries.insert id index, cache.builds + 1⟩)

/-- Drop the index of a method. -/
def invalidate (cache : FlowCache) (id : MethodId) : FlowCache :=
  { cache with entries := cache.entries.erase id }

/-- Drop every index. -/
def clear (cache : FlowCache) : FlowCache := { cache with entries := ∅ }

end FlowCache

end ContextBinding
