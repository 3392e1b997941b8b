/-!
# Ordered tables and sorting

Finite maps as association lists in ascending key order, so that equal contents are equal values,
and a stable sort by a Boolean comparison. Both are structurally recursive.
-/

namespace ContextBinding

/-- Insert `a` ahead of the first entry that it does not come after. -/
def insertOrdered {α : Type} (le : α → α → Bool) (a : α) : List α → List α
  | [] => [a]
  | b :: rest => if le a b then a :: b :: rest else b :: insertOrdered le a rest

/-- Stable sort: entries that `le` does not tell apart keep their order. -/
def sortOrdered {α : Type} (le : α → α → Bool) : List α → List α
  | [] => []
  | a :: rest => insertOrdered le a (sortOrdered le rest)

/-- Drop each entry that equals the one before it. -/
def dedupAdjacent {α : Type} [DecidableEq α] : List α → List α
  | [] => []
  | [a] => [a]
  | a :: b :: rest => if a = b then dedupAdjacent (b :: rest) else a :: dedupAdjacent (b :: rest)

/-- Append `a` unless it is already there. -/
def insertNew {α : Type} [DecidableEq α] (l : List α) (a : α) : List α :=
  if a ∈ l then l else l ++ [a]

/-- The entries in ascending order, each once. -/
def ascending {α : Type} [DecidableEq α] [Ord α] (l : List α) : List α :=
  dedupAdjacent (sortOrdered (fun a b => (compare a b).isLE) l)

/-- A finite map, its entries in ascending key order. -/
structure Table (κ ν : Type) where
  entries : List (κ × ν)
  deriving DecidableEq, Repr

namespace Table

variable {κ ν : Type} [Ord κ]

/-- The table without entries. -/
def empty : Table κ ν := ⟨[]⟩

instance : EmptyCollection (Table κ ν) := ⟨empty⟩

instance : Inhabited (Table κ ν) := ⟨empty⟩

/-- The value stored under `k`. -/
def get? (t : Table κ ν) (k : κ) : Option ν :=
  (t.entries.find? fun e => compare e.1 k == .eq).map (·.2)

/-- Whether some value is stored under `k`. -/
def contains (t : Table κ ν) (k : κ) : Bool := (t.get? k).isSome

/-- Store `v` under `k` in a list of entries, in place of what was there. -/
def insertEntry (k : κ) (v : ν) : List (κ × ν) → List (κ × ν)
  | [] => [(k, v)]
  | e :: rest =>
    match compare k e.1 with
    | .lt => (k, v) :: e :: rest
    | .eq => (k, v) :: rest
    | .gt => e :: insertEntry k v rest

/-- Store `v` under `k`, in place of what was there. -/
def insert (t : Table κ ν) (k : κ) (v : ν) : Table κ ν := ⟨insertEntry k v t.entries⟩

/-- Drop the entry of `k`, if there is one. -/
def erase (t : Table κ ν) (k : κ) : Table κ ν :=
  ⟨t.entries.filter fun e => compare e.1 k != .eq⟩

/-- Keep the entries that satisfy `p`. -/
def filter (t : Table κ ν) (p : κ → ν → Bool) : Table κ ν :=
  ⟨t.entries.filter fun e => p e.1 e.2⟩

/-- The keys in ascending order. -/
def keys (t : Table κ ν) : List κ := t.entries.map (·.1)

/-- The values in the order of their keys. -/
def values (t : Table κ ν) : List ν := t.entries.map (·.2)

/-- The number of entries. -/
def size (t : Table κ ν) : Nat := t.entries.length

/-- Whether there is no entry. -/
def isEmpty (t : Table κ ν) : Bool := t.entries.isEmpty

/-- The table of the given pairs; a later pair wins over an earlier one with the same key. -/
def ofList (l : List (κ × ν)) : Table κ ν := l.foldl (fun t e => t.insert e.1 e.2) empty

end Table

end ContextBinding
