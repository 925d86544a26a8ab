/-!
# Tables that forget the least recent

A `Recency` table keeps at most `capacity` values by their keys, in the order
of their last use.  Using a key brings it to the front; a new key that finds the
table full displaces the one at the end.
-/

namespace EvmCheck

/-- A bounded table in the order of last use. -/
structure Recency (κ : Type) (α : Type) where
  /-- The largest number of entries. -/
  capacity : Nat
  /-- The entries, the most recently used first. -/
  entries : List (κ × α)

namespace Recency

variable {κ : Type} {α : Type} [DecidableEq κ]

/-- A table without entries; it always has room for one. -/
def empty (capacity : Nat) : Recency κ α where
  capacity := max capacity 1
  entries := []

/-- The number of entries. -/
def size (t : Recency κ α) : Nat :=
  t.entries.length

/-- The keys, the most recently used first. -/
def keys (t : Recency κ α) : List κ :=
  t.entries.map (·.1)

/-- The value of a key. -/
def find? (t : Recency κ α) (k : κ) : Option α :=
  (t.entries.find? (fun e => e.1 = k)).map (·.2)

/-- The entries with other keys. -/
def others (t : Recency κ α) (k : κ) : List (κ × α) :=
  t.entries.filter (fun e => e.1 ≠ k)

/-- Looks a key up; if the table has it, this use brings it to the front. -/
def get (t : Recency κ α) (k : κ) : Option α × Recency κ α :=
  match t.find? k with
  | some v => (some v, { t with entries := (k, v) :: t.others k })
  | none => (none, t)

/-- Puts a value at the front, and gives the entry that it displaces: the one
with the same key, or else the last one of a full table. -/
def push (t : Recency κ α) (k : κ) (v : α) : Recency κ α × Option (κ × α) :=
  match t.find? k with
  | some old => ({ t with entries := (k, v) :: t.others k }, some (k, old))
  | none =>
      if t.size < t.capacity then
        ({ t with entries := (k, v) :: t.entries }, none)
      else
        ({ t with entries := (k, v) :: t.entries.dropLast },
          t.entries.getLast?)

/-- Takes out all entries. -/
def clear (t : Recency κ α) : Recency κ α :=
  { t with entries := [] }

end Recency
end EvmCheck
