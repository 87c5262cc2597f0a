/-!
# Tables

Finite maps as lists of pairs with at most one pair a key, in the order the keys first came.
-/

namespace Formula

/-- A finite map. -/
structure Table (κ α : Type) where
  entries : List (κ × α)

namespace Table

variable {κ α : Type} [DecidableEq κ]

/-- The table without entries. -/
def empty : Table κ α := ⟨[]⟩

/-- The entry of a key. -/
def get? (t : Table κ α) (key : κ) : Option α := (t.entries.find? (·.1 = key)).map (·.2)

/-- Whether a key has an entry. -/
def contains (t : Table κ α) (key : κ) : Bool := (t.get? key).isSome

/-- Changes the entry of a key in a list of pairs, or appends one made from nothing. -/
def alterPairs (key : κ) (change : Option α → α) : List (κ × α) → List (κ × α)
  | [] => [(key, change none)]
  | p :: rest =>
    if p.1 = key then (key, change (some p.2)) :: rest else p :: alterPairs key change rest

/-- Changes the entry of a key, or adds one made from nothing. -/
def alter (t : Table κ α) (key : κ) (change : Option α → α) : Table κ α :=
  ⟨alterPairs key change t.entries⟩

/-- Sets the entry of a key. -/
def insert (t : Table κ α) (key : κ) (value : α) : Table κ α := t.alter key fun _ => value

@[simp] theorem get?_empty (key : κ) : (empty : Table κ α).get? key = none := rfl

/-- The changed key has the changed entry, every other key has what it had. -/
theorem get?_alter (t : Table κ α) (key other : κ) (change : Option α → α) :
    (t.alter key change).get? other =
      if other = key then some (change (t.get? key)) else t.get? other := by
  obtain ⟨pairs⟩ := t
  unfold alter get?
  induction pairs with
  | nil =>
    by_cases h : other = key
    · simp [alterPairs, h]
    · simp [alterPairs, h, Ne.symm h]
  | cons p rest ih =>
    by_cases hp : p.1 = key
    · by_cases h : other = key
      · simp [alterPairs, hp, h]
      · simp [alterPairs, hp, h, Ne.symm h]
    · by_cases hq : p.1 = other
      · have hne : ¬other = key := fun e => hp (hq.trans e)
        simp [alterPairs, hq, hne]
      · simpa [alterPairs, hp, hq] using ih

end Table

end Formula
