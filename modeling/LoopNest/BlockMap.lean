import LoopNest.Inst

/-!
# Maps on blocks

A map from block numbers to something, held in an array with one slot per number.
The array grows as needed, so every block can be a key, and all laws are about
`get?` alone: a new map has no keys (`get?_empty`), an insertion changes one key
(`get?_insert`), and a map that is made from a list of pairs finds what a search of
the list finds (`get?_ofList`).

A set of blocks is a map to the unit type.
-/

namespace LoopNest

/-- A map from block numbers. -/
structure BlockMap (α : Type) where
  /-- The slot of each block; there may be none for blocks without a value. -/
  slots : Array (Option α)
deriving DecidableEq, Inhabited

/-- A set of blocks. -/
abbrev BlockSet := BlockMap Unit

namespace BlockMap

variable {α : Type}

/-- The map without keys. -/
def empty : BlockMap α := ⟨#[]⟩

/-- The value of a block. -/
def get? (m : BlockMap α) (b : BlockId) : Option α := m.slots[b]?.join

/-- Whether a block has a value. -/
def contains (m : BlockMap α) (b : BlockId) : Bool := (m.get? b).isSome

/-- The slots, with one for the given block. -/
def padded (slots : Array (Option α)) (b : BlockId) : Array (Option α) :=
  if b < slots.size then slots else slots ++ Array.replicate (b + 1 - slots.size) none

/-- The map with a value for a block. -/
def insert (m : BlockMap α) (b : BlockId) (a : α) : BlockMap α :=
  ⟨(padded m.slots b).setIfInBounds b (some a)⟩

/-- The map of a list of pairs.  The first pair for a block counts. -/
def ofList (pairs : List (BlockId × α)) : BlockMap α :=
  pairs.foldr (fun p m => m.insert p.1 p.2) empty

/-! ## Laws -/

/-- The empty map has no values. -/
theorem get?_empty (b : BlockId) : (empty : BlockMap α).get? b = none := by
  simp [get?, empty]

/-- There is a slot for the block. -/
theorem lt_size_padded (slots : Array (Option α)) (b : Nat) : b < (padded slots b).size := by
  unfold padded
  split
  · assumption
  · simp only [Array.size_append, Array.size_replicate]
    omega

/-- More slots give no more values. -/
theorem join_getElem?_padded (slots : Array (Option α)) (b c : Nat) :
    (padded slots b)[c]?.join = slots[c]?.join := by
  unfold padded
  split
  · rfl
  · rcases Nat.lt_or_ge c slots.size with h | h
    · simp [Array.getElem?_append, h]
    · rw [Array.getElem?_eq_none h]
      simp only [Array.getElem?_append, Nat.not_lt.mpr h, if_false, Array.getElem?_replicate]
      split <;> rfl

/-- An insertion changes the value of one block. -/
theorem get?_insert (m : BlockMap α) (b c : BlockId) (a : α) :
    (m.insert b a).get? c = if b = c then some a else m.get? c := by
  unfold get? insert
  by_cases h : b = c
  · subst h
    simp [lt_size_padded]
  · rw [Array.getElem?_setIfInBounds_ne h, join_getElem?_padded]
    simp [h]

/-- An insertion makes one block a key. -/
theorem contains_insert (m : BlockMap α) (b c : BlockId) (a : α) :
    (m.insert b a).contains c = (b == c || m.contains c) := by
  unfold contains
  rw [get?_insert]
  by_cases h : b = c <;> simp [h]

/-- A map made from a list finds the first pair for a block. -/
theorem get?_ofList (pairs : List (BlockId × α)) (b : BlockId) :
    (ofList pairs).get? b = pairs.lookup b := by
  induction pairs with
  | nil => exact get?_empty b
  | cons p ps ih =>
    obtain ⟨c, a⟩ := p
    change ((ofList ps).insert c a).get? b = _
    rw [get?_insert, ih, List.lookup_cons]
    by_cases h : c = b
    · simp [h]
    · simp [h, beq_eq_false_iff_ne.mpr (Ne.symm h)]

end BlockMap

end LoopNest
