/-!
# Interning pools

A pool holds distinct items under handles 0, 1, 2, ... in the order of their
first insertion.  Inserting an item that is already there returns its handle
and leaves the pool alone, so two handles are equal exactly when their items
are.  Items are never removed.
-/

namespace LoopNest

/-- Distinct items, each under the index of its first insertion. -/
structure Pool (α : Type) where
  /-- The items by handle. -/
  items : Array α
deriving Inhabited

namespace Pool

variable {α : Type}

/-- The pool without items. -/
def empty : Pool α := ⟨#[]⟩

/-- The number of items. -/
def size (p : Pool α) : Nat := p.items.size

/-- The item under a handle. -/
def get? (p : Pool α) (h : Nat) : Option α := p.items[h]?

variable [DecidableEq α]

/-- The handle of an item. -/
def lookup (p : Pool α) (a : α) : Option Nat := p.items.findIdx? (· = a)

/-- The pool with an item in it, and the item's handle. -/
def insert (p : Pool α) (a : α) : Nat × Pool α :=
  match p.lookup a with
  | some h => (h, p)
  | none => (p.size, ⟨p.items.push a⟩)

/-! ## Laws -/

/-- Looking an item up finds a handle that holds it. -/
theorem get?_of_lookup {p : Pool α} {a : α} {h : Nat} (hl : p.lookup a = some h) :
    p.get? h = some a := by
  obtain ⟨hlt, heq, _⟩ := Array.findIdx?_eq_some_iff_getElem.1 hl
  simp only [decide_eq_true_eq] at heq
  simp [get?, Array.getElem?_eq_getElem hlt, heq]

/-- The handle that an insertion returns holds the item. -/
theorem get?_insert (p : Pool α) (a : α) : (p.insert a).2.get? (p.insert a).1 = some a := by
  unfold insert
  cases h : p.lookup a with
  | some i => exact get?_of_lookup h
  | none => simp [get?, size]

/-- An insertion keeps the items under the handles given out before. -/
theorem get?_insert_of_lt (p : Pool α) (a : α) {h : Nat} (hlt : h < p.size) :
    (p.insert a).2.get? h = p.get? h := by
  unfold insert
  cases p.lookup a with
  | some i => rfl
  | none =>
    simp only [size] at hlt
    simp [get?, Array.getElem?_push, Nat.ne_of_lt hlt]

end Pool

end LoopNest
