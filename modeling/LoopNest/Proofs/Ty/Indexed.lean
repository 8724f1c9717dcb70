import LoopNest.Pool
import Mathlib

/-!
# Pools with an index

Searching a pool for an item takes time, so a pool is kept together with an index: a map from each
item to its handle.  The index repeats what the items say, and an insertion has to keep the two in
step.

`Indexed.Agrees` says that the index maps exactly the items, each to the one handle that holds it.
Insertions keep it (`Agrees.insert`), and where it holds the index gives what a search of the items
gives (`Agrees.lookup_pool`), so the indexed pool hands out the handles of the plain one
(`Agrees.insert_pool`).
-/

namespace LoopNest

/-- A pool, and a map that finds the handle of an item. -/
structure Indexed (α : Type) where
  /-- The items by handle. -/
  items : Array α
  /-- The handle of an item. -/
  index : α → Option Nat

namespace Indexed

variable {α : Type}

/-- No items. -/
def empty : Indexed α := ⟨#[], fun _ => none⟩

/-- The item under a handle. -/
def get? (p : Indexed α) (h : Nat) : Option α := p.items[h]?

/-- The handle of an item. -/
def lookup (p : Indexed α) (a : α) : Option Nat := p.index a

/-- The items without the index. -/
def pool (p : Indexed α) : Pool α := ⟨p.items⟩

/-- The index maps an item to a handle when the handle holds the item. -/
def Agrees (p : Indexed α) : Prop := ∀ a h, p.lookup a = some h ↔ p.get? h = some a

theorem get?_pool (p : Indexed α) (h : Nat) : p.pool.get? h = p.get? h := rfl

theorem Agrees.empty : (empty : Indexed α).Agrees := by
  intro a h
  simp [Indexed.empty, lookup, get?]

/-- The handle of an item is the only one. -/
theorem Agrees.eq_of_get? {p : Indexed α} (hp : p.Agrees) {a : α} {h : Nat}
    (ha : p.get? h = some a) (ha' : p.get? h' = some a) : h = h' := by
  have hl := (hp a h).mpr ha
  rw [(hp a h').mpr ha'] at hl
  exact (Option.some.inj hl).symm

theorem get?_lt {p : Indexed α} {a : α} {h : Nat} (ha : p.get? h = some a) : h < p.items.size :=
  (Array.getElem?_eq_some_iff.mp ha).1

variable [DecidableEq α] {p : Indexed α} {a b : α} {h : Nat}

/-- The pool with an item in it, and the item's handle. -/
def insert (p : Indexed α) (a : α) : Nat × Indexed α :=
  match p.index a with
  | some h => (h, p)
  | none => (p.items.size, ⟨p.items.push a, Function.update p.index a (some p.items.size)⟩)

/-- The pool with several items in it. -/
def insertAll (p : Indexed α) (as : List α) : Indexed α := as.foldl (fun p a => (p.insert a).2) p

theorem insert_of_lookup (hl : p.lookup a = some h) : p.insert a = (h, p) := by
  unfold insert
  rw [show p.index a = some h from hl]

theorem insert_of_lookup_none (hl : p.lookup a = none) :
    p.insert a =
      (p.items.size, ⟨p.items.push a, Function.update p.index a (some p.items.size)⟩) := by
  unfold insert
  rw [show p.index a = none from hl]

theorem get?_insert_of_get? (hb : p.get? h = some b) : (p.insert a).2.get? h = some b := by
  cases hl : p.lookup a with
  | some h' => rw [insert_of_lookup hl, hb]
  | none =>
    rw [insert_of_lookup_none hl]
    simpa [get?, Array.getElem?_push, Nat.ne_of_lt (get?_lt hb)] using hb

/-- A handle keeps its item, whatever is inserted later. -/
theorem get?_insertAll_of_get? (as : List α) (hb : p.get? h = some b) :
    (p.insertAll as).get? h = some b := by
  induction as generalizing p with
  | nil => exact hb
  | cons a as ih => exact ih (get?_insert_of_get? hb)

/-! ## Items and index stay in step -/

theorem Agrees.insert (hp : p.Agrees) (a : α) : (p.insert a).2.Agrees := by
  cases hl : p.lookup a with
  | some h =>
    rw [insert_of_lookup hl]
    exact hp
  | none =>
    rw [insert_of_lookup_none hl]
    intro b h
    simp only [lookup, get?, Array.getElem?_push]
    by_cases hb : b = a
    · -- the new item is under the new handle only, as no old handle holds it
      subst hb
      have hno : p.items[h]? ≠ some b := fun hget => by
        rw [(hp b h).mpr hget] at hl
        cases hl
      rw [Function.update_self]
      split
      · simp_all
      · simp only [Option.some.injEq, hno, iff_false]
        omega
    · rw [Function.update_of_ne hb]
      split
      · rename_i heq
        subst heq
        have hnone : p.index b ≠ some p.items.size := fun hidx =>
          absurd (get?_lt ((hp b _).mp hidx)) (Nat.lt_irrefl _)
        simp only [hnone, false_iff, Option.some.injEq]
        exact fun h => hb h.symm
      · exact hp b h

theorem Agrees.insert_of_get? (hp : p.Agrees) (ha : p.get? h = some a) : p.insert a = (h, p) :=
  insert_of_lookup ((hp a h).mpr ha)

theorem get?_insert (hp : p.Agrees) (a : α) : (p.insert a).2.get? (p.insert a).1 = some a := by
  cases hl : p.lookup a with
  | some h =>
    rw [insert_of_lookup hl]
    exact (hp a h).mp hl
  | none =>
    rw [insert_of_lookup_none hl]
    simp [get?]

/-- An insertion puts the item under one handle and leaves the other handles alone. -/
theorem get?_insert_eq_some (hp : p.Agrees) :
    (p.insert a).2.get? h = some b ↔ p.get? h = some b ∨ (h = (p.insert a).1 ∧ b = a) := by
  constructor
  · intro hb
    by_cases hba : b = a
    · subst hba
      exact .inr ⟨(hp.insert b).eq_of_get? hb (get?_insert hp b), rfl⟩
    · left
      have hidx := (hp.insert a b h).mpr hb
      cases hl : p.lookup a with
      | some h' =>
        rw [insert_of_lookup hl] at hb
        exact hb
      | none =>
        rw [insert_of_lookup_none hl] at hidx
        simp only [lookup, Function.update_of_ne hba] at hidx
        exact (hp b h).mp hidx
  · rintro (hb | ⟨rfl, rfl⟩)
    · exact get?_insert_of_get? hb
    · exact get?_insert hp _

/-! ## The plain pool -/

theorem Agrees.lookup_pool (hp : p.Agrees) (a : α) : p.pool.lookup a = p.lookup a := by
  cases hl : p.pool.lookup a with
  | some h => exact ((hp a h).mpr (Pool.get?_of_lookup hl)).symm
  | none =>
    symm
    rw [Option.eq_none_iff_forall_not_mem]
    intro h hmem
    have hget := (hp a h).mp hmem
    simp only [Pool.lookup, Array.findIdx?_eq_none_iff, decide_eq_false_iff_not] at hl
    exact hl a (Array.mem_of_getElem? hget) rfl

theorem Agrees.insert_pool (hp : p.Agrees) (a : α) :
    p.pool.insert a = ((p.insert a).1, (p.insert a).2.pool) := by
  unfold Pool.insert
  rw [hp.lookup_pool a]
  cases hl : p.lookup a with
  | some h => rw [insert_of_lookup hl]
  | none =>
    rw [insert_of_lookup_none hl]
    rfl

end Indexed

end LoopNest
