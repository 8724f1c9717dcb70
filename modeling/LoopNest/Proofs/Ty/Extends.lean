import LoopNest.Ty.Layout
import Mathlib.Logic.Basic

/-!
# Growing type tables

A pass may intern types.  The table then `Extends` the old one: every handle keeps its type.
In a table where every type comes after its components (`Closed`), sizes do not depend on what
is interned later (`Extends.paddedSize_eq`).
-/

namespace LoopNest

namespace TypeTable

/-- Every handle keeps its type. -/
def Extends (tt tt' : TypeTable) : Prop := ∀ t ty, tt.get? t = some ty → tt'.get? t = some ty

/-- Every type comes after its components. -/
def Closed (tt : TypeTable) : Prop :=
  ∀ t ty, tt.get? t = some ty → ∀ c ∈ ty.shape.components, c < t

theorem Extends.refl (tt : TypeTable) : tt.Extends tt := fun _ _ h => h

theorem Extends.trans {tt tt' tt'' : TypeTable} (h : tt.Extends tt') (h' : tt'.Extends tt'') :
    tt.Extends tt'' := fun t ty ht => h' t ty (h t ty ht)

variable {tt tt' : TypeTable} {t : Nat}

theorem lt_size_iff : t < tt.size ↔ ∃ ty, tt.get? t = some ty := by
  unfold Pool.get? Pool.size
  constructor
  · intro h
    exact ⟨tt.items[t], Array.getElem?_eq_getElem h⟩
  · rintro ⟨ty, h⟩
    exact (Array.getElem?_eq_some_iff.mp h).1

theorem lt_size_of_shape (h : tt.shape t ≠ .void) : t < tt.size := by
  rw [lt_size_iff]
  unfold shape at h
  cases ht : tt.get? t with
  | none =>
    rw [ht] at h
    exact absurd rfl h
  | some ty => exact ⟨ty, rfl⟩

/-! ## Interning -/

theorem extends_insert (tt : TypeTable) (ty : Ty) : tt.Extends (tt.insert ty).2 := by
  intro t u ht
  rw [Pool.get?_insert_of_lt _ _ (lt_size_iff.mpr ⟨u, ht⟩), ht]

theorem extends_intern (tt : TypeTable) (s : Shape) : tt.Extends (tt.intern s).2 :=
  extends_insert tt s.unnamed

theorem shape_intern (tt : TypeTable) (s : Shape) :
    (tt.intern s).2.shape (tt.intern s).1 = s := by
  unfold shape intern
  rw [Pool.get?_insert]
  rfl

theorem closed_insert (hc : tt.Closed) {u : Ty} (hu : ∀ c ∈ u.shape.components, c < tt.size) :
    TypeTable.Closed (tt.insert u).2 := by
  intro t ty ht c hmem
  unfold Pool.insert at ht
  cases hl : tt.lookup u with
  | some h =>
    rw [hl] at ht
    exact hc t ty ht c hmem
  | none =>
    rw [hl] at ht
    simp only [Pool.get?, Array.getElem?_push] at ht
    split at ht
    · rename_i heq
      cases ht
      rw [heq]
      exact hu c hmem
    · exact hc t ty ht c hmem

theorem closed_intern (hc : tt.Closed) {s : Shape} (hs : ∀ c ∈ s.components, c < tt.size) :
    (tt.intern s).2.Closed :=
  closed_insert (u := s.unnamed) hc hs

theorem intern_lt (tt : TypeTable) (s : Shape) : (tt.intern s).1 < (tt.intern s).2.size :=
  lt_size_iff.mpr ⟨_, Pool.get?_insert tt s.unnamed⟩

/-! ## Queries -/

theorem Extends.size_le (h : tt.Extends tt') : tt.size ≤ tt'.size := by
  rcases Nat.eq_zero_or_pos tt.size with h0 | hpos
  · omega
  · obtain ⟨ty, hty⟩ := lt_size_iff.mp (Nat.sub_lt hpos Nat.one_pos)
    have := lt_size_iff.mpr ⟨ty, h _ _ hty⟩
    exact Nat.le_of_pred_lt this

theorem Extends.shape_eq_of_lt (h : tt.Extends tt') (ht : t < tt.size) :
    tt'.shape t = tt.shape t := by
  obtain ⟨ty, hty⟩ := lt_size_iff.mp ht
  unfold shape
  rw [hty, h t ty hty]

theorem Extends.shape_eq (h : tt.Extends tt') {s : Shape} (hs : tt.shape t = s)
    (hne : s ≠ .void) : tt'.shape t = s := by
  rw [h.shape_eq_of_lt (lt_size_of_shape (hs ▸ hne)), hs]

theorem elementScalar_eq_some {s : Scalar} : tt.elementScalar? t = some s ↔
    tt.shape t = .scalar s ∨ ∃ n, tt.shape t = .vector n s := by
  unfold elementScalar?
  cases tt.shape t <;> simp [eq_comm]

theorem elementScalar_of_scalar {s : Scalar} (h : tt.shape t = .scalar s) :
    tt.elementScalar? t = some s := elementScalar_eq_some.mpr (.inl h)

theorem pointee_eq_some {u : TyId} : tt.pointee? t = some u ↔ tt.shape t = .pointer u := by
  unfold pointee?
  cases tt.shape t <;> simp

theorem lanes_eq_some {n : Nat} : tt.lanes? t = some n ↔ ∃ s, tt.shape t = .vector n s := by
  unfold lanes?
  cases tt.shape t <;> simp

theorem Extends.elementScalar_eq (h : tt.Extends tt') {s : Scalar}
    (hs : tt.elementScalar? t = some s) : tt'.elementScalar? t = some s := by
  rw [elementScalar_eq_some] at hs ⊢
  rcases hs with hs | ⟨n, hs⟩
  · exact .inl (h.shape_eq hs (by simp))
  · exact .inr ⟨n, h.shape_eq hs (by simp)⟩

theorem Extends.pointee_eq (h : tt.Extends tt') {u : TyId} (hu : tt.pointee? t = some u) :
    tt'.pointee? t = some u := by
  rw [pointee_eq_some] at hu ⊢
  exact h.shape_eq hu (by simp)

/-! ## Sizes -/

theorem Closed.component_lt (hc : tt.Closed) {c : Nat} (h : c ∈ (tt.shape t).components) :
    c < t := by
  unfold shape at h
  cases ht : tt.get? t with
  | none => simp [ht, Shape.components] at h
  | some ty =>
    rw [ht] at h
    exact hc t ty ht c h

theorem closed_iff : tt.Closed ↔ ∀ t < tt.size, ∀ c ∈ (tt.shape t).components, c < t := by
  refine ⟨fun hc t _ c => hc.component_lt, fun h t ty ht c hcomp => ?_⟩
  refine h t (lt_size_iff.mpr ⟨ty, ht⟩) c ?_
  rw [shape, ht]
  exact hcomp

instance : Decidable tt.Closed := decidable_of_iff _ closed_iff.symm

/-- The extent of a type is that of its components, whatever else is in the table. -/
theorem Extends.extentWithin_eq (h : tt.Extends tt') (hc : tt.Closed) :
    ∀ (n m t : Nat), t < n → t < m → t < tt.size →
      tt'.extentWithin m t = tt.extentWithin n t
  | 0, _, _, hn, _, _ => absurd hn (Nat.not_lt_zero _)
  | _, 0, _, _, hm, _ => absurd hm (Nat.not_lt_zero _)
  | n + 1, m + 1, t, hn, hm, ht => by
    have ih : ∀ c ∈ (tt.shape t).components, tt'.extentWithin m c = tt.extentWithin n c := by
      intro (c : Nat) hmem
      have hlt := hc.component_lt hmem
      exact h.extentWithin_eq hc n m c (by omega) (by omega) (by omega)
    simp only [extentWithin]
    rw [h.shape_eq_of_lt ht]
    cases hs : tt.shape t with
    | array element length =>
      rw [hs] at ih
      simp only [ih element (by simp [Shape.components])]
    | struct members =>
      rw [hs] at ih
      simp only
      congr 1
      exact List.map_congr_left ih
    | _ => rfl

theorem Extends.extent_eq (h : tt.Extends tt') (hc : tt.Closed) (ht : t < tt.size) :
    tt'.extent t = tt.extent t := by
  have := h.size_le
  unfold extent
  rw [h.extentWithin_eq hc (tt.size + 1) (tt'.size + 1) t (by omega) (by omega) ht]

theorem Extends.paddedSize_eq (h : tt.Extends tt') (hc : tt.Closed) (ht : t < tt.size) :
    tt'.paddedSize t = tt.paddedSize t := by
  unfold paddedSize
  rw [h.extent_eq hc ht]

/-- So are the counts on the way to its size. -/
theorem Extends.storeFitsWithin_eq (h : tt.Extends tt') (hc : tt.Closed) :
    ∀ (n m t : Nat), t < n → t < m → t < tt.size →
      tt'.storeFitsWithin m t = tt.storeFitsWithin n t
  | 0, _, _, hn, _, _ => absurd hn (Nat.not_lt_zero _)
  | _, 0, _, _, hm, _ => absurd hm (Nat.not_lt_zero _)
  | n + 1, m + 1, t, hn, hm, ht => by
    have ih : ∀ c ∈ (tt.shape t).components, tt'.storeFitsWithin m c = tt.storeFitsWithin n c ∧
        tt'.extentWithin m c = tt.extentWithin n c := by
      intro (c : Nat) hmem
      have hlt := hc.component_lt hmem
      exact ⟨h.storeFitsWithin_eq hc n m c (by omega) (by omega) (by omega),
        h.extentWithin_eq hc n m c (by omega) (by omega) (by omega)⟩
    simp only [storeFitsWithin]
    rw [h.shape_eq_of_lt ht]
    cases hs : tt.shape t with
    | array element length =>
      rw [hs] at ih
      obtain ⟨hfits, hext⟩ := ih element (by simp [Shape.components])
      simp only [hfits, hext]
    | struct members =>
      rw [hs] at ih
      have hall : members.all (tt'.storeFitsWithin m) = members.all (tt.storeFitsWithin n) := by
        rw [Bool.eq_iff_iff, List.all_eq_true, List.all_eq_true]
        exact forall₂_congr fun c hc => by rw [(ih c hc).1]
      have hmap : members.map (tt'.extentWithin m) = members.map (tt.extentWithin n) :=
        List.map_congr_left fun c hc => (ih c hc).2
      simp only [hall, hmap]
    | _ => rfl

theorem Extends.storeFits_eq (h : tt.Extends tt') (hc : tt.Closed) (ht : t < tt.size) :
    tt'.storeFits t = tt.storeFits t := by
  have := h.size_le
  unfold storeFits
  rw [h.storeFitsWithin_eq hc (tt.size + 1) (tt'.size + 1) t (by omega) (by omega) ht]

theorem Closed.pointee_lt (hc : tt.Closed) {u : TyId} (h : tt.shape t = .pointer u) :
    u < tt.size := by
  have hlt : u < t := hc.component_lt (by simp [h, Shape.components])
  exact Nat.lt_trans hlt (lt_size_of_shape (by simp [h]))

/-- The extent of an array of bytes is its length. -/
theorem extent_of_bytes {e : TyId} {s : Scalar} {n : Nat} (ht : tt.shape t = .array e n)
    (he : tt.shape e = .scalar s) (hs : s.width = 1) : tt.extent t = ⟨n, 1⟩ := by
  have hlt : e < tt.size := lt_size_of_shape (by simp [he])
  obtain ⟨k, hk⟩ := Nat.exists_eq_add_one.mpr (Nat.zero_lt_of_lt hlt)
  simp [extent, hk, extentWithin, ht, he, hs, Extent.padded, alignTo]

theorem storeFits_of_bytes {e : TyId} {s : Scalar} {n : Nat} (ht : tt.shape t = .array e n)
    (he : tt.shape e = .scalar s) (hs : s.width = 1) (hn : n < countLimit) :
    tt.storeFits t = true := by
  have hlt : e < tt.size := lt_size_of_shape (by simp [he])
  obtain ⟨k, hk⟩ := Nat.exists_eq_add_one.mpr (Nat.zero_lt_of_lt hlt)
  simp [storeFits, hk, storeFitsWithin, extentWithin, ht, he, hs, Extent.padded, alignTo, hn]
  decide

theorem paddedSize_of_scalar {s : Scalar} (h : tt.shape t = .scalar s) :
    tt.paddedSize t = s.width := by
  simp only [paddedSize, extent, extentWithin, h, Extent.padded, alignTo]
  split
  · rfl
  · rw [Nat.add_sub_assoc (by omega), Nat.add_div_left _ (by omega),
      Nat.div_eq_of_lt (by omega), Nat.one_mul]

end TypeTable

end LoopNest
