import LoopNest.Proofs.Ty.Indexed
import LoopNest.Proofs.Typing.Declared
import LoopNest.Ty.Text

/-!
# Type trees

A type in the table is a shape over handles.  Its *tree* is the type with every handle unfolded,
names included, and `TypeTable.Expands` relates a handle to its tree.

In a table where every type comes after its components, every handle has a tree
(`Closed.exists_expands`) and only one (`Expands.unique`).  The size, the alignment and the text of a
type are those of its tree (`Expands.extent_eq`, `Expands.text_eq`): the recursions over the table
come to an end before they run out of fuel.  Where moreover every type stands under one handle, two
handles with the same tree are the same (`Expands.inj`).

The tables that a sequence of insertions builds are of this kind (`Interns.canonical`), so comparing
types by handle compares them in full.
-/

namespace LoopNest

/-- A type with its components in place of their handles. -/
inductive TypeTree where
  | void (name : Option String)
  | scalar (name : Option String) (s : Scalar)
  | vector (name : Option String) (lanes : Nat) (s : Scalar)
  | pointer (name : Option String) (pointee : TypeTree)
  | array (name : Option String) (element : TypeTree) (length : Nat)
  | struct (name : Option String) (members : List TypeTree)
deriving Inhabited

namespace TypeTree

mutual

/-- Size and alignment of a tree. -/
def extent : TypeTree → Extent
  | .void _ => ⟨0, 1⟩
  | .scalar _ s => ⟨s.width, s.width⟩
  | .vector _ lanes s => ⟨lanes * s.width, nextPowerOfTwo (lanes * s.width)⟩
  | .pointer _ _ => ⟨pointerBytes, pointerBytes⟩
  | .array _ element length => ⟨length * element.extent.padded, element.extent.align⟩
  | .struct _ members => .ofMembers (extents members)

/-- Size and alignment of each tree of a list. -/
def extents : List TypeTree → List Extent
  | [] => []
  | T :: Ts => T.extent :: extents Ts

end

mutual

/-- The text of a tree.  A named struct is written by its name. -/
def text : TypeTree → String
  | .void _ => "void"
  | .scalar _ s => s.toText
  | .vector _ lanes s => "<" ++ toString lanes ++ " x " ++ s.toText ++ ">"
  | .pointer _ pointee => "ptr<" ++ pointee.text ++ ">"
  | .array _ element length => "[" ++ toString length ++ " x " ++ element.text ++ "]"
  | .struct (some name) _ => "%" ++ name
  | .struct none members => "\x7b " ++ ", ".intercalate (texts members) ++ " \x7d"

/-- The text of each tree of a list. -/
def texts : List TypeTree → List String
  | [] => []
  | T :: Ts => T.text :: texts Ts

end

theorem extents_eq_map : ∀ Ts : List TypeTree, extents Ts = Ts.map extent
  | [] => rfl
  | T :: Ts => by rw [extents, List.map_cons, extents_eq_map Ts]

theorem texts_eq_map : ∀ Ts : List TypeTree, texts Ts = Ts.map text
  | [] => rfl
  | T :: Ts => by rw [texts, List.map_cons, texts_eq_map Ts]

end TypeTree

/-! ## Unfolding handles -/

namespace TypeTable

/-- The type under a handle unfolds to a tree. -/
inductive Expands (tt : TypeTable) : TyId → TypeTree → Prop
  | void {t : TyId} {name : Option String} (ht : tt.get? t = some ⟨name, .void⟩) :
      Expands tt t (.void name)
  | scalar {t : TyId} {name : Option String} {s : Scalar}
      (ht : tt.get? t = some ⟨name, .scalar s⟩) : Expands tt t (.scalar name s)
  | vector {t : TyId} {name : Option String} {lanes : Nat} {s : Scalar}
      (ht : tt.get? t = some ⟨name, .vector lanes s⟩) : Expands tt t (.vector name lanes s)
  | pointer {t p : TyId} {name : Option String} {T : TypeTree}
      (ht : tt.get? t = some ⟨name, .pointer p⟩) (hp : Expands tt p T) :
      Expands tt t (.pointer name T)
  | array {t e : TyId} {name : Option String} {T : TypeTree} {length : Nat}
      (ht : tt.get? t = some ⟨name, .array e length⟩) (he : Expands tt e T) :
      Expands tt t (.array name T length)
  | struct {t : TyId} {name : Option String} {ms : List TyId} {Ts : List TypeTree}
      (ht : tt.get? t = some ⟨name, .struct ms⟩) (hlen : ms.length = Ts.length)
      (hms : ∀ (k : Nat) (m : TyId) (T : TypeTree), ms[k]? = some m → Ts[k]? = some T →
        Expands tt m T) :
      Expands tt t (.struct name Ts)

variable {tt : TypeTable} {t u : TyId} {T U : TypeTree}

/-- Lists that are related place by place have the same images. -/
theorem map_eq_map_of_places {α β γ : Type} {f : α → γ} {g : β → γ} {as : List α} {bs : List β}
    (hlen : as.length = bs.length)
    (h : ∀ (k : Nat) (a : α) (b : β), as[k]? = some a → bs[k]? = some b → f a = g b) : as.map f = bs.map g := by
  refine List.ext_getElem (by simp [hlen]) fun k hk hk' => ?_
  rw [List.length_map] at hk hk'
  simp only [List.getElem_map]
  exact h k _ _ (List.getElem?_eq_getElem hk) (List.getElem?_eq_getElem hk')

theorem Expands.lt_size (h : tt.Expands t T) : t < tt.size := by
  rw [lt_size_iff]
  cases h with
  | void ht | scalar ht | vector ht | pointer ht | array ht | struct ht => exact ⟨_, ht⟩

/-- Every handle of the table has a tree. -/
theorem Closed.exists_expands (hc : tt.Closed) : ∀ t < tt.size, ∃ T, tt.Expands t T := by
  intro t
  induction t using Nat.strong_induction_on with
  | _ t ih =>
    intro ht
    obtain ⟨⟨name, shape⟩, hty⟩ := lt_size_iff.mp ht
    have hsub : ∀ c ∈ shape.components, ∃ T, tt.Expands c T := fun c hmem =>
      have hlt := hc t _ hty c hmem
      ih c hlt (hlt.trans ht)
    cases shape with
    | void => exact ⟨_, .void hty⟩
    | scalar s => exact ⟨_, .scalar hty⟩
    | vector lanes s => exact ⟨_, .vector hty⟩
    | pointer p =>
      obtain ⟨T, hT⟩ := hsub p (List.mem_singleton_self p)
      exact ⟨_, .pointer hty hT⟩
    | array e length =>
      obtain ⟨T, hT⟩ := hsub e (List.mem_singleton_self e)
      exact ⟨_, .array hty hT⟩
    | struct ms =>
      choose! tree htree using hsub
      have hplaces : ∀ (k : Nat) (m : TyId) (T : TypeTree), ms[k]? = some m →
          (ms.map tree)[k]? = some T → tt.Expands m T := by
        intro k m T hm hT
        rw [List.getElem?_map, hm] at hT
        cases hT
        exact htree m (List.mem_of_getElem? hm)
      exact ⟨_, .struct hty (by simp) hplaces⟩

/-- A handle has one tree. -/
theorem Expands.unique (h : tt.Expands t T) (h' : tt.Expands t U) : T = U := by
  induction h generalizing U with
  | void ht => cases h' <;> simp_all
  | scalar ht => cases h' <;> simp_all
  | vector ht => cases h' <;> simp_all
  | pointer ht hp ih =>
    cases h' with
    | pointer ht' hp' =>
      cases ht.symm.trans ht'
      rw [ih hp']
    | void ht' | scalar ht' | vector ht' | array ht' | struct ht' => cases ht.symm.trans ht'
  | array ht he ih =>
    cases h' with
    | array ht' he' =>
      cases ht.symm.trans ht'
      rw [ih he']
    | void ht' | scalar ht' | vector ht' | pointer ht' | struct ht' => cases ht.symm.trans ht'
  | @struct t name ms Ts ht hlen hms ih =>
    cases h' with
    | @struct _ _ _ Us ht' hlen' hms' =>
      cases ht.symm.trans ht'
      congr 1
      refine List.ext_getElem (hlen.symm.trans hlen') fun k hk hk' => ?_
      have hm := List.getElem?_eq_getElem (hlen ▸ hk : k < ms.length)
      have hT := List.getElem?_eq_getElem hk
      exact ih k _ _ hm hT (hms' k _ _ hm (List.getElem?_eq_getElem hk'))
    | void ht' | scalar ht' | vector ht' | pointer ht' | array ht' => cases ht.symm.trans ht'

/-- A tree has one handle. -/
theorem Expands.inj (hd : tt.Distinct) (h : tt.Expands t T) (h' : tt.Expands u T) : t = u := by
  induction h generalizing u with
  | void ht => cases h' with | void ht' => exact hd.eq_of_get? ht ht'
  | scalar ht => cases h' with | scalar ht' => exact hd.eq_of_get? ht ht'
  | vector ht => cases h' with | vector ht' => exact hd.eq_of_get? ht ht'
  | pointer ht hp ih =>
    cases h' with
    | pointer ht' hp' =>
      cases ih hp'
      exact hd.eq_of_get? ht ht'
  | array ht he ih =>
    cases h' with
    | array ht' he' =>
      cases ih he'
      exact hd.eq_of_get? ht ht'
  | @struct t name ms Ts ht hlen hms ih =>
    cases h' with
    | @struct _ _ ms' _ ht' hlen' hms' =>
      have hmem : ms = ms' := by
        refine List.ext_getElem (hlen.trans hlen'.symm) fun k hk hk' => ?_
        have hT := List.getElem?_eq_getElem (hlen ▸ hk : k < Ts.length)
        exact ih k _ _ (List.getElem?_eq_getElem hk) hT
          (hms' k _ _ (List.getElem?_eq_getElem hk') hT)
      cases hmem
      exact hd.eq_of_get? ht ht'

/-! ## Recursions that follow handles -/

/-- The components of a type need less fuel than the type. -/
theorem Closed.component_lt_fuel (hc : tt.Closed) {ty : Ty} (ht : tt.get? t = some ty) {n : Nat}
    (hn : t < n + 1) {c : TyId} (hmem : c ∈ ty.shape.components) : c < n :=
  Nat.lt_of_lt_of_le (hc t ty ht c hmem) (Nat.le_of_lt_succ hn)

/-- With enough fuel, the extent of a type is that of its tree. -/
theorem Expands.extentWithin_eq (hc : tt.Closed) (h : tt.Expands t T) :
    ∀ n, t < n → tt.extentWithin n t = T.extent := by
  induction h with
  | void ht | scalar ht | vector ht =>
    rintro (_ | n) hn
    · exact absurd hn (Nat.not_lt_zero _)
    · simp [extentWithin, shape, ht, TypeTree.extent]
  | pointer ht =>
    rintro (_ | n) hn
    · exact absurd hn (Nat.not_lt_zero _)
    · simp [extentWithin, shape, ht, TypeTree.extent]
  | @array t e name T length ht he ih =>
    rintro (_ | n) hn
    · exact absurd hn (Nat.not_lt_zero _)
    · have hlt : e < n := hc.component_lt_fuel ht hn (List.mem_singleton_self e)
      simp [extentWithin, shape, ht, TypeTree.extent, ih n hlt]
  | @struct t name ms Ts ht hlen hms ih =>
    rintro (_ | n) hn
    · exact absurd hn (Nat.not_lt_zero _)
    · have hmap : ms.map (tt.extentWithin n) = Ts.map TypeTree.extent :=
        map_eq_map_of_places hlen fun k m T hm hT =>
          ih k m T hm hT n (hc.component_lt_fuel ht hn (List.mem_of_getElem? hm))
      simp [extentWithin, shape, ht, TypeTree.extent, TypeTree.extents_eq_map, hmap]

theorem Expands.extent_eq (hc : tt.Closed) (h : tt.Expands t T) : tt.extent t = T.extent :=
  h.extentWithin_eq hc _ (Nat.lt_succ_of_lt h.lt_size)

/-- With enough fuel, the text of a type is that of its tree. -/
theorem Expands.textWithin_eq (hc : tt.Closed) (h : tt.Expands t T) :
    ∀ n, t < n → tt.textWithin n t = T.text := by
  induction h with
  | void ht | scalar ht | vector ht =>
    rintro (_ | n) hn
    · exact absurd hn (Nat.not_lt_zero _)
    · simp [textWithin, ht, Shape.toText, TypeTree.text]
  | @pointer t p name T ht hp ih =>
    rintro (_ | n) hn
    · exact absurd hn (Nat.not_lt_zero _)
    · have hlt : p < n := hc.component_lt_fuel ht hn (List.mem_singleton_self p)
      simp [textWithin, ht, Shape.toText, TypeTree.text, ih n hlt]
  | @array t e name T length ht he ih =>
    rintro (_ | n) hn
    · exact absurd hn (Nat.not_lt_zero _)
    · have hlt : e < n := hc.component_lt_fuel ht hn (List.mem_singleton_self e)
      simp [textWithin, ht, Shape.toText, TypeTree.text, ih n hlt]
  | @struct t name ms Ts ht hlen hms ih =>
    rintro (_ | n) hn
    · exact absurd hn (Nat.not_lt_zero _)
    · have hmap : ms.map (tt.textWithin n) = Ts.map TypeTree.text :=
        map_eq_map_of_places hlen fun k m T hm hT =>
          ih k m T hm hT n (hc.component_lt_fuel ht hn (List.mem_of_getElem? hm))
      cases name <;>
        simp [textWithin, ht, Shape.toText, TypeTree.text, TypeTree.texts_eq_map, hmap]

theorem Expands.text_eq (hc : tt.Closed) (h : tt.Expands t T) : tt.text t = T.text :=
  h.textWithin_eq hc _ (Nat.lt_succ_of_lt h.lt_size)

end TypeTable

/-! ## Interned types -/

/-- The pools that insertions build, with the inserted types in their order.  A type is inserted
after its components. -/
inductive Interns : Indexed Ty → List Ty → Prop
  | empty : Interns .empty []
  | insert {p : Indexed Ty} {tys : List Ty} (h : Interns p tys) (ty : Ty)
      (hty : ∀ c ∈ ty.shape.components, c < p.items.size) : Interns (p.insert ty).2 (tys ++ [ty])

/-- Handles stand for types, one for each. -/
structure Canonical (p : Indexed Ty) (tys : List Ty) : Prop where
  /-- A handle keeps its type, whatever is inserted later. -/
  kept : ∀ later t ty, p.get? t = some ty → (p.insertAll later).get? t = some ty
  /-- The handle of a new type holds it. -/
  held : ∀ ty, (p.insert ty).2.get? (p.insert ty).1 = some ty
  /-- A type that is there is not inserted again. -/
  again : ∀ t ty, p.get? t = some ty → p.insert ty = (t, p)
  /-- A type is found when it was inserted. -/
  found : ∀ ty, (∃ t, p.lookup ty = some t) ↔ ty ∈ tys
  /-- A type is found under the handle that holds it. -/
  found_at : ∀ t ty, p.lookup ty = some t ↔ p.get? t = some ty
  /-- The table without the index gives the same handles. -/
  pool : ∀ ty, p.pool.lookup ty = p.lookup ty ∧
    p.pool.insert ty = ((p.insert ty).1, (p.insert ty).2.pool)
  /-- Components come before the type. -/
  component_lt : ∀ t ty, p.get? t = some ty → ∀ c ∈ ty.shape.components, c < t
  /-- Sizes and texts are those of the tree, which every handle has.  They are exact: the machine has
  the sizes where its counts fit (`TypeTable.storeFits`, `TypeTable.paddedFits`), and the texts where
  scalars have less than 256 bits. -/
  tree : ∀ t < p.items.size, ∃ T, TypeTable.Expands p.pool t T ∧
    TypeTable.align p.pool t = T.extent.align ∧ TypeTable.storeSize p.pool t = T.extent.size ∧
    TypeTable.paddedSize p.pool t = T.extent.padded ∧ TypeTable.text p.pool t = T.text
  /-- Handles are equal when their trees are. -/
  eq_iff : ∀ t u T U, TypeTable.Expands p.pool t T → TypeTable.Expands p.pool u U →
    (t = u ↔ T = U)

namespace Interns

variable {p : Indexed Ty} {tys : List Ty}

theorem agrees (h : Interns p tys) : p.Agrees := by
  induction h with
  | empty => exact .empty
  | insert _ ty _ ih => exact ih.insert ty

theorem closed (h : Interns p tys) : TypeTable.Closed p.pool := by
  induction h with
  | empty => decide
  | insert h ty hty ih =>
    have hc := TypeTable.closed_insert ih hty
    rwa [h.agrees.insert_pool] at hc

theorem distinct (h : Interns p tys) : TypeTable.Distinct p.pool := by
  induction h with
  | empty => decide
  | insert h ty hty ih =>
    have hd := TypeTable.distinct_insert ih ty
    rwa [h.agrees.insert_pool] at hd

/-- The types of the pool are the inserted ones. -/
theorem exists_get?_iff (h : Interns p tys) {ty : Ty} : (∃ t, p.get? t = some ty) ↔ ty ∈ tys := by
  induction h with
  | empty => simp [Indexed.empty, Indexed.get?]
  | insert h new _ ih =>
    simp only [Indexed.get?_insert_eq_some h.agrees, exists_or, ih, exists_eq_left,
      List.mem_append, List.mem_singleton]

/-- A pool that is built by insertions is canonical: the recursions over handles end, and two handles
are equal when their trees are. -/
theorem canonical (h : Interns p tys) : Canonical p tys where
  kept later t ty := Indexed.get?_insertAll_of_get? later
  held := Indexed.get?_insert h.agrees
  again t ty := h.agrees.insert_of_get?
  found ty := by rw [← h.exists_get?_iff, exists_congr fun t => h.agrees ty t]
  found_at t ty := h.agrees ty t
  pool ty := ⟨h.agrees.lookup_pool ty, h.agrees.insert_pool ty⟩
  component_lt := h.closed
  tree t ht := by
    obtain ⟨T, hT⟩ := h.closed.exists_expands t ht
    have hext := hT.extent_eq h.closed
    refine ⟨T, hT, ?_, ?_, ?_, hT.text_eq h.closed⟩
    · rw [TypeTable.align, hext]
    · rw [TypeTable.storeSize, hext]
    · rw [TypeTable.paddedSize, hext]
  eq_iff t u T U hT hU := by
    constructor
    · rintro rfl
      exact hT.unique hU
    · rintro rfl
      exact hT.inj h.distinct hU

/-- A pointer, then a named struct of it and of its target, and the target once more. -/
theorem canonical_named :
    Canonical (Indexed.empty.insertAll [Shape.unnamed (.scalar .i32), Shape.unnamed (.pointer 0),
        ⟨some "S", .struct [0, 1]⟩, Shape.unnamed (.scalar .i32)])
      [Shape.unnamed (.scalar .i32), Shape.unnamed (.pointer 0), ⟨some "S", .struct [0, 1]⟩,
        Shape.unnamed (.scalar .i32)] :=
  canonical (.insert (.insert (.insert (.insert .empty _ (by decide)) _ (by decide)) _ (by decide))
    _ (by decide))

end Interns

end LoopNest
