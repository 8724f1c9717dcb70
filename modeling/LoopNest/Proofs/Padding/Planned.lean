import LoopNest.Pass.Padding
import LoopNest.Proofs.Typing.Extends

/-!
# Which stack slots are padded

`Padding.Planned` says what the plan for some stack slots is: it interns types and chooses a
byte array of whole words for each slot, unless the slot has no block or its padded size does
not fit into 32 bits.  `Padding.planned_planSlots` says that `planSlots` makes such a plan, by
induction on the candidates, with a type table that grows on the way.
-/

namespace LoopNest

theorem alignTo_granule (n : Nat) :
    alignTo n Padding.granule % 8 = 0 ∧ n ≤ alignTo n Padding.granule := by
  rw [alignTo, Padding.granule, if_neg (by decide)]
  omega

namespace Padding

variable {tt tt' : TypeTable} {f : Func}

/-- The bytes that a slot for a type gets. -/
def paddedBytes (tt : TypeTable) (t : TyId) : Nat := alignTo (tt.paddedSize t) granule

/-- The slots that are padded: those that do not consist of whole words and are not too large. -/
def IsPadded (tt : TypeTable) (f : Func) (i : InstId) : Prop :=
  ∃ t, unevenTy? tt f i = some t ∧ paddedBytes tt t < 2 ^ 32

/-- The replacement of a slot that holds a type: an array of whole words, with a handle for its
pointers. -/
structure Slot.Pads (s : Slot) (tt : TypeTable) (f : Func) (bytes : Nat) : Prop where
  owner_eq : f.owner s.alloca = some s.block
  ptr_eq : s.ptr = (f.inst s.alloca).ty
  bytes_lt : bytes < 2 ^ 32
  extent_eq : tt.extent s.padded = ⟨bytes, 1⟩
  storeFits : tt.storeFits s.padded = true
  padded_lt : s.padded < tt.size
  lookup_eq : tt.lookup (Shape.pointer s.padded).unnamed = some s.paddedPtr

theorem Slot.Pads.mono {s : Slot} {bytes : Nat} (h : s.Pads tt f bytes) (hc : tt.Closed)
    (ht : tt.Extends tt') : s.Pads tt' f bytes where
  owner_eq := h.owner_eq
  ptr_eq := h.ptr_eq
  bytes_lt := h.bytes_lt
  extent_eq := (ht.extent_eq hc h.padded_lt).trans h.extent_eq
  storeFits := (ht.storeFits_eq hc h.padded_lt).trans h.storeFits
  padded_lt := Nat.lt_of_lt_of_le h.padded_lt ht.size_le
  lookup_eq := ht.lookup_eq h.lookup_eq

theorem padStuck_eq_false_iff : f.padStuck tt = false ↔
    ∀ i ∈ f.liveInsts, ∀ t a, f.op i = .alloca t a → slotStuck tt t = false := by
  rw [Func.padStuck, List.any_eq_false]
  refine forall₂_congr fun i _ => ?_
  cases hop : f.op i <;> simp

/-- Whether padding gets stuck at a slot does not depend on what is interned later. -/
theorem slotStuck_extends (ht : tt.Extends tt') (hc : tt.Closed) {t : TyId} (hlt : t < tt.size) :
    slotStuck tt' t = slotStuck tt t := by
  unfold slotStuck TypeTable.paddedFits TypeTable.sizeInBits TypeTable.storeSize TypeTable.paddedSize
  rw [ht.storeFits_eq hc hlt, ht.extent_eq hc hlt]

/-- What the plan for some candidates does. -/
structure Planned (f : Func) (cands : List (InstId × TyId)) (tt : TypeTable) (slots : List Slot)
    (tt' : TypeTable) : Prop where
  types_extend : tt.Extends tt'
  closed : tt'.Closed
  sublist : List.Sublist (slots.map Slot.alloca) (cands.map Prod.fst)
  /-- Each slot is a candidate, and is padded. -/
  pads : ∀ s ∈ slots, ∃ t, (s.alloca, t) ∈ cands ∧ s.Pads tt' f (paddedBytes tt t)
  /-- Candidates are left alone for one of two reasons. -/
  skipped : ∀ i t, (i, t) ∈ cands → (∃ s ∈ slots, s.alloca = i) ∨ f.owner i = none ∨
    2 ^ 32 ≤ paddedBytes tt t

theorem Planned.skip {cands : List (InstId × TyId)} {slots : List Slot} {i : InstId} {t : TyId}
    (h : Planned f cands tt slots tt') (hi : f.owner i = none ∨ 2 ^ 32 ≤ paddedBytes tt t) :
    Planned f ((i, t) :: cands) tt slots tt' where
  types_extend := h.types_extend
  closed := h.closed
  sublist := h.sublist.cons _
  pads s hs := by
    obtain ⟨t, ht, hpad⟩ := h.pads s hs
    exact ⟨t, List.mem_cons_of_mem _ ht, hpad⟩
  skipped j u hj := by
    rcases List.mem_cons.mp hj with heq | hj
    · cases heq
      exact .inr hi
    · exact h.skipped j u hj

theorem Planned.pad {tt₁ : TypeTable} {cands : List (InstId × TyId)} {slots : List Slot} {s : Slot}
    {t : TyId} (h : Planned f cands tt₁ slots tt') (hc : tt.Closed)
    (hlt : ∀ c ∈ cands, c.2 < tt.size) (hext : tt.Extends tt₁) (hc₁ : tt₁.Closed)
    (hs : s.Pads tt₁ f (paddedBytes tt t)) :
    Planned f ((s.alloca, t) :: cands) tt (s :: slots) tt' := by
  have hbytes : ∀ c ∈ cands, paddedBytes tt₁ c.2 = paddedBytes tt c.2 := fun c hmem => by
    unfold paddedBytes
    rw [hext.paddedSize_eq hc (hlt c hmem)]
  refine ⟨hext.trans h.types_extend, h.closed, h.sublist.cons_cons _, fun s' hs' => ?_,
    fun j u hj => ?_⟩
  · rcases List.mem_cons.mp hs' with rfl | hs'
    · exact ⟨t, List.mem_cons_self, hs.mono hc₁ h.types_extend⟩
    · obtain ⟨u, hu, hpad⟩ := h.pads s' hs'
      exact ⟨u, List.mem_cons_of_mem _ hu, hbytes _ hu ▸ hpad⟩
  · rcases List.mem_cons.mp hj with heq | hj
    · cases heq
      exact .inl ⟨s, List.mem_cons_self, rfl⟩
    · refine (h.skipped j u hj).imp (fun ⟨s', hs', heq⟩ => ⟨s', List.mem_cons_of_mem _ hs', heq⟩) ?_
      rw [hbytes _ hj]
      exact id

/-- Interning the types of a replacement. -/
theorem pads_intern (hc : tt.Closed) {i : InstId} {b : BlockId} (hb : f.owner i = some b)
    {bytes : Nat} (hbytes : bytes < 2 ^ 32) (name : String) {byte padded paddedPtr : TyId × TypeTable}
    (h₁ : tt.scalar .i8 = byte) (h₂ : byte.2.intern (.array byte.1 bytes) = padded)
    (h₃ : padded.2.intern (.pointer padded.1) = paddedPtr) :
    tt.Extends paddedPtr.2 ∧ paddedPtr.2.Closed ∧
      Slot.Pads ⟨i, b, padded.1, paddedPtr.1, (f.inst i).ty, name⟩ paddedPtr.2 f bytes := by
  subst h₁ h₂ h₃
  have hbyte := tt.shape_intern (.scalar .i8)
  have hext₁ := tt.extends_intern (.scalar .i8)
  have hc₁ : (tt.scalar .i8).2.Closed := TypeTable.closed_intern hc (by simp [Shape.components])
  have hlt₁ := tt.intern_lt (.scalar .i8)
  set tt₁ := tt.scalar .i8 with htt₁
  change tt₁.2.shape tt₁.1 = _ at hbyte
  change tt₁.1 < tt₁.2.size at hlt₁
  have harray := tt₁.2.shape_intern (.array tt₁.1 bytes)
  have hext₂ := tt₁.2.extends_intern (.array tt₁.1 bytes)
  have hc₂ : (tt₁.2.intern (.array tt₁.1 bytes)).2.Closed :=
    TypeTable.closed_intern hc₁ (by simpa [Shape.components] using hlt₁)
  have hlt₂ := tt₁.2.intern_lt (.array tt₁.1 bytes)
  set tt₂ := tt₁.2.intern (.array tt₁.1 bytes) with htt₂
  have hext₃ := tt₂.2.extends_intern (.pointer tt₂.1)
  have hc₃ : (tt₂.2.intern (.pointer tt₂.1)).2.Closed :=
    TypeTable.closed_intern hc₂ (by simpa [Shape.components] using hlt₂)
  have hbyte₂ := hext₂.shape_eq hbyte (by simp)
  refine ⟨(hext₁.trans hext₂).trans hext₃, hc₃, hb, rfl, hbytes, ?_, ?_, ?_,
    TypeTable.lookup_intern _ _⟩
  · exact (hext₃.extent_eq hc₂ hlt₂).trans (TypeTable.extent_of_bytes harray hbyte₂ rfl)
  · refine (hext₃.storeFits_eq hc₂ hlt₂).trans (TypeTable.storeFits_of_bytes harray hbyte₂ rfl ?_)
    exact Nat.lt_of_lt_of_le hbytes (by decide)
  · exact Nat.lt_of_lt_of_le hlt₂ hext₃.size_le

/-- The plan for candidates whose types are in the table. -/
theorem planned_planSlots (f : Func) : ∀ (cands : List (InstId × TyId)) (tt : TypeTable),
    tt.Closed → (∀ c ∈ cands, c.2 < tt.size) →
    Planned f cands tt (planSlots f cands tt).1 (planSlots f cands tt).2.1
  | [], tt, hc, _ => ⟨.refl tt, hc, List.Sublist.refl _, by simp [planSlots], by simp⟩
  | (i, t) :: rest, tt, hc, hlt => by
    have hrest := fun c hc => hlt c (List.mem_cons_of_mem _ hc)
    simp only [planSlots]
    split
    · rename_i hown
      exact (planned_planSlots f rest tt hc hrest).skip (.inl hown)
    · rename_i b hown
      split
      · rename_i hlarge
        exact (planned_planSlots f rest tt hc hrest).skip (.inr hlarge)
      · rename_i hsmall
        obtain ⟨hext, hc', hpads⟩ := pads_intern hc hown (Nat.lt_of_not_le hsmall)
          ((f.inst i).name.getD "alloca") rfl rfl rfl
        exact (planned_planSlots f rest _ hc' fun c hmem =>
          Nat.lt_of_lt_of_le (hrest c hmem) hext.size_le).pad hc hrest hext hc' hpads

/-- Nothing is planned for slots that are too large. -/
theorem planSlots_of_large (f : Func) (tt : TypeTable) : ∀ cands : List (InstId × TyId),
    (∀ c ∈ cands, 2 ^ 32 ≤ paddedBytes tt c.2) →
    (planSlots f cands tt).1 = [] ∧ (planSlots f cands tt).2.1 = tt
  | [], _ => ⟨rfl, rfl⟩
  | (i, t) :: rest, hlarge => by
    have ih := planSlots_of_large f tt rest fun c hc => hlarge c (List.mem_cons_of_mem _ hc)
    have ht := hlarge (i, t) List.mem_cons_self
    unfold paddedBytes at ht
    simp only [planSlots]
    split
    · exact ih
    · rw [if_pos ht]
      exact ih

end Padding

end LoopNest
