import LoopNest.Proofs.Machine.Extends

/-!
# Regions with zeros behind them

`Longer made rs rs'` says that `rs'` has the regions of `rs`, some of which are followed by
zeros.  Only regions that `made` allows may be longer.

An access that succeeds in the shorter regions succeeds in the longer ones with the same result,
and leaves longer regions behind (`Computes.longer`).  A store writes the same chunks in both.

Replacing the operands of an instruction by others of the same values and types changes nothing
(`Computes.mapOperands`).
-/

namespace LoopNest

/-- The second list of regions has those of the first, some of them with zeros behind. -/
structure Longer (made : Nat → Prop) (rs rs' : Array Region) : Prop where
  size_eq : rs'.size = rs.size
  byteAt_eq : ∀ r o, byteAt rs' r o = byteAt rs r o ∨
    made r ∧ byteAt rs r o = none ∧ byteAt rs' r o = some 0

namespace Longer

variable {made : Nat → Prop} {rs rs' : Array Region} {p : Pointer} {n : Nat}

theorem refl (made : Nat → Prop) (rs : Array Region) : Longer made rs rs :=
  ⟨rfl, fun _ _ => .inl rfl⟩

theorem byteAt_of_some (h : Longer made rs rs') {r o : Nat} {b : UInt8}
    (hb : byteAt rs r o = some b) : byteAt rs' r o = some b := by
  rcases h.byteAt_eq r o with heq | ⟨_, hnone, _⟩
  · rw [heq, hb]
  · rw [hb] at hnone
    cases hnone

theorem extentOf_le (h : Longer made rs rs') (r : Nat) : extentOf rs r ≤ extentOf rs' r := by
  by_contra hlt
  have hlt := Nat.lt_of_not_le hlt
  obtain ⟨b, hb⟩ := Option.isSome_iff_exists.mp (byteAt_isSome.mpr hlt)
  have := byteAt_isSome.mp (Option.isSome_iff_exists.mpr ⟨b, h.byteAt_of_some hb⟩)
  omega

theorem inBounds (h : Longer made rs rs') (hin : InBounds rs p n) : InBounds rs' p n :=
  ⟨hin.1, Nat.le_trans hin.2.1 (h.extentOf_le _), h.size_eq ▸ hin.2.2⟩

theorem bytesFrom_eq (h : Longer made rs rs') (hin : InBounds rs p n) :
    bytesFrom rs' p n = bytesFrom rs p n := by
  refine bytesFrom_congr (fun o _ ho => ?_) (h.inBounds hin) hin
  have hlt : o < extentOf rs p.region := Nat.lt_of_lt_of_le ho hin.2.1
  obtain ⟨b, hb⟩ := Option.isSome_iff_exists.mp (byteAt_isSome.mpr hlt)
  rw [hb, h.byteAt_of_some hb]

/-! ## Accesses -/

theorem loadScalar (h : Longer made rs rs') {s : Scalar} {d : Datum}
    (hd : (Memory.ofRegions rs).loadScalar p s = .ok d) :
    (Memory.ofRegions rs').loadScalar p s = .ok d := by
  unfold Memory.loadScalar at hd ⊢
  obtain ⟨bs, hb, hd⟩ := bind_eq_ok_iff.mp hd
  obtain ⟨hin, rfl⟩ := Memory.readBytes_eq_ok.mp hb
  refine bind_eq_ok_iff.mpr ⟨_, Memory.readBytes_eq_ok.mpr ⟨h.inBounds hin, ?_⟩, hd⟩
  exact (h.bytesFrom_eq hin).symm

theorem loadLanes (h : Longer made rs rs') {s : Scalar} : ∀ {lanes : Nat} {p : Pointer}
    {ds : List Datum}, (Memory.ofRegions rs).loadLanes s lanes p = .ok ds →
    (Memory.ofRegions rs').loadLanes s lanes p = .ok ds
  | 0, _, _, hd => hd
  | lanes + 1, p, ds, hd => by
    simp only [Memory.loadLanes, bind_eq_ok_iff] at hd ⊢
    obtain ⟨x, hx, xs, hxs, hds⟩ := hd
    exact ⟨x, h.loadScalar hx, xs, h.loadLanes hxs, hds⟩

theorem load (h : Longer made rs rs') {tt : TypeTable} {t : TyId} {d : Datum}
    (hd : (Memory.ofRegions rs).load tt p t = .ok d) :
    (Memory.ofRegions rs').load tt p t = .ok d := by
  unfold Memory.load at hd ⊢
  split at hd
  · exact h.loadScalar hd
  · obtain ⟨ds, hds, hd⟩ := bind_eq_ok_iff.mp hd
    exact bind_eq_ok_iff.mpr ⟨ds, h.loadLanes hds, hd⟩
  · cases hd

theorem writeChunk (h : Longer made rs rs') {c : Chunk} (hc : c.Fits rs) :
    Longer made (writeChunk rs c) (LoopNest.writeChunk rs' c) := by
  refine ⟨by rw [size_writeChunk, size_writeChunk, h.size_eq], fun r o => ?_⟩
  rw [byteAt_writeChunk hc, byteAt_writeChunk (c := c) (h.inBounds hc)]
  split
  · exact .inl rfl
  · exact h.byteAt_eq r o

theorem writeChunks (h : Longer made rs rs') : ∀ {cs : List Chunk}, (∀ c ∈ cs, c.Fits rs) →
    Longer made (writeChunks rs cs) (LoopNest.writeChunks rs' cs) := by
  intro cs
  induction cs generalizing rs rs' with
  | nil => exact fun _ => h
  | cons c cs ih =>
    intro hf
    refine ih (h.writeChunk (hf c List.mem_cons_self)) fun x hx => ?_
    exact (sameExtents_writeChunk rs c).fits.mp (hf x (List.mem_cons_of_mem _ hx))

theorem byteAt_push (rs : Array Region) (a : Region) (r o : Nat) :
    byteAt (rs.push a) r o = if r = rs.size then a[o]? else byteAt rs r o := by
  unfold byteAt
  rw [Array.getElem?_push]
  split <;> rfl

/-- A new region of zeros may be longer. -/
theorem push (h : Longer made rs rs') {k k' : Nat} (hle : k ≤ k')
    (hmade : k < k' → made rs.size) :
    Longer made (rs.push (Array.replicate k 0)) (rs'.push (Array.replicate k' 0)) := by
  refine ⟨by simp [h.size_eq], fun r o => ?_⟩
  rw [byteAt_push, byteAt_push, h.size_eq]
  split
  · rename_i hr
    simp only [Array.getElem?_replicate]
    by_cases hk : o < k
    · left
      rw [if_pos hk, if_pos (by omega)]
    · by_cases hk' : o < k'
      · right
        rw [if_neg hk, if_pos hk', hr]
        exact ⟨hmade (by omega), rfl, rfl⟩
      · left
        rw [if_neg hk, if_neg hk']
  · exact h.byteAt_eq r o

/-- Bytes that are there stay, and others are zeros. -/
theorem eq_append_zeros {a a' : Region}
    (h : ∀ o : Nat, a'[o]? = a[o]? ∨ a[o]? = none ∧ a'[o]? = some 0) :
    a' = a ++ Array.replicate (a'.size - a.size) 0 := by
  have hle : a.size ≤ a'.size := by
    by_contra hlt
    rcases h a'.size with heq | ⟨_, heq⟩
    · simp [Array.getElem?_eq_getElem (Nat.lt_of_not_le hlt)] at heq
    · simp at heq
  refine Array.ext_getElem? fun o => ?_
  rw [Array.getElem?_append]
  split
  · rename_i ho
    rcases h o with heq | ⟨hnone, _⟩
    · exact heq
    · simp [Array.getElem?_eq_getElem ho] at hnone
  · rename_i ho
    rw [Array.getElem?_replicate]
    by_cases ho' : o < a'.size
    · rw [if_pos (by omega)]
      rcases h o with heq | ⟨_, heq⟩
      · have hnone : a[o]? = none := Array.getElem?_eq_none (by omega)
        simp [hnone, Array.getElem?_eq_getElem ho'] at heq
      · exact heq
    · rw [if_neg (by omega), Array.getElem?_eq_none (by omega)]

/-- A region is the same, or it may be longer and is followed by zeros. -/
theorem region_eq (h : Longer made rs rs') (r : Nat) : rs'[r]? = rs[r]? ∨
    made r ∧ ∃ a k, rs[r]? = some a ∧ rs'[r]? = some (a ++ Array.replicate k 0) := by
  rcases Nat.lt_or_ge r rs.size with hr | hr
  · have hr' : r < rs'.size := h.size_eq ▸ hr
    have hbyte := h.byteAt_eq r
    simp only [byteAt, Array.getElem?_eq_getElem hr, Array.getElem?_eq_getElem hr',
      Option.bind_some] at hbyte
    rw [Array.getElem?_eq_getElem hr, Array.getElem?_eq_getElem hr']
    by_cases hm : made r
    · right
      refine ⟨hm, rs[r], rs'[r].size - rs[r].size, rfl, ?_⟩
      congr 1
      exact eq_append_zeros fun o => (hbyte o).imp_right And.right
    · left
      congr 1
      exact Array.ext_getElem? fun o => (hbyte o).resolve_right fun h => hm h.1
  · left
    rw [Array.getElem?_eq_none hr, Array.getElem?_eq_none (h.size_eq ▸ hr)]

end Longer

section

variable {tt : TypeTable} {value : Operand → Option Datum} {tyOf : Operand → TyId} {ty : TyId}
  {op : Op} {rs rs' : Array Region} {d : Datum} {δ : List Chunk}

/-- An instruction does the same to longer regions. -/
theorem Computes.longer {made : Nat → Prop} {rt : Array Region}
    (h : Computes tt value tyOf ty op rs d δ rs') (hl : Longer made rs rt) :
    ∃ rt', Computes tt value tyOf ty op rt d δ rt' ∧ Longer made rs' rt' := by
  cases h with
  | pure hp => exact ⟨rt, .pure hp, hl⟩
  | alloca =>
    refine ⟨_, ?_, hl.push (Nat.le_refl _) fun h => absurd h (Nat.lt_irrefl _)⟩
    rw [← hl.size_eq]
    exact .alloca
  | load hp hd => exact ⟨rt, .load hp (hl.load hd), hl⟩
  | store hp hd hcs hf => exact ⟨_, .store hp hd hcs fun c hc => hl.inBounds (hf c hc), hl.writeChunks hf⟩

/-- A stack slot makes a region of zeros. -/
theorem Computes.of_alloca {t : TyId} {a : Nat}
    (h : Computes tt value tyOf ty (.alloca t a) rs d δ rs') :
    d = .ptr ⟨rs.size, 0⟩ ∧ rs' = rs.push (Array.replicate (tt.paddedSize t) 0) := by
  cases h with
  | pure hp => cases hp
  | alloca => exact ⟨rfl, rfl⟩

/-- An instruction with other operands of the same values and types. -/
theorem Computes.mapOperands {σ : Operand → Operand}
    (h : Computes tt (value ∘ σ) (tyOf ∘ σ) ty op rs d δ rs') :
    Computes tt value tyOf ty (op.mapOperands σ) rs d δ rs' := by
  cases h with
  | pure hp =>
    refine .pure (Eq.trans ?_ hp)
    cases op <;> rfl
  | alloca => exact .alloca
  | load hp hd => exact .load hp hd
  | store hp hd hcs hf => exact .store hp hd hcs hf

theorem Leaves.mapOperands {σ : Operand → Operand} {x : Next} (h : Leaves (value ∘ σ) op x) :
    Leaves value (op.mapOperands σ) x := by
  cases h with
  | br => exact .br
  | condBr hc => exact .condBr hc
  | retVoid => exact .retVoid
  | ret hd => exact .ret hd

end

end LoopNest
