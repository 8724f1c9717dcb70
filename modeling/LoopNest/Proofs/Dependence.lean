import LoopNest.Dependence
import LoopNest.Proofs.Machine.Lockstep
import Mathlib.Data.Finset.Card
import Mathlib.Data.List.Pairwise

/-!
# Where pointers point

The place of a pointer is traced through casts and pointer steps, without looking at control
flow.  `Traced` says that the results computed so far keep to it: a pointer whose root is a
parameter points into the region of that argument, and one whose root is a stack slot points
into a region that an execution of that slot has made.  At the root itself, it is the
argument, or the start of the region.

Every instruction keeps this (`Traced.computes`), so every pointer that an access uses lies in
the memory behind its root.  If arguments marked `noalias` point into different regions, roots
that share a region may alias (`MemRoot.mayAlias_of_covers`).
-/

namespace LoopNest

/-- The instruction that made each region, if it was made by this activation. -/
abbrev Origins := Nat → Option InstId

/-- The regions behind a root. -/
def MemRoot.Covers (args : List Datum) (made : Origins) : MemRoot → Nat → Prop
  | .param k _, r => ∃ q, args[k]? = some (.ptr q) ∧ q.region = r
  | .alloca i, r => made r = some i
  | .unknown, _ => True

/-- The pointers at a root. -/
def MemRoot.Starts (args : List Datum) : MemRoot → Pointer → Prop
  | .param k _, q => args[k]? = some (.ptr q)
  | .alloca _, q => q.offset = 0
  | .unknown, _ => True

/-- The pointers at a place, as far as root and the offset zero tell. -/
structure Place.Holds (args : List Datum) (made : Origins) (pl : Place) (q : Pointer) : Prop where
  /-- It points into the root. -/
  covers : pl.root.Covers args made q.region
  /-- At offset zero, it points to the root. -/
  starts : pl.offset = .zero → pl.root.Starts args q

theorem Place.holds_unknown {args : List Datum} {made : Origins} (q : Pointer) :
    Place.unknown.Holds args made q := ⟨trivial, fun h => by cases h⟩

theorem Place.Holds.cast {args : List Datum} {made : Origins} {pl : Place} {q : Pointer}
    (h : pl.Holds args made q) : pl.cast.Holds args made q := by
  refine ⟨h.covers, fun hz => h.starts ?_⟩
  simp only [Place.cast] at hz
  split at hz
  · assumption
  · cases hz

theorem Place.Holds.step {args : List Datum} {made : Origins} {pl : Place} {q : Pointer}
    (h : pl.Holds args made q) (index : Operand) (n : Int64) :
    (pl.step index).Holds args made (q.advance n) := by
  refine ⟨h.covers, fun hz => ?_⟩
  simp only [Place.step] at hz
  split at hz <;> cases hz

/-! ## Fuel -/

/-- A search with fuel that keeps what it has found, and that finds nothing more once a round has
found nothing more, needs no more fuel than there are keys. -/
theorem fuel_enough {α : Type} [DecidableEq α] {size : Nat} {s : Nat → Nat → α} (bot : α)
    (hkeep : ∀ n i, s n i ≠ bot → s (n + 1) i = s n i)
    (hout : ∀ n i, size ≤ i → s (n + 1) i = s n i)
    (hstop : ∀ n, s (n + 1) = s n → s (n + 2) = s (n + 1)) {n : Nat} (hle : size ≤ n) :
    s n = s size := by
  -- The keys for which something was found.
  let found (n : Nat) : Finset Nat := (Finset.range size).filter fun i => s n i ≠ bot
  have hsub (n : Nat) : found n ⊆ found (n + 1) := by
    intro i hi
    obtain ⟨hlt, hne⟩ := Finset.mem_filter.mp hi
    exact Finset.mem_filter.mpr ⟨hlt, hkeep n i hne ▸ hne⟩
  have hround {n : Nat} (hcard : (found n).card = (found (n + 1)).card) : s (n + 1) = s n := by
    have heq := Finset.eq_of_subset_of_card_le (hsub n) hcard.ge
    funext i
    by_cases hi : size ≤ i
    · exact hout n i hi
    · by_cases hne : s n i = bot
      · rw [hne]
        by_contra hsome
        have hmem : i ∈ found n :=
          heq ▸ Finset.mem_filter.mpr ⟨Finset.mem_range.mpr (Nat.lt_of_not_le hi), hsome⟩
        exact (Finset.mem_filter.mp hmem).2 hne
      · exact hkeep n i hne
  have hmono : Monotone fun n => (found n).card :=
    monotone_nat_of_le_succ fun n => Finset.card_le_card (hsub n)
  have hbound (n : Nat) : (found n).card ≤ size :=
    (Finset.card_filter_le _ _).trans_eq (Finset.card_range size)
  have hstable {m : Nat} (hm : size ≤ m) : (found m).card = (found size).card :=
    Nat.stabilises_of_monotone hmono hbound (fun k hk => by
      simp only [found, hstop k (hround hk)]) hm
  induction n, hle using Nat.le_induction with
  | base => rfl
  | succ m hm ih =>
    exact (hround ((hstable hm).trans (hstable (Nat.le_succ_of_le hm)).symm)).trans ih

/-! ## Tracing -/

namespace Func

variable (f : Func)

theorem placeWithin_eq_unknown : ∀ (n : Nat) (v : Operand),
    (f.placeWithin n v).root = .unknown → f.placeWithin n v = .unknown
  | 0, .param k, h => by
    unfold placeWithin at h ⊢
    split at h
    · cases h
    · rfl
  | _ + 1, .param k, h => by
    unfold placeWithin at h ⊢
    split at h
    · cases h
    · rfl
  | 0, .const c, _ => rfl
  | _ + 1, .const c, _ => rfl
  | 0, .inst i, _ => rfl
  | n + 1, .inst i, h => by
    rw [placeWithin] at h ⊢
    split at h
    · split at h
      · cases h
      · rename_i hi
        rw [if_neg hi]
    · rename_i v _
      rw [placeWithin_eq_unknown n v h]
      rfl
    · rename_i b x _
      rw [placeWithin_eq_unknown n b h]
      rfl
    · rfl

/-- A place that was found is found with more fuel. -/
theorem placeWithin_succ : ∀ (n : Nat) (v : Operand), f.placeWithin n v ≠ .unknown →
    f.placeWithin (n + 1) v = f.placeWithin n v
  | 0, .param k, _ => rfl
  | _ + 1, .param k, _ => rfl
  | 0, .const c, _ => rfl
  | _ + 1, .const c, _ => rfl
  | 0, .inst i, h => absurd rfl h
  | n + 1, .inst i, h => by
    rw [placeWithin] at h ⊢
    rw [placeWithin]
    split at h
    · rfl
    · rename_i v _
      rw [placeWithin_succ n v fun hu => h (by rw [hu]; rfl)]
    · rename_i b k _
      rw [placeWithin_succ n b fun hu => h (by rw [hu]; rfl)]
    · rfl

/-- As much fuel as there are instructions finds the place. -/
theorem placeWithin_eq_place {n : Nat} (hle : f.insts.size ≤ n) (v : Operand) :
    f.placeWithin n v = f.place v := by
  have hstable {n : Nat} (hle : f.insts.size ≤ n) :
      (fun i => f.placeWithin n (.inst i)) = fun i => f.placeWithin f.insts.size (.inst i) := by
    refine fuel_enough (s := fun n i => f.placeWithin n (.inst i)) .unknown
      (fun n i => f.placeWithin_succ n (.inst i)) (fun n i hi => ?_) (fun n heq => ?_) hle
    · -- There is no such instruction.
      have hop : f.op i = .alloca 0 0 := by
        simp [op, inst, Array.getElem?_eq_none hi]
      cases n <;> simp [placeWithin, hop, Nat.not_lt.mpr hi]
    · have hall (v : Operand) : f.placeWithin (n + 1) v = f.placeWithin n v := by
        cases v with
        | inst i => exact congrFun heq i
        | param k => cases n <;> rfl
        | const c => cases n <;> rfl
      funext i
      rw [placeWithin, placeWithin]
      simp only [hall]
  cases v with
  | inst i => exact (congrFun (hstable hle) i).trans (congrFun (hstable (Nat.le_succ _)) i).symm
  | param k => cases n <;> rfl
  | const c => cases n <;> rfl

/-- The `noalias` mark of a root is that of the parameter. -/
theorem param_of_placeWithin : ∀ (n : Nat) (v : Operand) {k : Nat} {na : Bool},
    (f.placeWithin n v).root = .param k na → ∃ p, f.params[k]? = some p ∧ p.noalias = na
  | 0, .param j, k, na, h => by
    simp only [placeWithin] at h
    split at h
    · rename_i p hp
      cases h
      exact ⟨p, hp, rfl⟩
    · cases h
  | n + 1, .param j, k, na, h => param_of_placeWithin 0 (.param j) h
  | 0, .const c, _, _, h => by cases h
  | _ + 1, .const c, _, _, h => by cases h
  | 0, .inst i, _, _, h => by cases h
  | n + 1, .inst i, k, na, h => by
    rw [placeWithin] at h
    split at h
    · split at h <;> cases h
    · exact param_of_placeWithin n _ h
    · exact param_of_placeWithin n _ h
    · cases h

end Func

/-! ## The invariant -/

/-- The results computed so far keep to their places, and the regions made by stack slots came
after the first `base` ones. -/
structure Traced (f : Func) (args : List Datum) (base : Nat) (made : Origins) (s : Snapshot) :
    Prop where
  /-- Pointers are at their places. -/
  holds : ∀ j q, s.values j = some (.ptr q) → (f.place (.inst j)).Holds args made q
  /-- There are at least the first regions. -/
  base_le : base ≤ s.regions.size
  /-- The regions made by stack slots. -/
  made_range : ∀ r i, made r = some i → base ≤ r ∧ r < s.regions.size

section

variable {tt : TypeTable} {f : Func} {args : List Datum} {base : Nat} {made : Origins}
  {s : Snapshot}

/-- The pointers that instructions use are at their places. -/
theorem Traced.value (h : Traced f args base made s) {v : Operand} {q : Pointer}
    (hv : f.value tt args s.values v = some (.ptr q)) : (f.place v).Holds args made q := by
  cases v with
  | inst j => exact h.holds j q hv
  | const c => exact Place.holds_unknown q
  | param k =>
    unfold Func.place Func.placeWithin
    split
    · exact ⟨⟨q, hv, rfl⟩, fun _ => hv⟩
    · exact Place.holds_unknown q

theorem Place.Holds.mono {made' : Origins} {pl : Place} {q : Pointer} (h : pl.Holds args made q)
    (hm : ∀ r i, made r = some i → made' r = some i) : pl.Holds args made' q := by
  refine ⟨?_, h.starts⟩
  have hc := h.covers
  cases hr : pl.root with
  | param k na => simpa [hr, MemRoot.Covers] using hc
  | alloca i =>
    rw [hr] at hc
    exact hm _ _ hc
  | unknown => trivial

/-- Computing keeps the regions or adds one. -/
theorem Computes.size_le {value : Operand → Option Datum} {tyOf : Operand → TyId} {ty : TyId}
    {op : Op} {rs rs' : Array Region} {d : Datum} {δ : List Chunk}
    (h : Computes tt value tyOf ty op rs d δ rs') : rs.size ≤ rs'.size := by
  cases h with
  | pure _ => exact Nat.le_refl _
  | alloca => simp
  | load _ _ => exact Nat.le_refl _
  | store _ _ _ _ => exact Nat.le_of_eq (sameExtents_writeChunks _ _).1

/-- A result other than a new stack slot keeps to its place. -/
theorem Traced.result (h : Traced f args base made s) {i : InstId} {d : Datum} {δ : List Chunk}
    {rs : Array Region} (hc : Computes tt (f.value tt args s.values) f.tyOf (f.inst i).ty (f.op i)
      s.regions d δ rs) (hal : ∀ t a, f.op i ≠ .alloca t a) {q : Pointer} (hd : d = .ptr q) :
    (f.place (.inst i)).Holds args made q := by
  subst hd
  unfold Func.place Func.placeWithin
  split
  · rename_i t a hop
    exact absurd hop (hal t a)
  · rename_i v hop
    rw [hop] at hc
    cases hc with
    | pure hp => exact (f.placeWithin_eq_place (Nat.le_refl _) v ▸ h.value hp).cast
  · rename_i b k hop
    rw [hop] at hc
    cases hc with
    | pure hp =>
      simp only [pureResult] at hp
      split at hp
      · rename_i p n t hb hk ht
        cases hp
        exact (f.placeWithin_eq_place (Nat.le_refl _) b ▸ h.value hb).step k _
      · cases hp
  · exact Place.holds_unknown q

/-- Instructions other than stack slots keep the invariant. -/
theorem Traced.keeps {is : List InstId} (hal : f.SlotFree is) :
    Keeps tt f args is (Traced f args base made) := by
  intro i hi s h d δ rs hc
  have hle := hc.size_le
  refine ⟨fun j q hj => ?_, Nat.le_trans h.base_le hle,
    fun r k hk => ⟨(h.made_range r k hk).1, Nat.lt_of_lt_of_le (h.made_range r k hk).2 hle⟩⟩
  by_cases hji : j = i
  · subst hji
    simp only [Values.set_self, Option.some.injEq] at hj
    exact h.result hc (hal j hi) hj
  · simp only [Values.set_of_ne hji] at hj
    exact h.holds j q hj

/-- Every instruction keeps the invariant, with one more region for a stack slot. -/
theorem Traced.computes (h : Traced f args base made s) {i : InstId} {d : Datum} {δ : List Chunk}
    {rs : Array Region} (hc : Computes tt (f.value tt args s.values) f.tyOf (f.inst i).ty (f.op i)
      s.regions d δ rs) : ∃ made', Traced f args base made' ⟨s.values.set i d, rs⟩ := by
  by_cases hal : ∃ t a, f.op i = .alloca t a
  · obtain ⟨t, a, hop⟩ := hal
    have hext : ∀ r k, made r = some k →
        (fun r => if r = s.regions.size then some i else made r) r = some k := by
      intro r k hk
      have := (h.made_range r k hk).2
      simp only
      rw [if_neg (by omega)]
      exact hk
    refine ⟨fun r => if r = s.regions.size then some i else made r, ?_⟩
    rw [hop] at hc
    cases hc with
    | pure hp => cases hp
    | alloca =>
      refine ⟨fun j q hj => ?_, ?_, fun r k hk => ?_⟩
      · by_cases hji : j = i
        · subst hji
          simp only [Values.set_self, Option.some.injEq, Datum.ptr.injEq] at hj
          subst hj
          unfold Func.place Func.placeWithin
          simp only [hop]
          split
          · exact ⟨by simp [MemRoot.Covers], fun _ => rfl⟩
          · exact Place.holds_unknown _
        · simp only [Values.set_of_ne hji] at hj
          exact (h.holds j q hj).mono hext
      · have := h.base_le
        simp only [Array.size_push]
        omega
      · simp only [Array.size_push]
        by_cases hr : r = s.regions.size
        · have := h.base_le
          omega
        · rw [if_neg hr] at hk
          have := h.made_range r k hk
          omega
  · have hfree : f.SlotFree [i] := by
      intro j hj t a hop
      rw [List.mem_singleton.mp hj] at hop
      exact hal ⟨t, a, hop⟩
    exact ⟨made, Traced.keeps hfree i (List.mem_singleton.mpr rfl) s h d δ rs hc⟩

theorem Traced.straight {is : List InstId} {s' : Snapshot} {δ : List Chunk}
    (hst : Straight tt f args is s δ s') : ∀ {made : Origins}, Traced f args base made s →
    ∃ made', Traced f args base made' s' := by
  induction hst with
  | nil => exact fun h => ⟨_, h⟩
  | cons hc _ ih =>
    intro made h
    obtain ⟨made', h'⟩ := h.computes hc
    exact ih h'

/-- Phis have no place. -/
theorem place_of_phi {b : BlockId} {i : InstId} (hi : i ∈ f.phis b) :
    f.place (.inst i) = .unknown := by
  have hphi := Func.isPhi_of_mem_phis hi
  unfold Func.place Func.placeWithin
  generalize f.op i = op at hphi
  cases op <;> first | rfl | cases hphi

/-- Entering a block keeps the invariant. -/
theorem Traced.entered (h : Traced f args base made s) (source : Option BlockId) (b : BlockId) :
    Traced f args base made ⟨entered tt f args source b s.values, s.regions⟩ := by
  refine ⟨fun j q hj => ?_, h.base_le, h.made_range⟩
  simp only [LoopNest.entered] at hj
  split at hj
  · rename_i hmem
    rw [place_of_phi hmem]
    exact Place.holds_unknown q
  · exact h.holds j q hj

theorem Traced.visit (h : Traced f args base made s) {source : Option BlockId} {b : BlockId}
    {s' : Snapshot} {δ : List Chunk} {x : Next} (hv : Visit tt f args source b s δ s' x) :
    ∃ made', Traced f args base made' s' := Traced.straight hv.straight (h.entered source b)

/-- In a block without stack slots, no region is made. -/
theorem Traced.visit_of_no_alloca (h : Traced f args base made s) {source : Option BlockId}
    {b : BlockId} {s' : Snapshot} {δ : List Chunk} {x : Next}
    (hv : Visit tt f args source b s δ s' x) (hal : f.SlotFree (f.code b)) :
    Traced f args base made s' := hv.straight.keeps (Traced.keeps hal) (h.entered source b)

/-! ## Chunks and roots -/

theorem region_of_laneChunks : ∀ {ds : List Datum} {p : Pointer} {cs : List Chunk},
    laneChunks p ds = some cs → ∀ c ∈ cs, c.place.region = p.region
  | [], p, cs, h => by
    cases h
    exact fun c hc => absurd hc List.not_mem_nil
  | d :: ds, p, cs, h => by
    simp only [laneChunks, Option.bind_eq_bind, Option.bind_eq_some_iff, Option.pure_def,
      Option.some.injEq] at h
    obtain ⟨bytes, _, rest, hr, rfl⟩ := h
    intro c hc
    rcases List.mem_cons.mp hc with rfl | hc
    · rfl
    · exact region_of_laneChunks hr c hc

/-- The chunks of a store go to the region of the pointer. -/
theorem region_of_storeChunks {t : TyId} {d : Datum} {p : Pointer} {cs : List Chunk}
    (h : storeChunks tt t d p = some cs) : ∀ c ∈ cs, c.place.region = p.region := by
  cases d with
  | vector lanes => exact region_of_laneChunks h
  | int n =>
    simp only [storeChunks, Option.map_eq_some_iff] at h
    obtain ⟨_, _, rfl⟩ := h
    simp
  | _ =>
    simp only [storeChunks, Option.map_eq_some_iff] at h
    obtain ⟨_, _, rfl⟩ := h
    simp

/-- What straight code writes lies in the memory behind the roots of its stores. -/
theorem Straight.chunks_covered {is : List InstId} {s s' : Snapshot} {δ : List Chunk}
    (hst : Straight tt f args is s δ s') (hal : f.SlotFree is)
    (h : Traced f args base made s) : ∀ c ∈ δ, ∃ i ∈ is, ∃ v p, f.op i = .store v p ∧
      (f.place p).root.Covers args made c.place.region := by
  induction hst with
  | nil => exact fun c hc => absurd hc List.not_mem_nil
  | @cons i is s s' d δ δ' rs hc _ ih =>
    intro c hmem
    rcases List.mem_append.mp hmem with hmem | hmem
    · refine ⟨i, List.mem_cons_self, ?_⟩
      generalize hop : f.op i = op at hc
      cases hc with
      | pure _ => exact absurd hmem List.not_mem_nil
      | alloca => exact absurd hmem List.not_mem_nil
      | load _ _ => exact absurd hmem List.not_mem_nil
      | @store v p q _ _ _ hp _ hcs _ =>
        refine ⟨v, p, rfl, ?_⟩
        rw [region_of_storeChunks hcs c hmem]
        exact (h.value hp).covers
    · obtain ⟨j, hj, hrest⟩ := ih (fun j hj => hal j (List.mem_cons_of_mem _ hj))
        (Traced.keeps hal i List.mem_cons_self s h d δ rs hc) c hmem
      exact ⟨j, List.mem_cons_of_mem _ hj, hrest⟩

end

/-! ## Aliasing -/

/-- What a caller promises: pointers lead to regions that exist, and those of `noalias`
parameters to different ones. -/
structure Separate (f : Func) (args : List Datum) (base : Nat) : Prop where
  /-- Pointers lead to regions that exist. -/
  region_lt : ∀ (k : Nat) q, args[k]? = some (Datum.ptr q) → q.region < base
  /-- Those of `noalias` parameters lead to different regions. -/
  region_ne : ∀ (k l : Nat) pk pl qk ql, k ≠ l → f.params[k]? = some pk → f.params[l]? = some pl →
    pk.noalias = true → pl.noalias = true → args[k]? = some (Datum.ptr qk) →
    args[l]? = some (Datum.ptr ql) → qk.region ≠ ql.region

/-- Roots with a common region may alias. -/
theorem MemRoot.mayAlias_of_covers {f : Func} {args : List Datum} {base : Nat} {made : Origins}
    {s : Snapshot} (hsep : Separate f args base) (h : Traced f args base made s) {v w : Operand}
    {r : Nat} (hv : (f.place v).root.Covers args made r)
    (hw : (f.place w).root.Covers args made r) :
    (f.place v).root.mayAlias (f.place w).root = true := by
  cases hrv : (f.place v).root with
  | unknown => rfl
  | param k na =>
    rw [hrv] at hv
    obtain ⟨q, hq, hqr⟩ := hv
    cases hrw : (f.place w).root with
    | unknown => rfl
    | param l nb =>
      rw [hrw] at hw
      obtain ⟨q', hq', hqr'⟩ := hw
      obtain ⟨pk, hpk, hna⟩ := f.param_of_placeWithin _ v hrv
      obtain ⟨pl, hpl, hnb⟩ := f.param_of_placeWithin _ w hrw
      by_contra hno
      simp only [mayAlias, Bool.or_eq_true, beq_iff_eq, Bool.not_eq_true', Bool.and_eq_false_iff,
        not_or, Bool.not_eq_false] at hno
      exact hsep.region_ne k l pk pl q q' hno.1 hpk hpl (hna ▸ hno.2.1) (hnb ▸ hno.2.2) hq hq'
        (hqr.trans hqr'.symm)
    | alloca i =>
      rw [hrw] at hw
      have := (h.made_range r i hw).1
      have := hsep.region_lt k q hq
      omega
  | alloca i =>
    rw [hrv] at hv
    cases hrw : (f.place w).root with
    | unknown => rfl
    | param l nb =>
      rw [hrw] at hw
      obtain ⟨q', hq', hqr'⟩ := hw
      have := (h.made_range r i hv).1
      have := hsep.region_lt l q' hq'
      omega
    | alloca j =>
      rw [hrw] at hw
      change made r = some i at hv
      change made r = some j at hw
      rw [hv] at hw
      cases hw
      simp [mayAlias]

/-! ## Accesses that do not conflict -/

theorem MemRoot.mayAlias_comm (a b : MemRoot) : a.mayAlias b = b.mayAlias a := by
  cases a <;> cases b <;> simp only [mayAlias, Bool.and_comm, Bool.beq_comm]

/-- A pointer with an index is one pointer step away from its root. -/
theorem Func.gep_of_place {f : Func} {ptr y : Operand} (h : (f.place ptr).offset = .index y) :
    ∃ g base, ptr = .inst g ∧ f.op g = .gep base y := by
  unfold place at h
  cases ptr with
  | param k =>
    rw [placeWithin] at h
    split at h <;> cases h
  | const k => cases h
  | inst g =>
    rw [placeWithin] at h
    split at h
    · split at h <;> cases h
    · unfold Place.cast at h
      dsimp only at h
      split at h <;> cases h
    · rename_i base idx hop
      unfold Place.step at h
      dsimp only at h
      split at h
      · cases h
        exact ⟨g, base, rfl, hop⟩
      · cases h
    · cases h

namespace MemAccess

variable {f : Func} {bs : List BlockId} {b : BlockId} {i j : InstId} {v p q : Operand}

theorem store_access (hb : b ∈ bs) (hi : i ∈ f.body b) (hop : f.op i = .store v q) :
    ⟨i, .write, f.place q⟩ ∈ ofBlocks f bs :=
  List.mem_filterMap.mpr ⟨i, List.mem_flatMap.mpr ⟨b, hb, hi⟩, by simp [ofInst?, hop]⟩

theorem load_access (hb : b ∈ bs) (hi : i ∈ f.body b) (hop : f.op i = .load q) :
    ⟨i, .read, f.place q⟩ ∈ ofBlocks f bs :=
  List.mem_filterMap.mpr ⟨i, List.mem_flatMap.mpr ⟨b, hb, hi⟩, by simp [ofInst?, hop]⟩

/-- Two accesses go by the same index if one of them writes and they may alias. -/
def SameIndex (a c : MemAccess) : Prop :=
  (a.kind.writes || c.kind.writes) = true → a.place.root.mayAlias c.place.root = true →
    ∃ y, a.place.offset = .index y ∧ c.place.offset = .index y

instance : Std.Symm SameIndex where
  symm a c h hw halias := by
    rw [Bool.or_comm] at hw
    rw [MemRoot.mayAlias_comm] at halias
    obtain ⟨y, ha, hc⟩ := h hw halias
    exact ⟨y, hc, ha⟩

theorem sameIndex_of_mayConflict {a c : MemAccess} (h : a.mayConflict c = false) :
    a.SameIndex c := by
  intro hw halias
  unfold mayConflict at h
  rw [hw, halias, Bool.and_self, Bool.true_and] at h
  split at h
  · rename_i x y hx hy
    simp only [Bool.or_eq_false_iff, bne_eq_false_iff_eq] at h
    exact ⟨x, hx, h.1.1.1 ▸ hy⟩
  · cases h

/-- A load and a store of blocks without conflicts go by the same index, or do not alias. -/
theorem index_of_pairwise (h : (ofBlocks f bs).Pairwise fun a c => a.mayConflict c = false)
    (hb : b ∈ bs) (hi : i ∈ f.body b) (hload : f.op i = .load p) (hj : j ∈ f.body b)
    (hstore : f.op j = .store v q)
    (halias : (f.place p).root.mayAlias (f.place q).root = true) :
    ∃ y, (f.place p).offset = .index y ∧ (f.place q).offset = .index y :=
  (h.imp sameIndex_of_mayConflict).forall (load_access hb hi hload) (store_access hb hj hstore)
    (fun heq => by cases congrArg kind heq) rfl halias

end MemAccess

end LoopNest
