import LoopNest.Proofs.Machine.Cells
import LoopNest.Proofs.Machine.Lockstep
import LoopNest.Proofs.Machine.Stores

/-!
# Vectors of numbers

A vector access moves consecutive elements of a buffer, one in each lane: a load gives the cells
from an element on (`loadLanes_cells`), and a store continues a buffer that is being filled
(`Written.storeLanes`).  Comparing with a number in all lanes, and choosing between the lanes
and that number, is done in each lane by itself.

The lanes of other vectors are given by the lane number (`Datum.lanes`).  An operation on such
vectors gives the vector of the results, if it succeeds in every lane (`lanewise_lanes`,
`choose_lanes_of_lane`).  So does a load from consecutive places (`Memory.loadLanes_of_lane`), and a
store to them writes the chunks of the lanes one after the other (`storeChunks_lanes`).
-/

namespace LoopNest

/-- Numbers, one in each lane. -/
def Datum.ofF32s (xs : List F32) : Datum := .vector (xs.map .f32)

variable {rs base : Array Region} {p : Pointer} {n : Nat}

/-- The next element is four bytes further on. -/
theorem Pointer.advance_element (p : Pointer) (k : Nat) :
    (p.element k).advance (Int64.ofNat 4) = p.element (k + 1 : Nat) := by
  have hoff : Int64.ofInt (4 * ((k + 1 : Nat) : Int)) = Int64.ofInt (4 * k) + Int64.ofNat 4 := by
    rw [show (4 * ((k + 1 : Nat) : Int)) = 4 * k + 4 by omega, Int64.ofInt_add]
    rfl
  simp only [element, advance, hoff, Int64.add_assoc]

/-- The elements from one on. -/
theorem loadLanes_cells (h : p.Spans n rs) : ∀ (w k : Nat), k + w ≤ n →
    (Memory.ofRegions rs).loadLanes .f32 w (p.element k) =
      .ok ((List.range' k w).map fun j => .f32 (cellAt rs (p.element (j : Nat))))
  | 0, _, _ => rfl
  | w + 1, k, hk => by
    have hrest := loadLanes_cells h w (k + 1) (by omega)
    have hcell := loadScalar_cell (h.inBounds_element (k := k) (by omega))
    rw [Memory.loadLanes, hcell, show Int64.ofNat Scalar.f32.width = Int64.ofNat 4 from rfl,
      Pointer.advance_element, hrest, List.range'_succ, List.map_cons]
    rfl

section

variable (xs : List F32) (z : F32) (holds : F32 → Bool)

theorem lanewise_fcmp {o : FloatPredicate} :
    lanewise o.apply (.ofF32s xs) (.vector (List.replicate xs.length (.f32 z))) =
      .ok (.vector (xs.map fun x => .bool (o.holds x z))) := by
  have hmap (g : Datum × Datum → Except Fault Datum)
      (hg : ∀ x, g (.f32 x, .f32 z) = .ok (.bool (o.holds x z))) :
      ((xs.map Datum.f32).zip (List.replicate xs.length (.f32 z))).mapM g =
        .ok (xs.map fun x => .bool (o.holds x z)) := by
    induction xs with
    | nil => rfl
    | cons x xs ih =>
      rw [List.map_cons, List.length_cons, List.replicate_succ, List.zip_cons_cons,
        List.mapM_cons, hg, ih]
      rfl
  rw [Datum.ofF32s, lanewise, hmap _ fun _ => rfl]
  rfl

theorem choose_lanes :
    Datum.choose (.vector (xs.map fun x => .bool (holds x))) (.ofF32s xs)
      (.vector (List.replicate xs.length (.f32 z))) =
      .ok (.ofF32s (xs.map fun x => if holds x then x else z)) := by
  have hmap (g : Datum × Datum × Datum → Except Fault Datum)
      (hg : ∀ x, g (.bool (holds x), .f32 x, .f32 z) = .ok (.f32 (if holds x then x else z))) :
      ((xs.map fun x => Datum.bool (holds x)).zip
        ((xs.map Datum.f32).zip (List.replicate xs.length (.f32 z)))).mapM g =
      .ok (xs.map fun x => .f32 (if holds x then x else z)) := by
    induction xs with
    | nil => rfl
    | cons x xs ih =>
      rw [List.map_cons, List.map_cons, List.length_cons, List.replicate_succ,
        List.zip_cons_cons, List.zip_cons_cons, List.mapM_cons, hg, ih]
      rfl
  rw [Datum.ofF32s, Datum.choose, hmap _ fun x => by cases holds x <;> rfl, Datum.ofF32s,
    List.map_map]
  rfl

end

/-- Some numbers more at the end of a buffer. -/
theorem Written.storeLanes {ws : List (Pointer × List F32)}
    (hne : ∀ w ∈ ws, w.1.region ≠ p.region) : ∀ {rs : Array Region} {xs : List F32}
    (ys : List F32), Written base rs ((p, xs) :: ws) → p.Spans (xs.length + ys.length) base →
    ∃ cs, laneChunks (p.element xs.length) (ys.map .f32) = some cs ∧ (∀ c ∈ cs, c.Fits rs) ∧
      Written base (writeChunks rs cs) ((p, xs ++ ys) :: ws)
  | rs, xs, [], h, _ => by
    refine ⟨[], rfl, by simp, ?_⟩
    rwa [List.append_nil]
  | rs, xs, y :: ys, h, hp => by
    rw [List.length_cons] at hp
    have hfits := fits_cellChunk
      ((hp.sameExtents h.extents).inBounds_element (k := xs.length) (by omega)) y
    have hy := h.store (List.prefix_refl xs) (by omega) (hp.mono (by omega)) hne y
    have hlen : (xs ++ [y]).length = xs.length + 1 := by simp
    obtain ⟨cs, hcs, hcs', hw⟩ := Written.storeLanes hne ys hy
      (by rw [hlen]; exact hp.mono (by omega))
    rw [hlen, ← Pointer.advance_element] at hcs
    refine ⟨cellChunk (p.element xs.length) y :: cs, ?_, fun c hc => ?_, ?_⟩
    · have hbytes : (littleEndian 4 y.bits.toNat).length = 4 := length_littleEndian _ _
      rw [List.map_cons, laneChunks, Memory.bytesOf?]
      simp only [Option.bind_eq_bind, Option.bind_some, hbytes, hcs, Option.pure_def]
      rfl
    · rcases List.mem_cons.mp hc with rfl | hc
      · exact hfits
      · exact (sameExtents_storeCell ..).fits.mpr (hcs' c hc)
    · rw [List.append_assoc, List.singleton_append] at hw
      exact hw

/-! ## Lanes by their number -/

variable {W : Nat} {a b e r : Nat → Datum}

/-- The vector with given lanes. -/
def Datum.lanes (W : Nat) (a : Nat → Datum) : Datum := .vector ((List.range W).map a)

theorem Datum.lanes_const (d : Datum) : Datum.lanes W (fun _ => d) = .vector (List.replicate W d) := by
  rw [lanes, List.map_const', List.length_range]

/-- What is done in every lane is done to the list of lanes. -/
theorem mapM_lanes {β : Type} {f : β → Except Fault Datum} {y : Nat → β}
    (h : ∀ t < W, f (y t) = .ok (r t)) :
    ((List.range W).map y).mapM f = .ok ((List.range W).map r) := by
  have hall : ∀ ts : List Nat, (∀ t ∈ ts, t < W) → (ts.map y).mapM f = .ok (ts.map r) := by
    intro ts
    induction ts with
    | nil => exact fun _ => rfl
    | cons t ts ih =>
      intro hts
      rw [List.map_cons, List.mapM_cons, h t (hts t List.mem_cons_self),
        ih fun t' ht' => hts t' (List.mem_cons_of_mem _ ht')]
      rfl
  exact hall _ fun t ht => List.mem_range.mp ht

theorem lanewise_of_ne_vector {f : Datum → Datum → Except Fault Datum} {x y : Datum}
    (hx : ∀ ds, x ≠ .vector ds) : lanewise f x y = f x y := by
  cases x with
  | vector ds => exact absurd rfl (hx ds)
  | _ => rfl

/-- An operation on vectors is done lane by lane. -/
theorem lanewise_lanes {f : Datum → Datum → Except Fault Datum}
    (h : ∀ t < W, f (a t) (b t) = .ok (r t)) :
    lanewise f (.lanes W a) (.lanes W b) = .ok (.lanes W r) := by
  unfold Datum.lanes lanewise
  dsimp only
  rw [List.zip_map', mapM_lanes h]
  rfl

theorem Datum.choose_of_ne_vector {c t e : Datum} (hc : ∀ ds, c ≠ .vector ds) :
    c.choose t e = c.asBool.map fun taken => if taken then t else e := by
  cases c with
  | vector ds => exact absurd rfl (hc ds)
  | _ => rfl

/-- A choice between vectors is made lane by lane. -/
theorem choose_lanes_of_lane (ha : ∀ t < W, ∀ ds, a t ≠ .vector ds)
    (h : ∀ t < W, (a t).choose (b t) (e t) = .ok (r t)) :
    Datum.choose (.lanes W a) (.lanes W b) (.lanes W e) = .ok (.lanes W r) := by
  unfold Datum.lanes Datum.choose
  dsimp only
  rw [List.zip_map', List.zip_map', mapM_lanes fun t ht => ?_]
  · rfl
  · have := h t ht
    rw [Datum.choose_of_ne_vector (ha t ht)] at this
    dsimp only
    cases hc : (a t).asBool with
    | error _ => rw [hc] at this; cases this
    | ok taken => rw [hc] at this; exact this

/-! ## Consecutive places -/

/-- A load from consecutive places, lane by lane. -/
theorem Memory.loadLanes_of_lane {m : Memory} {s : Scalar} {q : Pointer}
    (h : ∀ t < W, m.loadScalar (q.lane s t) s = .ok (r t)) :
    m.loadLanes s W q = .ok ((List.range W).map r) := by
  rw [← q.lane_zero s, loadLanes_eq_mapM, ← List.range_eq_range', ← List.map_id (List.range W),
    mapM_lanes h, List.map_id]

/-- The chunks of a vector, lane by lane. -/
theorem laneChunks_of_lane {s : Scalar} {q : Pointer} {bytes : Nat → List UInt8} : ∀ {n k : Nat},
    (∀ t < k + n, Memory.bytesOf? (r t) = some (bytes t) ∧ (bytes t).length = s.width) →
    laneChunks (q.lane s k) ((List.range' k n).map r) =
      some ((List.range' k n).map fun t => ⟨q.lane s t, bytes t⟩)
  | 0, _, _ => rfl
  | n + 1, k, h => by
    obtain ⟨hbytes, hlen⟩ := h k (by omega)
    have hrest := laneChunks_of_lane (s := s) (q := q) (n := n) (k := k + 1)
      fun t ht => h t (by omega)
    rw [List.range'_succ, List.map_cons, List.map_cons, laneChunks, hbytes]
    dsimp only [Option.bind_eq_bind, Option.bind_some]
    rw [hlen, Pointer.lane_succ, hrest]
    rfl

/-- The chunks of a vector that is stored. -/
theorem storeChunks_lanes {tt : TypeTable} {u : TyId} {s : Scalar} {q : Pointer}
    {bytes : Nat → List UInt8}
    (h : ∀ t < W, Memory.bytesOf? (r t) = some (bytes t) ∧ (bytes t).length = s.width) :
    storeChunks tt u (.lanes W r) q = some ((List.range W).map fun t => ⟨q.lane s t, bytes t⟩) := by
  change laneChunks q ((List.range W).map r) = _
  rw [List.range_eq_range', ← laneChunks_of_lane (n := W) (k := 0)
    fun t ht => h t (Nat.zero_add W ▸ ht), Pointer.lane_zero]

end LoopNest
