import LoopNest.Kernel.Conv2d
import LoopNest.Proofs.Kernel.Generated

/-!
# What a convolution computes

`Conv2d.cell` says what an output cell is: the products of the weights with the elements under the
window, added up row by row from zero.  Outside of the input there are zeros.  A generated function
leaves these cells in its output buffer and changes nothing else (`Kernel.conv2d_fills`).

`Conv2d.Addresses` says what the function addresses: a cell of the output, a weight, an element
of the input, or in the padding element 0 of the input.  Every address of a run is one of these,
and its index is the number itself, without a wrap (`Kernel.conv2d_addresses`).

Both rest on two conditions that are not checked: the input has an element, as element 0 is loaded
in the padding, and there are at most `2 ^ 31` weights, so that their places are 32-bit numbers.
-/

namespace LoopNest

namespace Conv2d

variable (c : Conv2d) (xs ws : List F32)

/-! ## Cells -/

/-- A row and column of the padded input that are inside of the input. -/
def Inside (y x : Nat) : Prop :=
  (c.padding.height ≤ y ∧ y < c.padding.height + c.input.height) ∧
    c.padding.width ≤ x ∧ x < c.padding.width + c.input.width

instance (y x : Nat) : Decidable (c.Inside y x) := inferInstanceAs (Decidable ((_ ∧ _) ∧ _ ∧ _))

/-- The place of an element at a row and column of the padded input. -/
def index (y x : Nat) : Nat := (y - c.padding.height) * c.input.width + (x - c.padding.width)

/-- The element at a row and column of the padded input. -/
def padded (y x : Nat) : F32 := if c.Inside y x then xs.getD (c.index y x) .zero else .zero

/-- The product of one weight. -/
def product (oy ox ky kx : Nat) : F32 :=
  (c.padded xs (oy * c.stride.height + ky) (ox * c.stride.width + kx)).mul
    (ws.getD (ky * c.kernel.width + kx) .zero)

/-- The sum with some products of a row of the window. -/
def afterRow (oy ox ky : Nat) (acc : F32) (n : Nat) : F32 :=
  (List.range n).foldl (fun acc kx => acc.add (c.product xs ws oy ox ky kx)) acc

/-- The sum of some rows of the window. -/
def afterRows (oy ox n : Nat) : F32 :=
  (List.range n).foldl (fun acc ky => c.afterRow xs ws oy ox ky acc c.kernel.width) .zero

/-- An output cell. -/
def cell (oy ox : Nat) : F32 := c.afterRows xs ws oy ox c.kernel.height

theorem afterRow_succ (oy ox ky : Nat) (acc : F32) (n : Nat) :
    c.afterRow xs ws oy ox ky acc (n + 1) =
      (c.afterRow xs ws oy ox ky acc n).add (c.product xs ws oy ox ky n) := by
  simp [afterRow, List.range_succ]

theorem afterRows_succ (oy ox n : Nat) : c.afterRows xs ws oy ox (n + 1) =
    c.afterRow xs ws oy ox n (c.afterRows xs ws oy ox n) c.kernel.width := by
  simp [afterRows, List.range_succ]

/-! ## Accepted shapes -/

variable {c xs ws}

theorem paddedExtent_eq_ok {dim : Dims → Nat} {n : Nat} (h : c.paddedExtent dim = .ok n) :
    dim c.input + 2 * dim c.padding = n := by
  simp only [paddedExtent, bind_eq_ok_iff, checkedU64_eq_ok_iff] at h
  obtain ⟨_, ⟨_, rfl⟩, _, h⟩ := h
  exact h

theorem outputExtent_eq_ok {dim : Dims → Nat} {n : Nat} (h : c.outputExtent dim = .ok n) :
    0 < dim c.kernel ∧ 0 < dim c.stride ∧ dim c.kernel ≤ dim c.input + 2 * dim c.padding ∧
      n = (dim c.input + 2 * dim c.padding - dim c.kernel) / dim c.stride + 1 := by
  simp only [outputExtent] at h
  split at h
  · cases h
  · obtain ⟨padded, hpadded, h⟩ := bind_eq_ok_iff.mp h
    cases paddedExtent_eq_ok hpadded
    split at h
    · cases h
    · obtain ⟨extent, hextent, h⟩ := bind_eq_ok_iff.mp h
      obtain ⟨-, rfl⟩ := checkedU64_eq_ok_iff.mp hextent
      split at h
      · have := Except.ok.inj h
        omega
      · cases h

/-- In one dimension the window stays inside the padded input. -/
theorem outputExtent_window {dim : Dims → Nat} {n : Nat} (h : c.outputExtent dim = .ok n)
    {o k : Nat} (ho : o < n) (hk : k < dim c.kernel) :
    o * dim c.stride + k < dim c.input + 2 * dim c.padding := by
  obtain ⟨_, _, hle, rfl⟩ := outputExtent_eq_ok h
  exact window_lt hle ho hk

theorem outputDims_eq_ok {out : Dims} (h : c.outputDims = .ok out) :
    c.outputExtent Dims.height = .ok out.height ∧ c.outputExtent Dims.width = .ok out.width := by
  simp only [outputDims, bind_eq_ok_iff] at h
  obtain ⟨height, hh, width, hw, h⟩ := h
  cases Except.ok.inj h
  exact ⟨hh, hw⟩

/-- A convolution that was accepted, with an input that is not empty and weights whose places are
32-bit numbers. -/
structure Fits (c : Conv2d) (out : Dims) : Prop where
  dims_eq : c.outputDims = .ok out
  height_lt : c.input.height + 2 * c.padding.height < 2 ^ 31
  width_lt : c.input.width + 2 * c.padding.width < 2 ^ 31
  input_lt : c.input.area < 2 ^ 31
  output_lt : out.area < 2 ^ 31
  input_pos : 0 < c.input.area
  kernel_le : c.kernel.area ≤ 2 ^ 31

/-- What an accepted convolution was checked for. -/
theorem plan_eq_ok {tt : TypeTable} {input weight output : TyId} {pl : Plan}
    (h : c.plan tt input weight output = .ok pl) : pl.shape = c ∧
      TensorOperand.classify tt "input" input = .ok pl.input ∧
      TensorOperand.classify tt "weight" weight = .ok pl.weight ∧
      TensorOperand.classify tt "output" output = .ok pl.output ∧
      (0 < c.input.area → c.kernel.area ≤ 2 ^ 31 → c.Fits pl.out) := by
  simp only [plan, bind_eq_ok_iff, checkedU64_eq_ok_iff] at h
  obtain ⟨i, hi, w, hw, o, ho, out, hout, _, _, _, _, _, _, _, _, _, _, _, _, height, hheight,
    width, hwidth, _, ⟨_, rfl⟩, _, ⟨_, rfl⟩, _, _, _, hfit₁, _, hfit₂, _, hfit₃, _, hfit₄, _, _,
    h⟩ := h
  cases Except.ok.inj h
  cases paddedExtent_eq_ok hheight
  cases paddedExtent_eq_ok hwidth
  exact ⟨rfl, hi, hw, ho, fun hpos hle => ⟨hout, fitsI32_eq_ok hfit₁, fitsI32_eq_ok hfit₂,
    fitsI32_eq_ok hfit₃, fitsI32_eq_ok hfit₄, hpos, hle⟩⟩

/-! ## The padding -/

/-- A coordinate is compared as a remainder by the range of 32-bit numbers, which is too large for
one before the input. -/
theorem emod_lt_iff {y p n : Nat} (hy : y < n + 2 * p) (hlt : n + 2 * p < 2 ^ 31) :
    ((y : Int) - p) % (2 ^ Scalar.i32.bits : Nat) < (n : Int) % (2 ^ Scalar.i32.bits : Nat) ↔
      p ≤ y ∧ y < p + n := by
  have hbits : ((2 ^ Scalar.i32.bits : Nat) : Int) = 4294967296 := rfl
  rw [hbits]
  omega

/-- The place that is loaded for a row and column of the padded input. -/
def place (c : Conv2d) (y x : Nat) : Nat := if c.Inside y x then c.index y x else 0

theorem index_lt {y x : Nat} (h : c.Inside y x) : c.index y x < c.input.area := by
  obtain ⟨hy, hx⟩ := h
  exact Dims.index_lt (by omega) (by omega)

theorem place_lt {y x : Nat} (h : 0 < c.input.area) : c.place y x < c.input.area := by
  unfold place
  split
  · exact index_lt ‹_›
  · exact h

theorem index_cast {y x : Nat} (h : c.Inside y x) :
    ((y : Int) - c.padding.height) * c.input.width + (x - c.padding.width) = c.index y x := by
  obtain ⟨hy, hx⟩ := h
  rw [index, Int.natCast_add, Int.natCast_mul, Int.ofNat_sub hy.1, Int.ofNat_sub hx.1]

/-- The two comparisons say whether the element is inside of the input. -/
theorem inside_eq {out : Dims} (hc : c.Fits out) {y x : Nat}
    (hy : y < c.input.height + 2 * c.padding.height)
    (hx : x < c.input.width + 2 * c.padding.width) :
    (decide (((y : Int) - c.padding.height) % (2 ^ Scalar.i32.bits : Nat) <
        (c.input.height : Int) % (2 ^ Scalar.i32.bits : Nat)) &&
      decide (((x : Int) - c.padding.width) % (2 ^ Scalar.i32.bits : Nat) <
        (c.input.width : Int) % (2 ^ Scalar.i32.bits : Nat))) = decide (c.Inside y x) := by
  simp only [emod_lt_iff hy hc.height_lt, emod_lt_iff hx hc.width_lt]
  exact (Bool.decide_and _ _).symm

/-- The index is that of the element, or 0. -/
theorem safe_eq {y x : Nat} :
    (if decide (c.Inside y x) then
      ((y : Int) - c.padding.height) * c.input.width + (x - c.padding.width) else 0) =
      c.place y x := by
  unfold place
  by_cases h : c.Inside y x
  · simp [h, index_cast h]
  · simp [h]

theorem padded_eq {y x : Nat} :
    (if decide (c.Inside y x) then xs.getD (c.place y x) .zero else .zero) = c.padded xs y x := by
  unfold place padded
  by_cases h : c.Inside y x
  · simp [h]
  · simp [h]

/-- Without padding every element is inside. -/
theorem inside_of_not_isPadded {y x : Nat} (h : ¬ c.isPadded = true)
    (hy : y < c.input.height + 2 * c.padding.height)
    (hx : x < c.input.width + 2 * c.padding.width) :
    c.Inside y x ∧ (c.index y x = y * c.input.width + x) := by
  have hpad : c.padding.height = 0 ∧ c.padding.width = 0 := by simpa [isPadded] using h
  refine ⟨⟨by omega, by omega⟩, ?_⟩
  rw [index, hpad.1, hpad.2, Nat.sub_zero, Nat.sub_zero]

section

variable {W : World} {Γ : Facts} {here : BlockId} {rs : Array Region} {k : Constants}
  {src iy ix : Operand} {pin : Pointer} {y x : Nat} {out : Dims}
  {Q : Operand → BlockId → Facts → Array Region → Prop}

/-- An element of the padded input is loaded. -/
theorem does_load [Γ.Has k.input.1 (.int .i32 c.input.height)]
    [Γ.Has k.input.2 (.int .i32 c.input.width)] [Γ.Has k.padding.1 (.int .i32 c.padding.height)]
    [Γ.Has k.padding.2 (.int .i32 c.padding.width)] [Γ.Has k.zero (.int .i32 0)]
    [Γ.Has k.zeroF (.f32 .zero)] [Γ.Has src (.ptr none pin)] [Γ.Has iy (.int .i32 y)]
    [Γ.Has ix (.int .i32 x)] (hc : c.Fits out) (hy : y < c.input.height + 2 * c.padding.height)
    (hx : x < c.input.width + 2 * c.padding.width)
    (hin : ∀ n < c.input.area, InBounds rs (pin.element n) 4 ∧
      cellAt rs (pin.element n) = xs.getD n .zero)
    (hok : ∀ {s : Site} {ρ : Values} {v : Operand}, W.Knows s ρ Γ →
      W.value ρ v = some (.int (Int64.ofNat (c.place y x))) → W.ok (W.value ρ) src v)
    (hQ : ∀ v, Q v here (.val v (.f32 (c.padded xs y x)) :: Γ) rs) :
    W.Does (if c.isPadded then loadPadded k here src iy ix else loadPlain k here src iy ix)
      here Γ rs Q := by
  have hplace : c.place y x < c.input.area := place_lt hc.input_pos
  have hlt := hc.input_lt
  obtain ⟨hinb, hcell⟩ := hin _ hplace
  have hbits : (2 ^ Scalar.i32.bits : Nat) = 2 ^ 32 := rfl
  refine .forget ?_
  split
  · refine .bind (.sub fun py => .bind (.sub fun px => .bind (.ult fun yIn => .bind (.ult fun xIn =>
      .bind (.and fun inside => .bind (.mul fun row => .bind (.add fun idx =>
        .bind (.selectInt fun safe => ?_))))))))
    rw [inside_eq hc hy hx, safe_eq]
    refine .bind (.gep (by omega) (by omega) (fun hρ => hok (fun e he => hρ e (by simp [he]))
      (hρ.value_nat safe (by omega))) fun ptr => .bind (.load hinb fun raw =>
        .selectF32 fun v => ⟨_, ?_, hQ v⟩))
    rw [hcell, padded_eq]
    exact List.cons_subset_cons _ fun e he => by simp [he]
  · rename_i hpad
    obtain ⟨hinside, hindex⟩ := inside_of_not_isPadded hpad hy hx
    have hplace' : (y : Int) * c.input.width + x = c.place y x := by
      rw [place, if_pos hinside, hindex, Int.natCast_add, Int.natCast_mul]
    refine .bind (.mul fun row => .bind (.add fun idx => ?_))
    rw [hplace']
    refine .bind (.gep (by omega) (by omega) (fun hρ => hok (fun e he => hρ e (by simp [he]))
      (hρ.value_nat idx (by omega))) fun ptr => .load hinb fun v => ⟨_, ?_, hQ v⟩)
    rw [hcell, ← padded_eq, if_pos (decide_eq_true hinside)]
    exact List.cons_subset_cons _ fun e he => by simp [he]

end

/-! ## Addresses -/

end Conv2d

/-- A phi with a name has a number for its value. -/
def Func.Counts (f : Func) (val : Operand → Option Datum) (name : String) (n : Nat) : Prop :=
  ∃ i, (f.op i).isPhi = true ∧ (f.inst i).name = some name ∧
    val (.inst i) = some (.int (Int64.ofNat n))

namespace Conv2d

/-- What a convolution addresses, with the values of its loop counters: a buffer and an index in
it. -/
inductive Addresses (c : Conv2d) (out : Dims) (f : Func) (val : Operand → Option Datum)
    (pin pw pout : Pointer) : Pointer → Nat → Prop where
  /-- A cell of the output. -/
  | output {oy ox : Nat} : f.Counts val "oy.iv" oy → f.Counts val "ox.iv" ox →
      oy < out.height → ox < out.width →
      Addresses c out f val pin pw pout pout (oy * out.width + ox)
  /-- A weight. -/
  | weight {ky kx : Nat} : f.Counts val "ky.iv" ky → f.Counts val "kx.iv" kx →
      ky < c.kernel.height → kx < c.kernel.width →
      Addresses c out f val pin pw pout pw (ky * c.kernel.width + kx)
  /-- An element of the input under the window. -/
  | inside {oy ox ky kx : Nat} : f.Counts val "oy.iv" oy → f.Counts val "ox.iv" ox →
      f.Counts val "ky.iv" ky → f.Counts val "kx.iv" kx →
      c.Inside (oy * c.stride.height + ky) (ox * c.stride.width + kx) →
      Addresses c out f val pin pw pout pin
        (c.index (oy * c.stride.height + ky) (ox * c.stride.width + kx))
  /-- Element 0 of the input, where the window is in the padding. -/
  | outside {oy ox ky kx : Nat} : f.Counts val "oy.iv" oy → f.Counts val "ox.iv" ox →
      f.Counts val "ky.iv" ky → f.Counts val "kx.iv" kx →
      ¬ c.Inside (oy * c.stride.height + ky) (ox * c.stride.width + kx) →
      Addresses c out f val pin pw pout pin 0

theorem Addresses.input {c : Conv2d} {out : Dims} {f : Func} {val : Operand → Option Datum}
    {pin pw pout : Pointer} {oy ox ky kx : Nat} (hoy : f.Counts val "oy.iv" oy)
    (hox : f.Counts val "ox.iv" ox) (hky : f.Counts val "ky.iv" ky)
    (hkx : f.Counts val "kx.iv" kx) :
    Addresses c out f val pin pw pout pin
      (c.place (oy * c.stride.height + ky) (ox * c.stride.width + kx)) := by
  unfold place
  split
  · exact .inside hoy hox hky hkx ‹_›
  · exact .outside hoy hox hky hkx ‹_›

/-- The base and the index of an address have the values of what is addressed. -/
def AddressOk (c : Conv2d) (out : Dims) (f : Func) (pin pw pout : Pointer)
    (val : Operand → Option Datum) (b x : Operand) : Prop :=
  ∃ q n, val b = some (.ptr q) ∧ val x = some (.int (Int64.ofNat n)) ∧
    c.Addresses out f val pin pw pout q n

end Conv2d

theorem World.Knows.counts {W : World} {s : Site} {ρ : Values} {Γ : Facts} (h : W.Knows s ρ Γ)
    (v : Operand) {sc : Scalar} {n : Nat} {name : String} [Γ.Has v (.int sc n)] [Γ.Named v name]
    (hn : n * 2 < 2 ^ sc.bits) : W.func.Counts (W.value ρ) name n := by
  have hvalue := h.value_nat v hn
  obtain ⟨i, rfl, hphi, hname⟩ := h.named v
  exact ⟨i, hphi, hname, hvalue⟩

namespace Conv2d

variable {c : Conv2d} {xs ws : List F32} {out : Dims}

/-- The extents of the loops are positive 32-bit numbers. -/
theorem Fits.extents (hc : c.Fits out) : (0 < out.height ∧ out.height < 2 ^ 31) ∧
    (0 < out.width ∧ out.width < 2 ^ 31) ∧ (0 < c.kernel.height ∧ c.kernel.height < 2 ^ 31) ∧
    0 < c.kernel.width ∧ c.kernel.width < 2 ^ 31 := by
  obtain ⟨hh, hw⟩ := outputDims_eq_ok hc.dims_eq
  obtain ⟨hkh, _, hkh_le, hoh⟩ := outputExtent_eq_ok hh
  obtain ⟨hkw, _, hkw_le, how⟩ := outputExtent_eq_ok hw
  have hoh_pos : 0 < out.height := hoh ▸ Nat.succ_pos _
  have how_pos : 0 < out.width := how ▸ Nat.succ_pos _
  have hheight := out.height_le_area how_pos
  have hwidth := out.width_le_area hoh_pos
  have := hc.output_lt
  have := hc.height_lt
  have := hc.width_lt
  omega

/-! ## The code -/

section

variable {W : World} {Γ : Facts} {here : BlockId} {rs : Array Region} {k : Constants}
  {src wts dst oy ox ky kx cell : Operand} {pin pw pout : Pointer} {y x i j : Nat}
  {Q : Unit → BlockId → Facts → Array Region → Prop}

/-- One product is added to an output cell. -/
theorem does_tap [Γ.Has k.input.1 (.int .i32 c.input.height)]
    [Γ.Has k.input.2 (.int .i32 c.input.width)] [Γ.Has k.padding.1 (.int .i32 c.padding.height)]
    [Γ.Has k.padding.2 (.int .i32 c.padding.width)] [Γ.Has k.stride.1 (.int .i32 c.stride.height)]
    [Γ.Has k.stride.2 (.int .i32 c.stride.width)] [Γ.Has k.kernel.2 (.int .i32 c.kernel.width)]
    [Γ.Has k.zero (.int .i32 0)] [Γ.Has k.zeroF (.f32 .zero)] [Γ.Has src (.ptr none pin)]
    [Γ.Has wts (.ptr none pw)] [Γ.Has dst (.ptr none pout)] [Γ.Has oy (.int .i32 y)]
    [Γ.Has ox (.int .i32 x)] [Γ.Has ky (.int .i32 i)] [Γ.Has kx (.int .i32 j)]
    [Γ.Has cell (.int .i32 (y * out.width + x : Nat))] [Γ.Named oy ("oy" ++ ".iv")]
    [Γ.Named ox ("ox" ++ ".iv")] [Γ.Named ky ("ky" ++ ".iv")] [Γ.Named kx ("kx" ++ ".iv")]
    (hW : W.ok = c.AddressOk out W.func pin pw pout) (hc : c.Fits out) (hy : y < out.height)
    (hx : x < out.width) (hi : i < c.kernel.height) (hj : j < c.kernel.width)
    (hin : ∀ n < c.input.area, InBounds rs (pin.element n) 4 ∧
      cellAt rs (pin.element n) = xs.getD n .zero)
    (hw : ∀ n < c.kernel.area, InBounds rs (pw.element n) 4 ∧
      cellAt rs (pw.element n) = ws.getD n .zero)
    (hout : InBounds rs (pout.element (y * out.width + x : Nat)) 4)
    (hQ : ∀ Γ, Q () here Γ (storeCell rs (pout.element (y * out.width + x : Nat))
      ((cellAt rs (pout.element (y * out.width + x : Nat))).add (c.product xs ws y x i j)))) :
    W.Does (tap k c.isPadded here src wts dst oy ox ky kx cell) here Γ rs Q := by
  obtain ⟨hh, hwd⟩ := outputDims_eq_ok hc.dims_eq
  obtain ⟨⟨_, hoh⟩, ⟨_, how⟩, ⟨_, hkh⟩, _, hkw⟩ := hc.extents
  have hbits : (2 ^ Scalar.i32.bits : Nat) = 2 ^ 32 := rfl
  have hcounts : ∀ {s : Site} {ρ : Values}, W.Knows s ρ Γ →
      (W.func.Counts (W.value ρ) "oy.iv" y ∧ W.func.Counts (W.value ρ) "ox.iv" x) ∧
      W.func.Counts (W.value ρ) "ky.iv" i ∧ W.func.Counts (W.value ρ) "kx.iv" j :=
    fun hρ => ⟨⟨hρ.counts oy (by omega), hρ.counts ox (by omega)⟩, hρ.counts ky (by omega),
      hρ.counts kx (by omega)⟩
  refine .bind (.mul fun oyS => .bind (.add fun iy => .bind (.mul fun oxS => .bind (.add fun ix =>
    .ite_bind ?_))))
  have hiy : (y : Int) * c.stride.height + i = (y * c.stride.height + i : Nat) := by simp
  have hix : (x : Int) * c.stride.width + j = (x * c.stride.width + j : Nat) := by simp
  rw [hiy, hix]
  refine does_load hc (outputExtent_window hh hy hi) (outputExtent_window hwd hx hj) hin
    (fun {s ρ v} hρ hv => ?_) fun v => .bind (.mul fun wRow => .bind (.add fun wIdx => ?_))
  · obtain ⟨⟨hoy, hox⟩, hky, hkx⟩ := hcounts fun e he => hρ e (by simp [he])
    rw [hW]
    exact ⟨pin, _, hρ.value_eq src, hv, .input hoy hox hky hkx⟩
  have hwi : (i : Int) * c.kernel.width + j = (i * c.kernel.width + j : Nat) := by simp
  have hwlt : i * c.kernel.width + j < c.kernel.area := Dims.index_lt hi hj
  have hclt : y * out.width + x < out.area := Dims.index_lt hy hx
  have := hc.kernel_le
  have := hc.output_lt
  obtain ⟨hwin, hweight⟩ := hw _ hwlt
  rw [hwi]
  refine .bind (.gep (by omega) (by omega) (fun hρ => ?_) fun wPtr => .bind (.load hwin fun w =>
    .bind (.fmul fun prod => .bind (.gep (by omega) (by omega) (fun hρ => ?_) fun accPtr =>
      .bind (.load hout fun acc => .bind (.fadd fun sum => .store hout ?_))))))
  · obtain ⟨_, hky, hkx⟩ := hcounts fun e he => hρ e (by simp [he])
    rw [hW]
    exact ⟨pw, _, hρ.value_eq wts, hρ.value_nat wIdx (by omega), .weight hky hkx hi hj⟩
  · obtain ⟨⟨hoy, hox⟩, _⟩ := hcounts fun e he => hρ e (by simp [he])
    rw [hW]
    exact ⟨pout, _, hρ.value_eq dst, hρ.value_nat cell (by omega), .output hoy hox hy hx⟩
  · rw [hweight]
    exact hQ _

end

/-- The constants have the values of the shape. -/
theorem does_constants {W : World} {Γ : Facts} {here : BlockId} {rs : Array Region} {pl : Plan}
    {Q : Constants → BlockId → Facts → Array Region → Prop}
    (hQ : ∀ k, Q k here (.val k.zeroF (.f32 .zero) ::
      .val k.out.2 (.int .i32 pl.out.width) :: .val k.out.1 (.int .i32 pl.out.height) ::
      .val k.padding.2 (.int .i32 pl.shape.padding.width) ::
      .val k.padding.1 (.int .i32 pl.shape.padding.height) ::
      .val k.stride.2 (.int .i32 pl.shape.stride.width) ::
      .val k.stride.1 (.int .i32 pl.shape.stride.height) ::
      .val k.kernel.2 (.int .i32 pl.shape.kernel.width) ::
      .val k.kernel.1 (.int .i32 pl.shape.kernel.height) ::
      .val k.input.2 (.int .i32 pl.shape.input.width) ::
      .val k.input.1 (.int .i32 pl.shape.input.height) :: .val k.zero (.int .i32 0) :: Γ) rs) :
    W.Does (constants pl) here Γ rs Q :=
  .bind (.int Scalar.isSigned_i32 (n := 0) (by decide) fun zero => .bind (.dims fun input =>
    .bind (.dims fun kernel => .bind (.dims fun stride => .bind (.dims fun padding =>
      .bind (.dims fun out => .bind (.f32 fun zeroF =>
        .pure (hQ ⟨zero, input, kernel, stride, padding, out, zeroF⟩))))))))

/-- The buffers of a convolution: the input, the weights and the output. -/
structure Buffers (c : Conv2d) (out : Dims) (xs ws : List F32) (pin pw pout : Pointer)
    (base : Array Region) : Prop where
  input_spans : pin.Spans c.input.area base
  input_eq : ∀ n < c.input.area, cellAt base (pin.element n) = xs.getD n .zero
  weight_spans : pw.Spans c.kernel.area base
  weight_eq : ∀ n < c.kernel.area, cellAt base (pw.element n) = ws.getD n .zero
  output_spans : pout.Spans out.area base
  input_ne : pin.region ≠ pout.region
  weight_ne : pw.region ≠ pout.region

namespace Buffers

variable {pin pw pout : Pointer} {base rs : Array Region} {ys : List F32}
  (h : Buffers c out xs ws pin pw pout base)
include h

theorem cellAt_input (hw : Written base rs [(pout, ys)]) {n : Nat} (hn : n < c.input.area) :
    InBounds rs (pin.element n) 4 ∧ cellAt rs (pin.element n) = xs.getD n .zero := by
  have hin := h.input_spans.inBounds_element hn
  refine ⟨hw.extents.inBounds.mp hin, ?_⟩
  rw [hw.cellAt_base hin (by simpa using Ne.symm h.input_ne), h.input_eq n hn]

theorem cellAt_weight (hw : Written base rs [(pout, ys)]) {n : Nat} (hn : n < c.kernel.area) :
    InBounds rs (pw.element n) 4 ∧ cellAt rs (pw.element n) = ws.getD n .zero := by
  have hin := h.weight_spans.inBounds_element hn
  refine ⟨hw.extents.inBounds.mp hin, ?_⟩
  rw [hw.cellAt_base hin (by simpa using Ne.symm h.weight_ne), h.weight_eq n hn]

theorem inBounds_output (hw : Written base rs [(pout, ys)]) {n : Nat} (hn : n < out.area) :
    InBounds rs (pout.element n) 4 := (h.output_spans.sameExtents hw.extents).inBounds_element hn

/-- The cell after the first ones gets a number. -/
theorem store {cell : Nat → Nat → F32} {n : Nat} (hw : Written base rs [(pout, ys)])
    (hys : out.cells cell n <+: ys) (hlen : ys.length ≤ n + 1) (hlt : n < out.area) (v : F32) :
    Written base (storeCell rs (pout.element n) v) [(pout, out.cells cell n ++ [v])] := by
  have hn : (out.cells cell n).length = n := Dims.length_cells n
  have := hw.store hys (hn.symm ▸ hlen) (h.output_spans.mono (hn.symm ▸ hlt)) (by simp) v
  rwa [hn] at this

end Buffers

/-- The code fills the output buffer with the cells, and addresses what it should. -/
theorem makes_code {W : World} {pl : Plan} {pin pw pout : Pointer} {base : Array Region}
    (hW : W.ok = pl.shape.AddressOk pl.out W.func pin pw pout) (hc : pl.shape.Fits pl.out)
    (hb : Buffers pl.shape pl.out xs ws pin pw pout base) :
    W.Makes (code pl) [.val (.param 0) (.ptr pl.input.length pin),
      .val (.param 1) (.ptr pl.weight.length pw), .val (.param 2) (.ptr pl.output.length pout)]
      base fun rs => Written base rs
        [(pout, pl.out.cells (pl.shape.cell xs ws) pl.out.area)] := by
  obtain ⟨⟨hoh, hoh_lt⟩, ⟨how, how_lt⟩, ⟨hkh, hkh_lt⟩, hkw, hkw_lt⟩ := hc.extents
  have hbits : 2 ^ Scalar.i32.bits = 2 ^ 32 := rfl
  refine .block fun entry => .bind (.elements fun src => .bind (.elements fun wts =>
    .bind (.elements fun dst => .bind (does_constants fun k => ?_))))
  refine .bind (.loop (I := fun oy rs => Written base rs
      [(pout, pl.out.cells (pl.shape.cell xs ws) (oy * pl.out.width))])
    hoh (by omega) ?_ (fun oy hoy rs₁ hw₁ here₁ v₁ => ?_) fun l rs₁ hw₁ => .ret hw₁)
  · rw [Nat.zero_mul]
    have hspans : ∀ p ∈ [pout], p.Spans 0 base := by
      simpa using hb.output_spans.mono (Nat.zero_le _)
    exact .refl hspans
  · refine .bind (.loop (I := fun ox rs => Written base rs
        [(pout, pl.out.cells (pl.shape.cell xs ws) (oy * pl.out.width + ox))])
      how (by omega) hw₁ (fun ox hox rs₂ hw₂ here₂ v₂ => ?_)
      fun l rs₂ hw₂ => .pure ⟨rfl, Nat.succ_mul oy _ ▸ hw₂⟩)
    have hlt : oy * pl.out.width + ox < pl.out.area := Dims.index_lt hoy hox
    have harea := hc.output_lt
    have hcell : (oy : Int) * pl.out.width + ox = (oy * pl.out.width + ox : Nat) := by simp
    refine .bind (.mul fun row => .bind (.add fun cell => ?_))
    rw [hcell]
    refine .bind (.gep (by omega) (by omega) (fun hρ => ?_) fun outPtr =>
      .bind (.store (hb.inBounds_output hw₂ hlt) (.bind (.loop (I := fun ky rs => Written base rs
          [(pout, pl.out.cells (pl.shape.cell xs ws) (oy * pl.out.width + ox) ++
            [pl.shape.afterRows xs ws oy ox ky])])
        hkh (by omega) ?_ (fun ky hky rs₃ hw₃ here₃ v₃ => ?_) fun l rs₃ hw₃ => .pure ⟨rfl, ?_⟩))))
    · rw [hW]
      exact ⟨pout, _, hρ.value_eq dst, hρ.value_nat cell (by omega),
        .output (hρ.counts v₁ (by omega)) (hρ.counts v₂ (by omega)) hoy hox⟩
    · exact hb.store hw₂ (List.prefix_refl _) (by simp) hlt .zero
    · refine .bind (.loop (I := fun kx rs => Written base rs
          [(pout, pl.out.cells (pl.shape.cell xs ws) (oy * pl.out.width + ox) ++
            [pl.shape.afterRow xs ws oy ox ky (pl.shape.afterRows xs ws oy ox ky) kx])])
        hkw (by omega) hw₃ (fun kx hkx rs₄ hw₄ here₄ v₄ => ?_)
        fun l rs₄ hw₄ => .pure ⟨rfl, (afterRows_succ ..).symm ▸ hw₄⟩)
      refine .bind (does_tap hW hc hoy hox hky hkx (fun n hn => hb.cellAt_input hw₄ hn)
        (fun n hn => hb.cellAt_weight hw₄ hn) (hb.inBounds_output hw₄ hlt) fun Γ => .pure ⟨rfl, ?_⟩)
      have hacc : cellAt rs₄ (pout.element (oy * pl.out.width + ox : Nat)) =
          pl.shape.afterRow xs ws oy ox ky (pl.shape.afterRows xs ws oy ox ky) kx :=
        hw₄.cell_eq _ List.mem_cons_self _ _ (by simp)
      rw [hacc, ← afterRow_succ]
      exact hb.store hw₄ (List.prefix_append _ _) (by simp) hlt _
    · rw [Dims.cells_succ hox]
      exact hw₃

end Conv2d

/-! ## Runs -/

namespace Kernel

variable {p : Program} {input weight output : TyId} {c : Conv2d} {out : Dims} {id : FuncId}
  {m : Memory} {pin pw pout : Pointer} {xs ws old : List F32}

/-- A call goes from the entry to a return, through addresses of the convolution. -/
theorem exists_passes_conv2d (hid : (conv2d p input weight output c).result = .ok id)
    (hdims : c.outputDims = .ok out) (hpos : 0 < c.input.area) (hle : c.kernel.area ≤ 2 ^ 31)
    (hm : m.Addressable) (hin : m.readF32 pin c.input.area = .ok xs)
    (hw : m.readF32 pw c.kernel.area = .ok ws) (hout : m.readF32 pout out.area = .ok old)
    (hne : pin.region ≠ pout.region) (hne' : pw.region ≠ pout.region) :
    ∃ f, (conv2d p input weight output c).program.func? id = some f ∧
      f.params.size = [Datum.ptr pin, .ptr pw, .ptr pout].length ∧ f.entry? = some 0 ∧
      f.phis 0 = [] ∧
      ∃ P, World.Goes ⟨(conv2d p input weight output c).program.types, f,
          [.ptr pin, .ptr pw, .ptr pout], c.AddressOk out f pin pw pout⟩ (f.start 0 m.regions) P ∧
        P.Returns f ∧ Written m.regions P.regions [(pout, out.cells (c.cell xs ws) out.area)] := by
  unfold conv2d at hid ⊢
  cases hpl : c.plan p.types input weight output with
  | error e =>
    rw [hpl] at hid
    cases hid
  | ok pl =>
    rw [hpl] at hid
    dsimp only at hid ⊢
    obtain ⟨rfl, hcl, hcl', hcl'', hfits⟩ := Conv2d.plan_eq_ok hpl
    have hc := hfits hpos hle
    cases hdims.symm.trans hc.dims_eq
    obtain ⟨hspan, hcells⟩ := Memory.cells_of_readF32 (hm _) hin
    obtain ⟨hspan', hcells'⟩ := Memory.cells_of_readF32 (hm _) hw
    obtain ⟨hspan'', _⟩ := Memory.cells_of_readF32 (hm _) hout
    have hb : Conv2d.Buffers pl.shape pl.out xs ws pin pw pout m.regions :=
      ⟨hspan, hcells, hspan', hcells', hspan'', hne, hne'⟩
    exact passes_of_generate [.ptr pin, .ptr pw, .ptr pout]
      (fun f => pl.shape.AddressOk pl.out f pin pw pout) hid
      (fun _ => Conv2d.makes_code rfl hc hb)
      fun _ => .cons (holds_param hcl rfl rfl) (.cons (holds_param hcl' rfl rfl)
        (.cons (holds_param hcl'' rfl rfl) fun _ h => by cases h))

/-- A generated convolution succeeds, leaves the sums of the products in the output buffer and
changes nothing else. -/
theorem conv2d_fills (hid : (conv2d p input weight output c).result = .ok id)
    (hdims : c.outputDims = .ok out) (hpos : 1 ≤ c.input.area) (hlt : c.kernel.area < 2 ^ 31)
    (hm : m.Addressable) (hin : m.readF32 pin c.input.area = .ok xs)
    (hw : m.readF32 pw c.kernel.area = .ok ws) (hout : m.readF32 pout out.area = .ok old)
    (hne : pin.region ≠ pout.region) (hne' : pw.region ≠ pout.region) :
    ∃ f, (conv2d p input weight output c).program.func? id = some f ∧ ∃ n, ∀ limit, n ≤ limit →
      ((conv2d p input weight output c).program.run f [.ptr pin, .ptr pw, .ptr pout] m limit).Fills
        m pout out (c.cell xs ws) ∧
      ((conv2d p input weight output c).program.run f [.ptr pin, .ptr pw, .ptr pout] m
        limit).memory.regions.size = m.regions.size := by
  obtain ⟨f, hf, hparams, hentry, hphis, P, hgo, hret, hwritten⟩ :=
    exists_passes_conv2d hid hdims hpos (Nat.le_of_lt hlt) hm hin hw hout hne hne'
  obtain ⟨n, hn⟩ := Program.run_of_passes hentry hparams hphis hgo hret
  refine ⟨f, hf, n, fun limit hlimit => ?_⟩
  obtain ⟨hresult, hregions⟩ := hn limit hlimit
  rw [← hregions] at hwritten
  exact ⟨Halt.fills_of_written hresult hwritten (by simp) fun _ _ => rfl, hwritten.extents.1.symm⟩

/-- Windows over a row of padding and a row of the input. -/
def paddedRows : Conv2d := ⟨⟨2, 2⟩, ⟨2, 1⟩, ⟨2, 1⟩, ⟨1, 0⟩⟩

/-- The input is the numbers 1, 2, -3 and a NaN, and the weights are 0.5 and -1. -/
def paddedMemory : Memory :=
  buffers [[⟨0x3f800000⟩, ⟨0x40000000⟩, ⟨0xc0400000⟩, .canonicalNaN],
    [⟨0x3f000000⟩, ⟨0xbf800000⟩], List.replicate 4 .zero]

theorem conv2d_fills_padded :
    (conv2d pointers 1 1 1 paddedRows).result = .ok 0 ∧ paddedRows.outputDims = .ok ⟨2, 2⟩ ∧
    ∃ f xs ws, (conv2d pointers 1 1 1 paddedRows).program.func? 0 = some f ∧
      paddedMemory.readF32 ⟨0, 0⟩ 4 = .ok xs ∧ paddedMemory.readF32 ⟨1, 0⟩ 2 = .ok ws ∧
      ∃ n, ∀ limit, n ≤ limit →
        ((conv2d pointers 1 1 1 paddedRows).program.run f
          [.ptr ⟨0, 0⟩, .ptr ⟨1, 0⟩, .ptr ⟨2, 0⟩] paddedMemory limit).Fills paddedMemory ⟨2, 0⟩
            ⟨2, 2⟩ (paddedRows.cell xs ws) ∧
        ((conv2d pointers 1 1 1 paddedRows).program.run f
          [.ptr ⟨0, 0⟩, .ptr ⟨1, 0⟩, .ptr ⟨2, 0⟩] paddedMemory limit).memory.regions.size = 3 := by
  have hid : (conv2d pointers 1 1 1 paddedRows).result = .ok 0 := by decide +kernel
  have hdims : paddedRows.outputDims = .ok ⟨2, 2⟩ := rfl
  have hin : paddedMemory.readF32 ⟨0, 0⟩ 4 =
      .ok [⟨0x3f800000⟩, ⟨0x40000000⟩, ⟨0xc0400000⟩, .canonicalNaN] := rfl
  have hw : paddedMemory.readF32 ⟨1, 0⟩ 2 = .ok [⟨0x3f000000⟩, ⟨0xbf800000⟩] := rfl
  have hout : paddedMemory.readF32 ⟨2, 0⟩ 4 = .ok (List.replicate 4 .zero) := rfl
  obtain ⟨f, hf, hfills⟩ := conv2d_fills hid hdims (by decide) (by decide) (by decide) hin hw
    hout (by decide) (by decide)
  exact ⟨hid, hdims, f, _, _, hf, hin, hw, hfills⟩

/-- A generated convolution of an input that is not empty, with at most `2 ^ 31` weights, never
fails but for the limit, and all its addresses are those of the convolution. -/
theorem conv2d_addresses (hid : (conv2d p input weight output c).result = .ok id)
    (hdims : c.outputDims = .ok out) (hpos : 0 < c.input.area) (hle : c.kernel.area ≤ 2 ^ 31)
    (hm : m.Addressable) (hin : m.readF32 pin c.input.area = .ok xs)
    (hw : m.readF32 pw c.kernel.area = .ok ws) (hout : m.readF32 pout out.area = .ok old)
    (hne : pin.region ≠ pout.region) (hne' : pw.region ≠ pout.region) :
    ∃ f, (conv2d p input weight output c).program.func? id = some f ∧ ∀ limit,
      (((conv2d p input weight output c).program.run f [.ptr pin, .ptr pw, .ptr pout] m
          limit).result = .ok .void ∨
        ((conv2d p input weight output c).program.run f [.ptr pin, .ptr pw, .ptr pout] m
          limit).result = .error (.stepLimit limit)) ∧
      ∀ s, Machine.Visits (conv2d p input weight output c).program limit f
          [.ptr pin, .ptr pw, .ptr pout] m s →
        ∀ i is b x, s.frame.rest = i :: is → s.frame.func.op i = .gep b x →
          c.AddressOk out f pin pw pout
            (s.frame.value (conv2d p input weight output c).program.types) b x := by
  obtain ⟨f, hf, hparams, hentry, hphis, P, hgo, hret, _⟩ :=
    exists_passes_conv2d hid hdims hpos hle hm hin hw hout hne hne'
  refine ⟨f, hf, fun limit => ⟨Program.result_of_passes hentry hparams hphis hgo hret limit,
    fun s hs i is b x hrest hop => ?_⟩⟩
  rcases Program.at_of_visits hentry hparams hphis hgo hret hs with ⟨R, _, hat, hok, _⟩ | hat
  · rw [hat.frame.func_eq] at hop
    rw [hat.frame.value_eq]
    exact hok i is b x (hat.frame.rest_eq.symm.trans hrest) hop
  · obtain ⟨j, js, hrest', hret'⟩ := hret
    cases (hat.frame.rest_eq.trans hrest').symm.trans hrest
    rw [hat.frame.func_eq, hret'] at hop
    cases hop

theorem conv2d_addresses_padded :
    (conv2d pointers 1 1 1 paddedRows).result = .ok 0 ∧ paddedRows.outputDims = .ok ⟨2, 2⟩ ∧
    ∃ f, (conv2d pointers 1 1 1 paddedRows).program.func? 0 = some f ∧ ∀ limit,
      (((conv2d pointers 1 1 1 paddedRows).program.run f
          [.ptr ⟨0, 0⟩, .ptr ⟨1, 0⟩, .ptr ⟨2, 0⟩] paddedMemory limit).result = .ok .void ∨
        ((conv2d pointers 1 1 1 paddedRows).program.run f
          [.ptr ⟨0, 0⟩, .ptr ⟨1, 0⟩, .ptr ⟨2, 0⟩] paddedMemory limit).result =
            .error (.stepLimit limit)) ∧
      ∀ s, Machine.Visits (conv2d pointers 1 1 1 paddedRows).program limit f
          [.ptr ⟨0, 0⟩, .ptr ⟨1, 0⟩, .ptr ⟨2, 0⟩] paddedMemory s →
        ∀ i is b x, s.frame.rest = i :: is → s.frame.func.op i = .gep b x →
          paddedRows.AddressOk ⟨2, 2⟩ f ⟨0, 0⟩ ⟨1, 0⟩ ⟨2, 0⟩
            (s.frame.value (conv2d pointers 1 1 1 paddedRows).program.types) b x := by
  have hid : (conv2d pointers 1 1 1 paddedRows).result = .ok 0 := by decide +kernel
  have hdims : paddedRows.outputDims = .ok ⟨2, 2⟩ := rfl
  have hin : paddedMemory.readF32 ⟨0, 0⟩ 4 =
      .ok [⟨0x3f800000⟩, ⟨0x40000000⟩, ⟨0xc0400000⟩, .canonicalNaN] := rfl
  have hw : paddedMemory.readF32 ⟨1, 0⟩ 2 = .ok [⟨0x3f000000⟩, ⟨0xbf800000⟩] := rfl
  have hout : paddedMemory.readF32 ⟨2, 0⟩ 4 = .ok (List.replicate 4 .zero) := rfl
  exact ⟨hid, hdims, conv2d_addresses hid hdims (by decide) (by decide) (by decide) hin hw hout
    (by decide) (by decide)⟩

/-- An input without rows, between two rows of padding. -/
def noRows : Conv2d := ⟨⟨0, 1⟩, ⟨1, 1⟩, ⟨1, 1⟩, ⟨1, 1⟩⟩

/-- No element, one weight and six cells. -/
def noRowsMemory : Memory := buffers [[], [.zero], List.replicate 6 .zero]

/-- The padding makes an empty input acceptable.  The first window is in the padding, so element 0
is loaded, and there is none. -/
theorem conv2d_noRows :
    (conv2d pointers 1 1 1 noRows).result = .ok 0 ∧ noRows.outputDims = .ok ⟨2, 3⟩ ∧
    ∃ f offset, (conv2d pointers 1 1 1 noRows).program.func? 0 = some f ∧
      ((conv2d pointers 1 1 1 noRows).program.run f [.ptr ⟨0, 0⟩, .ptr ⟨1, 0⟩, .ptr ⟨2, 0⟩]
        noRowsMemory 100).result = .error (.outOfBounds 0 offset 4 0) := by
  have hrun : ((conv2d pointers 1 1 1 noRows).program.func? 0).any fun f =>
      ((conv2d pointers 1 1 1 noRows).program.run f [.ptr ⟨0, 0⟩, .ptr ⟨1, 0⟩, .ptr ⟨2, 0⟩]
        noRowsMemory 100).result matches .error (.outOfBounds 0 _ 4 0) := by decide +kernel
  obtain ⟨f, hf, hresult⟩ := (Option.any_eq_true _ _).mp hrun
  refine ⟨by decide +kernel, rfl, f, ?_⟩
  split at hresult
  · rename_i offset h
    exact ⟨offset, hf, h⟩
  · cases hresult

end Kernel

end LoopNest
