import LoopNest.Proofs.Kernel.Conv2d

/-!
# The arithmetic of the checks

The checks of a convolution compute in 64-bit numbers, from dimensions of 32 bits.  The sums and the
products of two dimensions fit.  The row span is a product of three, and it is computed before
the sizes it depends on are compared with their limits.  It is the only one that can leave 64 bits
(`Kernel.conv2d_overflows_iff`), and it does for parameters that the comparisons are there to
refuse (`Conv2d.span_lt`).
-/

namespace LoopNest

/-- A computation in two parts fails when one of them does. -/
theorem bind_eq_error_iff {ε α β : Type} {x : Except ε α} {k : α → Except ε β} {e : ε} :
    (x >>= k) = .error e ↔ x = .error e ∨ ∃ a, x = .ok a ∧ k a = .error e := by
  cases x with
  | ok a =>
    constructor
    · exact fun h => .inr ⟨a, rfl, h⟩
    · rintro (h | ⟨_, ha, h⟩)
      · cases h
      · cases ha
        exact h
  | error e' =>
    constructor
    · exact fun h => .inl (congrArg Except.error (Except.error.inj h))
    · rintro (h | ⟨_, ha, _⟩)
      · exact congrArg Except.error (Except.error.inj h)
      · cases ha

/-- Dimensions of 32 bits. -/
structure Dims.IsU32 (d : Dims) : Prop where
  height_lt : d.height < 2 ^ 32
  width_lt : d.width < 2 ^ 32

theorem Dims.IsU32.area_lt {d : Dims} (h : d.IsU32) : d.area < 2 ^ 64 :=
  calc d.height * d.width
    _ ≤ 2 ^ 32 * d.width := Nat.mul_le_mul_right _ (Nat.le_of_lt h.height_lt)
    _ < 2 ^ 32 * 2 ^ 32 := Nat.mul_lt_mul_of_pos_left h.width_lt (by decide)

/-! ## Checks without sums -/

theorem checkedU64_of_lt {value : Nat} (h : value < 2 ^ 64) : checkedU64 value = .ok value :=
  if_pos h

theorem checkedU64_eq_overflow_iff {value : Nat} :
    checkedU64 value = .error .overflow ↔ 2 ^ 64 ≤ value := by
  unfold checkedU64
  split <;> simp_all

theorem fitsI32_ne_overflow (what : String) (value : Nat) :
    fitsI32 what value ≠ .error .overflow := by
  unfold fitsI32
  split <;> simp

namespace TensorOperand

theorem classify_ne_overflow (tt : TypeTable) (name : String) (ty : TyId) :
    classify tt name ty ≠ .error .overflow := by
  unfold classify
  repeat' split
  all_goals simp

theorem require_ne_overflow (o : TensorOperand) (needed : Nat) :
    o.require needed ≠ .error .overflow := by
  unfold require
  repeat' split
  all_goals simp

end TensorOperand

namespace Conv2d

variable {c : Conv2d} {out : Dims} {tt : TypeTable} {input weight output : TyId}

/-! ## Sums and products of two -/

/-- Parameters of 32 bits. -/
structure IsU32 (c : Conv2d) : Prop where
  input : c.input.IsU32
  kernel : c.kernel.IsU32
  stride : c.stride.IsU32
  padding : c.padding.IsU32

theorem paddedExtent_of_lt {dim : Dims → Nat} (hi : dim c.input < 2 ^ 32)
    (hp : dim c.padding < 2 ^ 32) : c.paddedExtent dim = .ok (dim c.input + 2 * dim c.padding) := by
  unfold paddedExtent
  rw [checkedU64_of_lt (by omega)]
  exact checkedU64_of_lt (by omega)

theorem outputExtent_ne_overflow {dim : Dims → Nat} (hi : dim c.input < 2 ^ 32)
    (hp : dim c.padding < 2 ^ 32) : c.outputExtent dim ≠ .error .overflow := by
  unfold outputExtent
  rw [paddedExtent_of_lt hi hp]
  have hle : (dim c.input + 2 * dim c.padding - dim c.kernel) / dim c.stride ≤
      dim c.input + 2 * dim c.padding - dim c.kernel := Nat.div_le_self _ _
  dsimp only [bind, Except.bind]
  split
  · simp
  · split
    · simp
    · rw [checkedU64_of_lt (by omega)]
      dsimp only
      split <;> simp

theorem outputExtent_lt {dim : Dims → Nat} {n : Nat} (h : c.outputExtent dim = .ok n) :
    n < 2 ^ 32 := by
  simp only [outputExtent] at h
  split at h
  · cases h
  · obtain ⟨_, _, h⟩ := bind_eq_ok_iff.mp h
    split at h
    · cases h
    · obtain ⟨_, _, h⟩ := bind_eq_ok_iff.mp h
      split at h
      · cases Except.ok.inj h
        assumption
      · cases h

theorem outputDims_ne_overflow (hc : c.IsU32) : c.outputDims ≠ .error .overflow := by
  intro h
  unfold outputDims at h
  rcases bind_eq_error_iff.mp h with h | ⟨height, _, h⟩
  · exact outputExtent_ne_overflow hc.input.height_lt hc.padding.height_lt h
  · rcases bind_eq_error_iff.mp h with h | ⟨width, _, h⟩
    · exact outputExtent_ne_overflow hc.input.width_lt hc.padding.width_lt h
    · cases h

theorem isU32_of_outputDims (h : c.outputDims = .ok out) : out.IsU32 :=
  have ⟨hh, hw⟩ := outputDims_eq_ok h
  ⟨outputExtent_lt hh, outputExtent_lt hw⟩

/-! ## The row span -/

/-- The row span, as a number without a bound. -/
def span (c : Conv2d) (out : Dims) : Nat :=
  (out.height * c.stride.height + c.kernel.height) * max c.input.width 1

/-- Only the last of its three steps can leave 64 bits. -/
theorem rowSpan_eq (hc : c.IsU32) (hout : out.IsU32) : c.rowSpan out = checkedU64 (c.span out) := by
  have hmul : out.height * c.stride.height ≤ (2 ^ 32 - 1) * (2 ^ 32 - 1) :=
    Nat.mul_le_mul (Nat.le_pred_of_lt hout.height_lt) (Nat.le_pred_of_lt hc.stride.height_lt)
  have hkernel := hc.kernel.height_lt
  unfold rowSpan
  rw [checkedU64_of_lt (by omega)]
  dsimp only [bind, Except.bind]
  rw [checkedU64_of_lt (by omega)]
  rfl

/-- The windows reach at most one stride below the padded input.  The span therefore fits for all
inputs whose own sizes are accepted. -/
theorem span_lt (hdims : c.outputDims = .ok out) (hstride : c.stride.height < 2 ^ 32)
    (hheight : c.input.height + 2 * c.padding.height < 2 ^ 31) (hwidth : c.input.width < 2 ^ 31) :
    c.span out < 2 ^ 64 := by
  obtain ⟨_, _, hle, hrows⟩ := outputExtent_eq_ok (outputDims_eq_ok hdims).1
  have hdiv : (out.height - 1) * c.stride.height ≤
      c.input.height + 2 * c.padding.height - c.kernel.height := by
    rw [hrows, Nat.add_sub_cancel]
    exact Nat.div_mul_le_self _ _
  have hpos : 0 < out.height := hrows ▸ Nat.succ_pos _
  have hrow : out.height * c.stride.height =
      (out.height - 1) * c.stride.height + c.stride.height := by
    rw [← Nat.succ_mul]
    exact congrArg (· * _) (Nat.succ_pred_eq_of_pos hpos).symm
  calc (out.height * c.stride.height + c.kernel.height) * max c.input.width 1
    _ ≤ (2 ^ 31 + 2 ^ 32) * 2 ^ 31 := Nat.mul_le_mul (by omega) (by omega)
    _ < 2 ^ 64 := by decide

/-! ## All checks -/

/-- What is checked before the row span is computed: the operands, and the room in them. -/
structure Admits (c : Conv2d) (tt : TypeTable) (input weight output : TyId) (out : Dims) :
    Prop where
  dims_eq : c.outputDims = .ok out
  input : ∃ o, TensorOperand.classify tt "input" input = .ok o ∧ o.require c.input.area = .ok ()
  weight : ∃ o, TensorOperand.classify tt "weight" weight = .ok o ∧
    o.require c.kernel.area = .ok ()
  output : ∃ o, TensorOperand.classify tt "output" output = .ok o ∧ o.require out.area = .ok ()

/-- What is left after these checks fails with an overflow exactly when the row span does. -/
theorem Admits.plan_eq_overflow_iff (hc : c.IsU32) (h : c.Admits tt input weight output out) :
    c.plan tt input weight output = .error .overflow ↔ 2 ^ 64 ≤ c.span out := by
  obtain ⟨i, hi, hri⟩ := h.input
  obtain ⟨w, hw, hrw⟩ := h.weight
  obtain ⟨o, ho, hro⟩ := h.output
  have hout := isU32_of_outputDims h.dims_eq
  simp [plan, hi, hw, ho, h.dims_eq, hri, hrw, hro, checkedU64_of_lt hc.input.area_lt,
    checkedU64_of_lt hc.kernel.area_lt, checkedU64_of_lt hout.area_lt,
    paddedExtent_of_lt hc.input.height_lt hc.padding.height_lt,
    paddedExtent_of_lt hc.input.width_lt hc.padding.width_lt, rowSpan_eq hc hout,
    bind_eq_error_iff, checkedU64_eq_overflow_iff, fitsI32_ne_overflow, pure, Except.pure]
  exact fun harea => absurd harea (Nat.not_le.mpr hout.area_lt)

/-- The sums and products before the row span fit, so that only after these checks one is left. -/
theorem exists_admits_of_overflow (hc : c.IsU32)
    (h : c.plan tt input weight output = .error .overflow) :
    ∃ out, c.Admits tt input weight output out := by
  simp only [plan, bind_eq_error_iff, TensorOperand.classify_ne_overflow,
    TensorOperand.require_ne_overflow, outputDims_ne_overflow hc,
    checkedU64_of_lt hc.input.area_lt, checkedU64_of_lt hc.kernel.area_lt, Except.ok.injEq,
    reduceCtorEq, false_or, exists_eq_left'] at h
  obtain ⟨i, hi, w, hw, o, ho, out, hdims, _, hri, _, hrw, h⟩ := h
  rw [checkedU64_of_lt (isU32_of_outputDims hdims).area_lt] at h
  simp only [reduceCtorEq, Except.ok.injEq, false_or, exists_eq_left'] at h
  obtain ⟨_, hro, _⟩ := h
  exact ⟨out, hdims, ⟨i, hi, hri⟩, ⟨w, hw, hrw⟩, ⟨o, ho, hro⟩⟩

end Conv2d

/-! ## Generation -/

namespace Kernel

variable {p : Program} {input weight output : TyId} {c : Conv2d}

theorem generate_ne_overflow (p : Program) (name : String) (operands : List TensorOperand)
    (code : Build Unit) (report : Func → String) :
    (generate p name operands code report).result ≠ .error .overflow := by
  unfold generate
  dsimp only
  split <;> simp

theorem conv2d_eq_overflow_iff : (conv2d p input weight output c).result = .error .overflow ↔
    c.plan p.types input weight output = .error .overflow := by
  unfold conv2d
  cases c.plan p.types input weight output with
  | error e => simp [refuse]
  | ok pl => simp [generate_ne_overflow]

/-- Of all sums and products that the checks compute, from parameters of 32 bits, only the row span
can leave 64 bits.  Computing the shape of the output never does. -/
theorem conv2d_overflows_iff (hc : c.IsU32) : c.outputDims ≠ .error .overflow ∧
    ((conv2d p input weight output c).result = .error .overflow ↔
      ∃ out, c.Admits p.types input weight output out ∧ 2 ^ 64 ≤ c.span out) := by
  refine ⟨Conv2d.outputDims_ne_overflow hc, ?_⟩
  rw [conv2d_eq_overflow_iff]
  constructor
  · intro h
    obtain ⟨out, hout⟩ := Conv2d.exists_admits_of_overflow hc h
    exact ⟨out, hout, (hout.plan_eq_overflow_iff hc).mp h⟩
  · rintro ⟨out, hout, hspan⟩
    exact (hout.plan_eq_overflow_iff hc).mpr hspan

theorem conv2d_overflows_iff_padded :
    paddedRows.IsU32 ∧ paddedRows.outputDims ≠ .error .overflow ∧
      (conv2d pointers 1 1 1 paddedRows).result ≠ .error .overflow := by
  have hc : paddedRows.IsU32 := by constructor <;> constructor <;> decide
  obtain ⟨hdims, hiff⟩ : _ ∧ ((conv2d pointers 1 1 1 paddedRows).result = .error .overflow ↔ _) :=
    conv2d_overflows_iff hc
  refine ⟨hc, hdims, fun h => ?_⟩
  obtain ⟨out, hout, hspan⟩ := hiff.mp h
  cases hout.dims_eq.symm.trans (show paddedRows.outputDims = .ok ⟨2, 2⟩ from rfl)
  exact absurd hspan (by decide)

/-- A row as wide, and a stride as long, as numbers of 32 bits can be. -/
def longStride : Conv2d :=
  ⟨⟨4294967295, 4294967295⟩, ⟨1, 1⟩, ⟨4294967294, 1⟩, ⟨0, 0⟩⟩

/-- The two windows of a column reach down to `2 * 4294967294 + 1` rows, and the number of elements
in these rows does not fit. -/
theorem conv2d_longStride : longStride.IsU32 ∧ longStride.outputDims = .ok ⟨2, 4294967295⟩ ∧
    (conv2d pointers 1 1 1 longStride).result = .error .overflow := by
  refine ⟨by constructor <;> constructor <;> decide, by decide +kernel, by decide +kernel⟩

/-- An input whose own sizes are accepted never leads to an overflow. -/
theorem conv2d_ne_overflow (hc : c.IsU32)
    (hheight : c.input.height + 2 * c.padding.height < 2 ^ 31) (hwidth : c.input.width < 2 ^ 31) :
    (conv2d p input weight output c).result ≠ .error .overflow := by
  rw [Ne, conv2d_eq_overflow_iff]
  intro h
  obtain ⟨out, hout⟩ := Conv2d.exists_admits_of_overflow hc h
  exact absurd ((hout.plan_eq_overflow_iff hc).mp h)
    (Nat.not_le.mpr (Conv2d.span_lt hout.dims_eq hc.stride.height_lt hheight hwidth))

end Kernel

end LoopNest
