import LoopNest.Kernel.MaxPool2d
import LoopNest.Proofs.Kernel.Generated

/-!
# What max pooling computes

`MaxPool2d.cell` says what an output cell is: the largest element of its window, taken row by row.
A generated function leaves these cells in its output buffer and changes nothing else, but
for a stack slot of its own (`Kernel.maxPool2d_fills`).

The invariants of the four loops say what the output buffer and the slot hold.  The two checks
on sizes keep all indices in range: a window lies inside the input, and the input has fewer than
`2 ^ 31` elements.
-/

namespace LoopNest

namespace MaxPool2d

variable (c : MaxPool2d) (xs : List F32)

/-! ## Cells -/

/-- The larger of two numbers.  The first one stays if they cannot be compared. -/
def larger (cur x : F32) : F32 := if cur.lt x then x else cur

/-- The place of an element of a window. -/
def index (oy ox ky kx : Nat) : Nat :=
  (oy * c.stride.height + ky) * c.input.width + (ox * c.stride.width + kx)

/-- The maximum with some elements of a row of the window. -/
def afterRow (oy ox ky : Nat) (cur : F32) (n : Nat) : F32 :=
  (List.range n).foldl (fun cur kx => larger cur (xs.getD (c.index oy ox ky kx) .zero)) cur

/-- The maximum of some rows of a window. -/
def afterRows (oy ox n : Nat) : F32 :=
  (List.range n).foldl (fun cur ky => c.afterRow xs oy ox ky cur c.kernel.width) .negInfinity

/-- An output cell. -/
def cell (oy ox : Nat) : F32 := c.afterRows xs oy ox c.kernel.height

theorem afterRow_succ (oy ox ky : Nat) (cur : F32) (n : Nat) :
    c.afterRow xs oy ox ky cur (n + 1) =
      larger (c.afterRow xs oy ox ky cur n) (xs.getD (c.index oy ox ky n) .zero) := by
  simp [afterRow, List.range_succ]

theorem afterRows_succ (oy ox n : Nat) : c.afterRows xs oy ox (n + 1) =
    c.afterRow xs oy ox n (c.afterRows xs oy ox n) c.kernel.width := by
  simp [afterRows, List.range_succ]

/-! ## Accepted shapes -/

variable {c xs}

theorem outputExtent_eq_ok {dim : Dims → Nat} {n : Nat} (h : c.outputExtent dim = .ok n) :
    0 < dim c.kernel ∧ 0 < dim c.stride ∧ dim c.kernel ≤ dim c.input ∧
      n = (dim c.input - dim c.kernel) / dim c.stride + 1 := by
  simp only [outputExtent] at h
  split at h
  · cases h
  · split at h
    · cases h
    · have := Except.ok.inj h
      omega

/-- In one dimension the window stays inside the input. -/
theorem outputExtent_window {dim : Dims → Nat} {n : Nat} (h : c.outputExtent dim = .ok n)
    {o k : Nat} (ho : o < n) (hk : k < dim c.kernel) : o * dim c.stride + k < dim c.input := by
  obtain ⟨_, _, hle, rfl⟩ := outputExtent_eq_ok h
  exact window_lt hle ho hk

theorem outputExtent_le {dim : Dims → Nat} {n : Nat} (h : c.outputExtent dim = .ok n) :
    0 < n ∧ n ≤ dim c.input := by
  have hpos := (outputExtent_eq_ok h).1
  have hn : 0 < n := by
    rw [(outputExtent_eq_ok h).2.2.2]
    exact Nat.succ_pos _
  -- The last window starts no earlier than its number, since strides are positive.
  have hlast := outputExtent_window h (Nat.sub_lt hn Nat.one_pos) hpos
  have hstride := (outputExtent_eq_ok h).2.1
  have hmul : n - 1 ≤ (n - 1) * dim c.stride := Nat.le_mul_of_pos_right _ hstride
  omega

theorem outputDims_eq_ok {out : Dims} (h : c.outputDims = .ok out) :
    c.outputExtent Dims.height = .ok out.height ∧ c.outputExtent Dims.width = .ok out.width := by
  simp only [outputDims, bind_eq_ok_iff] at h
  obtain ⟨height, hh, width, hw, h⟩ := h
  cases Except.ok.inj h
  exact ⟨hh, hw⟩

/-- The elements of a window are elements of the input. -/
theorem index_lt {out : Dims} (h : c.outputDims = .ok out) {oy ox ky kx : Nat}
    (hoy : oy < out.height) (hox : ox < out.width) (hky : ky < c.kernel.height)
    (hkx : kx < c.kernel.width) : c.index oy ox ky kx < c.input.area :=
  Dims.index_lt (outputExtent_window (outputDims_eq_ok h).1 hoy hky)
    (outputExtent_window (outputDims_eq_ok h).2 hox hkx)

/-- The output is no larger than the input. -/
theorem area_le {out : Dims} (h : c.outputDims = .ok out) : out.area ≤ c.input.area :=
  Nat.mul_le_mul (outputExtent_le (outputDims_eq_ok h).1).2
    (outputExtent_le (outputDims_eq_ok h).2).2

/-- What an accepted pooling was checked for. -/
theorem plan_eq_ok {tt : TypeTable} {input output : TyId} {pl : Plan}
    (h : c.plan tt input output = .ok pl) : pl.shape = c ∧ c.outputDims = .ok pl.out ∧
      TensorOperand.classify tt "input" input = .ok pl.input ∧
      TensorOperand.classify tt "output" output = .ok pl.output ∧ c.input.area < 2 ^ 31 := by
  simp only [plan, bind_eq_ok_iff] at h
  obtain ⟨i, hi, o, ho, out, hout, _, _, _, _, _, hfit, _, _, h⟩ := h
  cases Except.ok.inj h
  exact ⟨rfl, hout, hi, ho, fitsI32_eq_ok hfit⟩

/-! ## Memory -/

/-- The buffers of a pooling: the input, the output and the stack slot. -/
structure Buffers (c : MaxPool2d) (out : Dims) (xs : List F32) (pin pout slot : Pointer)
    (base : Array Region) : Prop where
  input_spans : pin.Spans c.input.area base
  input_eq : ∀ n < c.input.area, cellAt base (pin.element n) = xs.getD n .zero
  output_spans : pout.Spans out.area base
  slot_spans : slot.Spans 1 base
  input_ne : pin.region ≠ pout.region
  slot_ne_input : slot.region ≠ pin.region
  slot_ne_output : slot.region ≠ pout.region

namespace Buffers

variable {out : Dims} {pin pout slot : Pointer} {base rs : Array Region} {done z : List F32}
  {cur : F32} (h : Buffers c out xs pin pout slot base)
include h

theorem inBounds_slot (hw : Written base rs [(slot, z), (pout, done)]) : InBounds rs slot 4 := by
  have := (h.slot_spans.sameExtents hw.extents).inBounds_element Nat.one_pos
  simpa using this

theorem cellAt_input (hw : Written base rs [(slot, z), (pout, done)]) {n : Nat}
    (hn : n < c.input.area) :
    InBounds rs (pin.element n) 4 ∧ cellAt rs (pin.element n) = xs.getD n .zero := by
  have hin := h.input_spans.inBounds_element hn
  refine ⟨hw.extents.inBounds.mp hin, ?_⟩
  rw [hw.cellAt_base hin, h.input_eq n hn]
  simp only [List.mem_cons, List.not_mem_nil, or_false, forall_eq_or_imp, forall_eq]
  exact ⟨h.slot_ne_input, Ne.symm h.input_ne⟩

/-- Nothing is written yet. -/
theorem written : Written base base [(slot, []), (pout, [])] := by
  have hspans : ∀ p ∈ [slot, pout], p.Spans 0 base := by
    simpa using ⟨h.slot_spans.mono (Nat.zero_le 1), h.output_spans.mono (Nat.zero_le _)⟩
  exact .refl hspans

/-- The slot gets a number. -/
theorem store_slot (hw : Written base rs [(slot, z), (pout, done)]) (hz : z.length ≤ 1) (v : F32) :
    Written base (storeCell rs slot v) [(slot, [v]), (pout, done)] := by
  have := hw.store (List.nil_prefix) hz h.slot_spans (by simpa using Ne.symm h.slot_ne_output) v
  simpa using this

/-- The output gets the number in the slot. -/
theorem store_output (hw : Written base rs [(slot, [cur]), (pout, done)])
    (hlt : done.length < out.area) :
    InBounds rs (pout.element done.length) 4 ∧
      Written base (storeCell rs (pout.element done.length) (cellAt rs slot))
        [(slot, [cur]), (pout, done ++ [cur])] := by
  refine ⟨(h.output_spans.sameExtents hw.extents).inBounds_element hlt, ?_⟩
  rw [hw.cellAt_head]
  refine Written.perm ?_ (.swap _ _ _)
  exact (hw.perm (.swap _ _ _)).store (List.prefix_refl _) (Nat.le_succ _) (h.output_spans.mono hlt)
    (by simpa using h.slot_ne_output) cur

end Buffers

/-! ## The code -/

section

variable {W : World} {Γ : Facts} {here : BlockId} {rs : Array Region} {k : Constants}
  {src slot dst oy ox ky kx : Operand} {pin pout q : Pointer} {y x i j : Nat}
  {Q : Unit → BlockId → Facts → Array Region → Prop} (hok : ∀ val b x, W.ok val b x)
include hok

/-- One element of the window is compared with the maximum in the slot. -/
theorem does_tap [Γ.Has k.stride.1 (.int .i32 c.stride.height)]
    [Γ.Has k.stride.2 (.int .i32 c.stride.width)] [Γ.Has k.inputWidth (.int .i32 c.input.width)]
    [Γ.Has src (.ptr none pin)] [Γ.Has slot (.ptr none q)] [Γ.Has oy (.int .i32 y)]
    [Γ.Has ox (.int .i32 x)] [Γ.Has ky (.int .i32 i)] [Γ.Has kx (.int .i32 j)]
    (hlt : c.index y x i j < 2 ^ 31) (hin : InBounds rs (pin.element (c.index y x i j)) 4)
    (hslot : InBounds rs q 4)
    (hQ : ∀ Γ, Q () here Γ (storeCell rs q
      (larger (cellAt rs q) (cellAt rs (pin.element (c.index y x i j)))))) :
    W.Does (tap k here src slot oy ox ky kx) here Γ rs Q := by
  refine .bind (.mul fun oyS => .bind (.add fun iy => .bind (.mul fun oxS => .bind (.add fun ix =>
    .bind (.mul fun row => .bind (.add fun idx => ?_))))))
  have hidx : ((y : Int) * c.stride.height + i) * c.input.width + (x * c.stride.width + j) =
      (c.index y x i j : Nat) := by
    simp [index]
  rw [hidx]
  have hbits : (2 ^ Scalar.i32.bits : Nat) = 2 ^ 32 := rfl
  refine .bind (.gep (by omega) (by omega) (fun _ => hok _ _ _) fun ptr => ?_)
  refine .bind (.load hin fun v => .bind (.load hslot fun cur => .bind (.fcmp fun greater =>
    .bind (.selectF32 fun next => .store hslot (hQ _)))))

/-- The maximum in the slot is written to an output cell. -/
theorem does_writeCell {out : Dims} [Γ.Has k.out.2 (.int .i32 out.width)]
    [Γ.Has dst (.ptr none pout)] [Γ.Has slot (.ptr none q)] [Γ.Has oy (.int .i32 y)]
    [Γ.Has ox (.int .i32 x)] (hlt : y * out.width + x < 2 ^ 31) (hslot : InBounds rs q 4)
    (hin : InBounds rs (pout.element (y * out.width + x : Nat)) 4)
    (hQ : ∀ Γ, Q () here Γ (storeCell rs (pout.element (y * out.width + x : Nat)) (cellAt rs q))) :
    W.Does (writeCell k here dst slot oy ox) here Γ rs Q := by
  refine .bind (.load hslot fun result => .bind (.mul fun row => .bind (.add fun cell => ?_)))
  have hidx : (y : Int) * out.width + x = (y * out.width + x : Nat) := by simp
  rw [hidx]
  have hbits : (2 ^ Scalar.i32.bits : Nat) = 2 ^ 32 := rfl
  exact .bind (.gep (by omega) (by omega) (fun _ => hok _ _ _) fun ptr => .store hin (hQ _))

end

/-- The constants have the values of the shape. -/
theorem does_constants {W : World} {Γ : Facts} {here : BlockId} {rs : Array Region} {pl : Plan}
    {Q : Constants → BlockId → Facts → Array Region → Prop}
    (hQ : ∀ k, Q k here (.val k.negInf (.f32 .negInfinity) ::
      .val k.out.2 (.int .i32 pl.out.width) :: .val k.out.1 (.int .i32 pl.out.height) ::
      .val k.stride.2 (.int .i32 pl.shape.stride.width) ::
      .val k.stride.1 (.int .i32 pl.shape.stride.height) ::
      .val k.kernel.2 (.int .i32 pl.shape.kernel.width) ::
      .val k.kernel.1 (.int .i32 pl.shape.kernel.height) ::
      .val k.inputWidth (.int .i32 pl.shape.input.width) :: .val k.zero (.int .i32 0) :: Γ) rs) :
    W.Does (constants pl) here Γ rs Q :=
  .bind (.int Scalar.isSigned_i32 (n := 0) (by decide) fun zero => .bind (.dim fun iw =>
    .bind (.dims fun kernel => .bind (.dims fun stride => .bind (.dims fun out =>
      .bind (.f32 fun negInf => .pure (hQ ⟨zero, iw, kernel, stride, out, negInf⟩)))))))

/-- The code fills the output buffer with the cells. -/
theorem makes_code {W : World} (hok : ∀ val b x, W.ok val b x) {pl : Plan} {pin pout slot : Pointer}
    {rs base : Array Region} (hslot : slot = ⟨rs.size, 0⟩)
    (hbase : base = rs.push (Array.replicate 4 0))
    (hdims : pl.shape.outputDims = .ok pl.out) (harea : pl.shape.input.area < 2 ^ 31)
    (hb : Buffers pl.shape pl.out xs pin pout slot base) :
    W.Makes (code pl) [.val (.param 0) (.ptr pl.input.length pin),
      .val (.param 1) (.ptr pl.output.length pout)] rs fun rs' => ∃ z : List F32,
        Written base rs' [(slot, z), (pout, pl.out.cells (pl.shape.cell xs) pl.out.area)] := by
  obtain ⟨hh, hw⟩ := outputDims_eq_ok hdims
  obtain ⟨hkh, _, hkh_le, _⟩ := outputExtent_eq_ok hh
  obtain ⟨hkw, _, hkw_le, _⟩ := outputExtent_eq_ok hw
  obtain ⟨hoh, hoh_le⟩ := outputExtent_le hh
  obtain ⟨how, how_le⟩ := outputExtent_le hw
  have hbits : 2 ^ Scalar.i32.bits = 2 ^ 32 := rfl
  have hheight : pl.shape.input.height < 2 ^ Scalar.i32.bits := by
    have := pl.shape.input.height_le_area (Nat.lt_of_lt_of_le hkw hkw_le)
    omega
  have hwidth : pl.shape.input.width < 2 ^ Scalar.i32.bits := by
    have := pl.shape.input.width_le_area (Nat.lt_of_lt_of_le hkh hkh_le)
    omega
  refine .intern (by simp) fun f32 => .block fun entry => .bind (.elements fun src =>
    .bind (.elements fun dst => .bind (.alloca fun slotV => .bind (does_constants fun k => ?_))))
  rw [← hslot, ← hbase]
  refine .bind (.loop (I := fun oy rs' => ∃ z : List F32, z.length ≤ 1 ∧ Written base rs'
      [(slot, z), (pout, pl.out.cells (pl.shape.cell xs) (oy * pl.out.width))])
    hoh (Nat.lt_of_le_of_lt hoh_le hheight) ⟨[], Nat.zero_le 1, ?_⟩
    (fun oy hoy rs₁ hI₁ here₁ v₁ => ?_) fun l rs₁ hI₁ => .ret ?_)
  · rw [Nat.zero_mul]
    exact hb.written
  · refine .bind (.loop (I := fun ox rs' => ∃ z : List F32, z.length ≤ 1 ∧ Written base rs'
        [(slot, z), (pout, pl.out.cells (pl.shape.cell xs) (oy * pl.out.width + ox))])
      how (Nat.lt_of_le_of_lt how_le hwidth) hI₁ (fun ox hox rs₂ hI₂ here₂ v₂ => ?_)
      fun l rs₂ hI₂ => .pure ⟨rfl, Nat.succ_mul oy _ ▸ hI₂⟩)
    obtain ⟨z, hz, hw₂⟩ := hI₂
    refine .bind (.store (hb.inBounds_slot hw₂) (.bind (.loop
      (I := fun ky rs' => Written base rs' [(slot, [pl.shape.afterRows xs oy ox ky]),
        (pout, pl.out.cells (pl.shape.cell xs) (oy * pl.out.width + ox))])
      hkh (Nat.lt_of_le_of_lt hkh_le hheight) (hb.store_slot hw₂ hz _)
      (fun ky hky rs₃ hw₃ here₃ v₃ => ?_) fun l rs₃ hw₃ => ?_)))
    · refine .bind (.loop (I := fun kx rs' => Written base rs'
          [(slot, [pl.shape.afterRow xs oy ox ky (pl.shape.afterRows xs oy ox ky) kx]),
            (pout, pl.out.cells (pl.shape.cell xs) (oy * pl.out.width + ox))])
        hkw (Nat.lt_of_le_of_lt hkw_le hwidth) hw₃ (fun kx hkx rs₄ hw₄ here₄ v₄ => ?_)
        fun l rs₄ hw₄ => .pure ⟨rfl, (afterRows_succ ..).symm ▸ hw₄⟩)
      have hidx := index_lt hdims hoy hox hky hkx
      obtain ⟨hin, hx⟩ := hb.cellAt_input hw₄ hidx
      refine .bind (does_tap hok (Nat.lt_trans hidx harea) hin (hb.inBounds_slot hw₄) fun Γ =>
        .pure ⟨rfl, ?_⟩)
      rw [hx, hw₄.cellAt_head, afterRow_succ]
      exact hb.store_slot hw₄ (Nat.le_refl 1) _
    · have hlt := Dims.index_lt hoy hox
      have hle := area_le hdims
      obtain ⟨hin, hw₄⟩ := hb.store_output hw₃ (by simpa using hlt)
      rw [Dims.length_cells] at hin hw₄
      refine .bind (does_writeCell hok (by omega) (hb.inBounds_slot hw₃) hin fun Γ =>
        .pure ⟨rfl, [pl.shape.cell xs oy ox], Nat.le_refl 1, ?_⟩)
      rw [Dims.cells_succ hox]
      exact hw₄
  · obtain ⟨z, _, hz⟩ := hI₁
    exact ⟨z, hz⟩

/-- The buffers when the slot has been reserved. -/
theorem buffers_of_readF32 {m : Memory} (hm : m.Addressable) {out : Dims} {pin pout : Pointer}
    {old : List F32} (hin : m.readF32 pin c.input.area = .ok xs)
    (hout : m.readF32 pout out.area = .ok old) (hne : pin.region ≠ pout.region) :
    Buffers c out xs pin pout ⟨m.regions.size, 0⟩ (m.regions.push (Array.replicate 4 0)) := by
  obtain ⟨hspan, hcells⟩ := Memory.cells_of_readF32 (hm _) hin
  obtain ⟨hspan', _⟩ := Memory.cells_of_readF32 (hm _) hout
  refine ⟨hspan.push _, fun n hn => ?_, hspan'.push _, spans_push _ (by simp) (by simp), hne,
    Nat.ne_of_gt hspan.inBounds.2.2, Nat.ne_of_gt hspan'.inBounds.2.2⟩
  rw [cellAt_push _ (hspan.inBounds_element hn), hcells n hn]

end MaxPool2d

/-! ## Runs -/

/-- A generated pooling succeeds, leaves the largest elements of the windows in the output buffer
and changes nothing else.  It adds one region, the slot. -/
theorem Kernel.maxPool2d_fills {p : Program} {input output : TyId} {c : MaxPool2d} {out : Dims}
    {id : FuncId} (hid : (maxPool2d p input output c).result = .ok id)
    (hdims : c.outputDims = .ok out) {m : Memory} (hm : m.Addressable) {pin pout : Pointer}
    {xs old : List F32} (hin : m.readF32 pin c.input.area = .ok xs)
    (hout : m.readF32 pout out.area = .ok old) (hne : pin.region ≠ pout.region) :
    ∃ f, (maxPool2d p input output c).program.func? id = some f ∧ ∃ n, ∀ limit, n ≤ limit →
      ((maxPool2d p input output c).program.run f [.ptr pin, .ptr pout] m limit).Fills m pout out
        (c.cell xs) ∧
      ((maxPool2d p input output c).program.run f [.ptr pin, .ptr pout] m
        limit).memory.regions.size = m.regions.size + 1 := by
  unfold maxPool2d at hid ⊢
  cases hpl : c.plan p.types input output with
  | error e =>
    rw [hpl] at hid
    cases hid
  | ok pl =>
    rw [hpl] at hid
    dsimp only at hid ⊢
    obtain ⟨rfl, hout', hcl, hcl', harea⟩ := MaxPool2d.plan_eq_ok hpl
    cases hdims.symm.trans hout'
    have hb := MaxPool2d.buffers_of_readF32 hm hin hout hne
    obtain ⟨f, hf, hparams, hentry, hphis, P, hgo, hret, z, hw⟩ :=
      passes_of_generate [.ptr pin, .ptr pout] (fun _ _ _ _ => True) hid
        (fun _ => MaxPool2d.makes_code (fun _ _ _ => trivial) rfl rfl hdims harea hb)
        fun _ => .cons (holds_param hcl rfl rfl)
          (.cons (holds_param hcl' rfl rfl) fun _ h => by cases h)
    obtain ⟨n, hn⟩ := Program.run_of_passes hentry hparams hphis hgo hret
    refine ⟨f, hf, n, fun limit hlimit => ?_⟩
    obtain ⟨hresult, hregions⟩ := hn limit hlimit
    rw [← hregions] at hw
    refine ⟨Halt.fills_of_written hresult (hw.perm (.swap _ _ _)) ?_ fun r hr => ?_, ?_⟩
    · simp
    · rw [Array.getElem?_push_lt hr, Array.getElem?_eq_getElem hr]
    · rw [← hw.extents.1, Array.size_push]

/-- Two windows, side by side. -/
def Kernel.nanPool : MaxPool2d := ⟨⟨3, 3⟩, ⟨2, 2⟩, ⟨2, 1⟩⟩

/-- All elements of the second window are NaNs. -/
def Kernel.nanRows : List F32 :=
  [⟨0x3f800000⟩, .canonicalNaN, .defaultNaN, ⟨0x40400000⟩, .canonicalNaN, .canonicalNaN,
    .zero, .zero, .zero]

/-- The input and two cells. -/
def Kernel.nanMemory : Memory := buffers [nanRows, [.zero, .zero]]

/-- A window of NaNs gives negative infinity. -/
theorem Kernel.maxPool2d_fills_nan :
    nanPool.cell nanRows 0 0 = ⟨0x40400000⟩ ∧ nanPool.cell nanRows 0 1 = .negInfinity ∧
    (maxPool2d pointers 1 1 nanPool).result = .ok 0 ∧ nanPool.outputDims = .ok ⟨1, 2⟩ ∧
    ∃ f, (maxPool2d pointers 1 1 nanPool).program.func? 0 = some f ∧ ∃ n, ∀ limit, n ≤ limit →
      ((maxPool2d pointers 1 1 nanPool).program.run f [.ptr ⟨0, 0⟩, .ptr ⟨1, 0⟩] nanMemory
        limit).Fills nanMemory ⟨1, 0⟩ ⟨1, 2⟩ (nanPool.cell nanRows) ∧
      ((maxPool2d pointers 1 1 nanPool).program.run f [.ptr ⟨0, 0⟩, .ptr ⟨1, 0⟩] nanMemory
        limit).memory.regions.size = 3 := by
  have hid : (maxPool2d pointers 1 1 nanPool).result = .ok 0 := by decide +kernel
  have hin : nanMemory.readF32 ⟨0, 0⟩ 9 = .ok nanRows := rfl
  have hout : nanMemory.readF32 ⟨1, 0⟩ 2 = .ok [.zero, .zero] := rfl
  exact ⟨by decide +kernel, by decide +kernel, hid, rfl,
    maxPool2d_fills hid rfl (by decide) hin hout (by decide)⟩

end LoopNest
