import LoopNest.Kernel.Tensor
import LoopNest.Proofs.Builder.Loop

/-!
# Runs of generated kernels

`World.Ends` is `World.Does` for code that ends with a return, and `World.Makes` for the code of a
whole function, which begins with an entry block.  `Kernel.passes_of_generate` leads from
there to the points of a call of the generated function, from its entry to its return.

The rules for tensor operands and dimensions stand here too.
-/

namespace LoopNest

namespace World

variable {W : World} {Γ : Facts} {here : BlockId} {rs : Array Region} {Q : Array Region → Prop}

/-! ## Code with a return -/

variable (W) in
/-- The code, built and run from `here` with some facts and regions, returns with regions. -/
structure Ends (x : Build Unit) (here : BlockId) (Γ : Facts) (rs : Array Region)
    (Q : Array Region → Prop) : Prop where
  outcome : ∀ {s s' : Site}, s.Ready here → x s = (.ok (), s') →
    ∃ rs', Q rs' ∧ s.Grows s' ∧ (s'.Grows W.site → ∀ {ρ : Values}, W.Knows s ρ Γ →
      ∃ P, W.Goes (W.point s here ρ rs) P ∧ P.Returns W.func ∧ P.regions = rs')

theorem Ends.bind {α : Type} {x : Build α} {k : α → Build Unit}
    (h : W.Does x here Γ rs fun a here Γ rs => W.Ends (k a) here Γ rs Q) :
    W.Ends (x >>= k) here Γ rs Q := by
  refine ⟨fun {s s'} hs hx => ?_⟩
  obtain ⟨a, t, ha, hk⟩ := Build.bind_eq_ok.mp hx
  obtain ⟨there, Γ', rs₁, hends, hst, hrun⟩ := h.outcome hs ha
  obtain ⟨rs', hQ, hts, hrun'⟩ := hends.outcome hst.ready hk
  refine ⟨rs', hQ, hst.grows.trans hts, fun hg {ρ} hρ => ?_⟩
  obtain ⟨ρ', hgo, hknow, _⟩ := hrun (hts.trans hg) hρ
  obtain ⟨P, hgo', hP⟩ := hrun' hg hknow
  exact ⟨P, hgo.trans hgo', hP⟩

theorem Ends.ret (h : Q rs) : W.Ends (Build.ret here none) here Γ rs Q := by
  refine ⟨fun {s s'} hs hx => ⟨rs, h, (Build.continues_of_effect rfl hs.listed hx).grows,
    fun hg {ρ} _ => ⟨_, .refl, ?_, rfl⟩⟩⟩
  obtain ⟨i, hi⟩ := Build.effect_eq_ok.mp hx
  obtain ⟨ty, he⟩ := emitted rfl hi hg.within
  obtain ⟨is, hrest, _⟩ := he.rest
  exact ⟨i, is, hrest, he.op_eq⟩

/-! ## Code of a function -/

variable (W) in
/-- The code, built from an empty function and run from its entry with some facts and regions,
returns with regions. -/
structure Makes (x : Build Unit) (Γ : Facts) (rs : Array Region) (Q : Array Region → Prop) :
    Prop where
  outcome : ∀ {s s' : Site}, s.func.blocks = #[] → s.func.layout = [] → x s = (.ok (), s') →
    s.Grows s' ∧ (s'.Grows W.site → W.Knows s (fun _ => none) Γ →
      W.func.entry? = some 0 ∧ W.func.phis 0 = [] ∧
        ∃ P, W.Goes (W.func.start 0 rs) P ∧ P.Returns W.func ∧ Q P.regions)

theorem Makes.intern {sh : Shape} (hsh : sh ≠ .void) {k : TyId → Build Unit}
    (h : ∀ t, W.Makes (k t) (.shape t sh :: Γ) rs Q) : W.Makes (Build.intern sh >>= k) Γ rs Q := by
  refine ⟨fun {s s'} hblocks hlayout hx => ?_⟩
  obtain ⟨t, u, ht, hk⟩ := Build.bind_eq_ok.mp hx
  obtain ⟨rfl, rfl⟩ := Build.internTy_eq_ok.mp ht
  have hs : s.Grows ⟨(s.types.insert sh.unnamed).2, s.func⟩ := ⟨s.types.extends_insert _, .refl _⟩
  obtain ⟨hgrows, hrun⟩ := (h _).outcome (s := ⟨(s.types.insert sh.unnamed).2, s.func⟩)
    hblocks hlayout hk
  refine ⟨hs.trans hgrows, fun hg hΓ => hrun hg (.cons ?_ (hΓ.grows hs fun _ _ => rfl))⟩
  exact ⟨s.types.shape_intern sh, hsh⟩

theorem Makes.block {name : String} {k : BlockId → Build Unit}
    (h : ∀ entry, W.Ends (k entry) entry Γ rs Q) : W.Makes (Build.block name >>= k) Γ rs Q := by
  refine ⟨fun {s s'} hblocks hlayout hx => ?_⟩
  obtain ⟨entry, t, ht, hk⟩ := Build.bind_eq_ok.mp hx
  obtain ⟨hsize, rfl⟩ := Build.block_eq_ok.mp ht
  have hbody : ∀ b, s.func.body b = [] := fun b => Func.body_of_le (by simp [hblocks])
  have hentry : entry = 0 := by simpa [hblocks] using hsize
  rw [hentry] at hk
  have hlisted : s.func.Listed := fun b i hi => by simp [hbody] at hi
  have hready : Site.Ready ⟨s.types, (s.func.addBlock name).2⟩ 0 :=
    ⟨hlisted.addBlock name, by simp⟩
  have hs : s.Grows ⟨s.types, (s.func.addBlock name).2⟩ := ⟨.refl _, s.func.grows_addBlock name⟩
  obtain ⟨rs', hQ, hgrows, hrun⟩ := (h 0).outcome hready hk
  refine ⟨hs.trans hgrows, fun hg hΓ => ?_⟩
  have hfinal := hgrows.trans hg
  have hempty : (s.func.addBlock name).2.body 0 = [] := by simp [hbody]
  obtain ⟨P, hgo, hret, rfl⟩ := hrun hg (hΓ.grows hs fun _ _ => rfl)
  refine ⟨?_, ?_, P, ?_, hret, hQ⟩
  · obtain ⟨more, hmore⟩ := hfinal.func.layout_prefix
    rw [Func.entry?, show W.func.layout = _ from hmore.symm, Func.layout_addBlock]
    simp [hlayout, hblocks]
  · exact (hfinal.func.phis_eq 0 (by simp)).trans (Func.phis_of_body_nil hempty)
  · rw [point, show (Func.body _ 0).length = 0 from by rw [hempty]; rfl] at hgo
    exact hgo

end World

/-! ## Generated functions -/

namespace Kernel

/-- Where the code of a kernel starts. -/
def blank (p : Program) (name : String) (operands : List TensorOperand) : Site :=
  ⟨(p.types.intern .void).2,
    .declare name (operands.map TensorOperand.param).toArray (p.types.intern .void).1⟩

variable {p : Program} {name : String} {operands : List TensorOperand} {code : Build Unit}
  {report : Func → String} {id : FuncId}

/-- Code that fails leaves the types that it interned. -/
theorem generate_of_error {e : BuildError} {s : Site}
    (h : code (blank p name operands) = (.error e, s)) :
    generate p name operands code report =
      ⟨.error (.build e), { p with types := s.types }, []⟩ := by
  unfold generate
  unfold blank at h
  dsimp only
  rw [h]

/-- Code that succeeds gives a new function of the program. -/
theorem generate_of_ok {s : Site} (h : code (blank p name operands) = (.ok (), s)) :
    generate p name operands code report =
      ⟨.ok ({ p with types := s.types }.addFunc s.func).1,
        ({ p with types := s.types }.addFunc s.func).2, [⟨.debug, report s.func⟩]⟩ := by
  unfold generate
  unfold blank at h
  dsimp only
  rw [h]

/-- A generated function is what its code built, under a name of its own. -/
theorem exists_of_generate (hid : (generate p name operands code report).result = .ok id) :
    ∃ s name', code (blank p name operands) = (.ok (), s) ∧
      (generate p name operands code report).program.func? id = some { s.func with name := name' } ∧
      (generate p name operands code report).program.types = s.types := by
  cases hcode : code (blank p name operands) with
  | mk r s =>
    cases r with
    | error e =>
      rw [generate_of_error hcode] at hid
      cases hid
    | ok u =>
      rw [generate_of_ok hcode] at hid ⊢
      cases hid
      exact ⟨s, _, rfl, Array.getElem?_push_size, rfl⟩

/-- A call of a generated function goes from the entry to a return. -/
theorem passes_of_generate (args : List Datum)
    (ok : Func → (Operand → Option Datum) → Operand → Operand → Prop) {Γ : Facts}
    {rs : Array Region} {Q : Array Region → Prop}
    (hid : (generate p name operands code report).result = .ok id)
    (hcode : ∀ f, World.Makes ⟨(generate p name operands code report).program.types, f, args, ok f⟩
      code Γ rs Q)
    (hΓ : ∀ f, World.Knows ⟨(generate p name operands code report).program.types, f, args, ok f⟩
      (blank p name operands) (fun _ => none) Γ) :
    ∃ f, (generate p name operands code report).program.func? id = some f ∧
      f.params.size = operands.length ∧ f.entry? = some 0 ∧ f.phis 0 = [] ∧
      ∃ P, World.Goes ⟨(generate p name operands code report).program.types, f, args, ok f⟩
        (f.start 0 rs) P ∧ P.Returns f ∧ Q P.regions := by
  obtain ⟨s, name', hs, hf, htypes⟩ := exists_of_generate hid
  have hg : s.Grows ⟨(generate p name operands code report).program.types,
      { s.func with name := name' }⟩ := ⟨htypes ▸ .refl _, s.func.grows_rename name'⟩
  obtain ⟨hgrows, hrun⟩ := (hcode _).outcome rfl rfl hs
  refine ⟨_, hf, ?_, hrun hg (hΓ _)⟩
  rw [(hgrows.trans hg).func.params_eq]
  simp [blank, Func.declare]

end Kernel

/-! ## Operands -/

namespace TensorOperand

theorem classify_eq_ok {tt : TypeTable} {name : String} {ty : TyId} {o : TensorOperand}
    (h : classify tt name ty = .ok o) : ∃ target, tt.shape ty = .pointer target ∧
      ((tt.shape target = .scalar .f32 ∧ o = ⟨name, ty, none⟩) ∨
        ∃ n, o = ⟨name, ty, some n⟩) := by
  unfold classify at h
  split at h
  · cases h
  · rename_i target htarget
    refine ⟨target, TypeTable.pointee_eq_some.mp htarget, ?_⟩
    split at h
    · rename_i sc hsc
      split at h
      · rename_i heq
        exact .inl ⟨heq ▸ hsc, (Except.ok.inj h).symm⟩
      · cases h
    · rename_i element n _
      split at h
      · exact .inr ⟨n, (Except.ok.inj h).symm⟩
      · cases h
    · cases h

end TensorOperand

theorem fitsI32_eq_ok {what : String} {n : Nat} {u : Unit} (h : fitsI32 what n = .ok u) :
    n < 2 ^ 31 := by
  unfold fitsI32 at h
  split at h
  · assumption
  · cases h

theorem checkedU64_eq_ok_iff {value n : Nat} :
    checkedU64 value = .ok n ↔ value < 2 ^ 64 ∧ value = n := by
  unfold checkedU64
  split
  · rename_i hlt
    exact ⟨fun h => ⟨hlt, Except.ok.inj h⟩, fun h => congrArg Except.ok h.2⟩
  · rename_i hge
    exact ⟨fun h => (by cases h), fun h => absurd h.1 hge⟩

/-- A window that moves in strides stays inside, if there are as many places for it as fit. -/
theorem window_lt {total kernel stride o k : Nat} (hle : kernel ≤ total)
    (ho : o < (total - kernel) / stride + 1) (hk : k < kernel) : o * stride + k < total := by
  have hdiv : o * stride ≤ total - kernel :=
    Nat.le_trans (Nat.mul_le_mul_right _ (Nat.le_of_lt_succ ho)) (Nat.div_mul_le_self _ _)
  omega

/-- What is known of an operand when the code starts. -/
theorem Kernel.holds_param {W : World} {p : Program} {name what : String}
    {operands : List TensorOperand} {o : TensorOperand} {ty : TyId} {k : Nat} {q : Pointer}
    {ρ : Values} (ho : TensorOperand.classify p.types what ty = .ok o) (hk : operands[k]? = some o)
    (hq : W.args[k]? = some (.ptr q)) :
    W.Holds (blank p name operands) ρ (.val (.param k) (.ptr o.length q)) := by
  obtain ⟨target, htarget, h⟩ := TensorOperand.classify_eq_ok ho
  have hty : o.ty = ty := by
    rcases h with ⟨_, rfl⟩ | ⟨n, rfl⟩ <;> rfl
  have hext := p.types.extends_intern .void
  have htarget' := hext.shape_eq htarget (by simp)
  refine ⟨⟨ty, ?_, ?_⟩, hq⟩
  · simp [blank, Func.declare, Func.operandTy, hk, TensorOperand.param, hty]
  · rcases h with ⟨hs, rfl⟩ | ⟨n, rfl⟩
    · exact ⟨target, htarget', hext.shape_eq hs (by simp)⟩
    · exact ⟨target, htarget'⟩

namespace World

variable {W : World} {Γ : Facts} {here : BlockId} {rs : Array Region}
  {Q : Operand → BlockId → Facts → Array Region → Prop}

theorem Does.param {k : Nat} {m : Meaning} [Γ.Has (.param k) m]
    (hQ : ∀ v, Q v here (.val v m :: Γ) rs) : W.Does (Build.param k) here Γ rs Q := by
  refine .of_static (fun v => [.val v m]) (fun {s s' v} hs hv => ?_) hQ
  obtain ⟨rfl, rfl⟩ := Build.param_eq_ok hv
  refine ⟨.refl hs, rfl, fun _ {ρ} hρ e he => ?_⟩
  rw [List.mem_singleton.mp he]
  exact ⟨hρ.fits _, hρ.value_eq _⟩

/-- The elements of an operand. -/
theorem Does.elements {o : TensorOperand} {k : Nat} {p : Pointer}
    [Γ.Has (.param k) (.ptr o.length p)] (hQ : ∀ v, Q v here (.val v (.ptr none p) :: Γ) rs) :
    W.Does (o.elements here k) here Γ rs Q := by
  refine .forget (.bind (.param fun v => ?_))
  cases ho : o.length with
  | none => exact .pure ⟨_, List.Subset.refl _, hQ v⟩
  | some n =>
    refine .bind (.intern (by simp) fun t => .bind (.intern (by simp) fun u =>
      .bitcast fun w => ?_))
    exact ⟨_, List.cons_subset_cons _ fun e he => by simp [he], hQ w⟩

theorem Does.dim {n : Nat} (hQ : ∀ v, Q v here (.val v (.int .i32 n) :: Γ) rs) :
    W.Does (Build.dim n) here Γ rs Q := by
  have hsc : Scalar.i32.IsSigned := Scalar.isSigned_i32
  have hwrap : Scalar.i32.wrap (asI32 n) = Scalar.i32.wrap n := Scalar.i32.wrap_bmod_self n
  refine .constant (m := .int .i32 n) (fun h => ⟨h, hsc⟩) ?_ hQ
  rw [Literal.datum, hsc.normalize_ofInt, hwrap, Meaning.datum]

theorem Does.dims {d : Dims} {Q : Operand × Operand → BlockId → Facts → Array Region → Prop}
    (hQ : ∀ v, Q v here (.val v.2 (.int .i32 d.width) :: .val v.1 (.int .i32 d.height) :: Γ) rs) :
    W.Does (Build.dims d) here Γ rs Q :=
  .bind (.dim fun h => .bind (.dim fun w => .pure (hQ (h, w))))

end World

/-! ## Matrices -/

/-- The first cells of a matrix, row by row. -/
def Dims.cells (d : Dims) (cell : Nat → Nat → F32) (n : Nat) : List F32 :=
  (List.range n).map fun k => cell (k / d.width) (k % d.width)

namespace Dims

variable {d : Dims} {cell : Nat → Nat → F32} {y x : Nat}

@[simp] theorem length_cells (n : Nat) : (d.cells cell n).length = n := by
  simp [cells]

theorem index_lt (hy : y < d.height) (hx : x < d.width) : y * d.width + x < d.area :=
  calc y * d.width + x < y * d.width + d.width := Nat.add_lt_add_left hx _
    _ = (y + 1) * d.width := (Nat.succ_mul y d.width).symm
    _ ≤ d.area := Nat.mul_le_mul_right _ hy

theorem height_le_area (hw : 0 < d.width) : d.height ≤ d.area := Nat.le_mul_of_pos_right _ hw

theorem width_le_area (hh : 0 < d.height) : d.width ≤ d.area := Nat.le_mul_of_pos_left _ hh

theorem index_div (y : Nat) (hx : x < d.width) : (y * d.width + x) / d.width = y := by
  rw [Nat.mul_comm, Nat.mul_add_div (Nat.zero_lt_of_lt hx), Nat.div_eq_of_lt hx, Nat.add_zero]

theorem index_mod (y : Nat) (hx : x < d.width) : (y * d.width + x) % d.width = x := by
  rw [Nat.mul_comm, Nat.mul_add_mod, Nat.mod_eq_of_lt hx]

theorem cells_succ (hx : x < d.width) :
    d.cells cell (y * d.width + (x + 1)) = d.cells cell (y * d.width + x) ++ [cell y x] := by
  rw [← Nat.add_assoc, cells, List.range_succ, List.map_append, List.map_singleton, index_div y hx,
    index_mod y hx, cells]

theorem getElem?_cells (hy : y < d.height) (hx : x < d.width) :
    (d.cells cell d.area)[y * d.width + x]? = some (cell y x) := by
  rw [cells, List.getElem?_map, List.getElem?_range (index_lt hy hx), Option.map_some,
    index_div y hx, index_mod y hx]

end Dims

/-- The run succeeded and left a matrix in a buffer.  Of the regions that were there it changed
nothing else. -/
structure Halt.Fills (h : Halt) (m : Memory) (q : Pointer) (d : Dims) (cell : Nat → Nat → F32) :
    Prop where
  result_eq : h.result = .ok .void
  cells : ∃ xs, h.memory.readF32 q d.area = .ok xs ∧
    ∀ y < d.height, ∀ x < d.width, xs[y * d.width + x]? = some (cell y x)
  extent_eq : ∀ r < m.regions.size, extentOf h.memory.regions r = extentOf m.regions r
  byteAt_eq : ∀ r < m.regions.size, ∀ o,
    ¬ (r = q.region ∧ q.start ≤ o ∧ o < q.start + 4 * d.area) →
    byteAt h.memory.regions r o = byteAt m.regions r o

/-- A run that fills a buffer, and buffers in regions of its own. -/
theorem Halt.fills_of_written {h : Halt} {m : Memory} {q : Pointer} {d : Dims}
    {cell : Nat → Nat → F32} {base : Array Region} {ws : List (Pointer × List F32)}
    (hresult : h.result = .ok .void)
    (hw : Written base h.memory.regions ((q, d.cells cell d.area) :: ws))
    (hws : ∀ w ∈ ws, m.regions.size ≤ w.1.region)
    (hbase : ∀ r < m.regions.size, base[r]? = m.regions[r]?) : h.Fills m q d cell where
  result_eq := hresult
  cells := by
    refine ⟨d.cells cell d.area, ?_, fun y hy x hx => Dims.getElem?_cells hy hx⟩
    have hspans := (hw.spans _ List.mem_cons_self).sameExtents hw.extents
    rw [Dims.length_cells] at hspans
    rw [Memory.readF32_eq_ok hspans.extent_lt]
    exact ⟨hspans, Dims.length_cells _, hw.cell_eq _ List.mem_cons_self⟩
  extent_eq r hr := by
    rw [← hw.extents.2 r, extentOf, hbase r hr, extentOf]
  byteAt_eq r hr o ho := by
    rw [hw.byteAt_eq r o fun w hmem hc => ?_, byteAt, hbase r hr, byteAt]
    rcases List.mem_cons.mp hmem with rfl | hmem
    · rw [Dims.length_cells] at hc
      exact ho ⟨hc.1.symm, hc.2⟩
    · exact absurd (hws w hmem) (by omega)

/-! ## Programs and memory to try kernels with -/

namespace Kernel

/-- A program whose type 1 is that of pointers to single-precision numbers. -/
def pointers : Program :=
  ⟨((TypeTable.intern .empty (.scalar .f32)).2.intern (.pointer 0)).2, #[]⟩

/-- Memory with a region for each buffer. -/
def buffers (data : List (List F32)) : Memory :=
  data.foldl (fun m xs => (m.allocF32 xs).2) .empty

end Kernel

end LoopNest
