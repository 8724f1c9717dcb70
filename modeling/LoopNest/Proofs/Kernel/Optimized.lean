import LoopNest.Proofs.Kernel.Relu
import LoopNest.Proofs.Kernel.Sturdy

/-!
# Optimized kernels

The preset pipelines are correct on each generated kernel (`Kernel.presets_correct`), in every
program that keeps it (`Kernel.CorrectIn`).  What else the program defines does not matter to a run on
the kernel alone.  On the whole program all definitions must be kernels (`Kernel.OfKernels`): they are
added one by one, and each is tame (`Kernel.Adds.stocked`).

Pooling and convolutions are woven nests, where the only thing to do is to pad a slot.  A rectified
linear unit is a single loop without slots, which is for the vectorizer alone (`Func.Plain`).  If the
lanes fit, the drawing of the scalar function becomes that of the vectorized one, with an old loop for
the rest or without.  All its loops are marked, hence nothing is left to do
(`Relu.Drawing.vectorize_idle_wide`), and the verifier accepts it, since the scalar function has what
the vectorizer relies on (`Relu.Drawing.vectorizable_func`).  Both rectify the same numbers, which
settles every byte of memory (`Halt.Rectifies.regions_eq`).
-/

namespace LoopNest

open Func FlowGraph

variable {tt : TypeTable}

/-! ## Types without lanes -/

namespace TypeTable

variable {t u : TyId} {s : Scalar}

theorem lanes_of_scalar (h : tt.shape t = .scalar s) : tt.lanes? t = none := by
  rw [lanes?, h]

theorem lanes_of_pointer (h : tt.shape t = .pointer u) : tt.lanes? t = none := by
  rw [lanes?, h]

theorem lanes_of_void (h : tt.lookup Typing.void = some t) : tt.lanes? t = none := by
  rw [lanes?, shape_of_lookup h]
  rfl

end TypeTable

namespace Func.WellTyped

variable {f : Func} {b : BlockId} {i : InstId} (ht : f.WellTyped tt) (hb : b ∈ f.layout)
  (hi : i ∈ f.body b)
include ht hb hi

/-- A base is a pointer. -/
theorem lanes_gep {base index : Operand} (hop : f.op i = .gep base index) :
    tt.lanes? (f.tyOf base) = none := by
  obtain ⟨_, hres, -⟩ := ht b hb i hi
  rw [hop] at hres
  obtain ⟨t, u, _, _, hbase, hshape, -⟩ := Typing.resultTy_gep.mp hres
  rw [Typing.tyOf_of_operandTy hbase]
  exact TypeTable.lanes_of_pointer hshape

theorem lanes_store {v q : Operand} (hop : f.op i = .store v q) :
    tt.lanes? (f.inst i).ty = none := by
  obtain ⟨_, hres, hlook⟩ := ht b hb i hi
  rw [hop] at hres
  obtain ⟨_, _, _, _, _, _, _, rfl⟩ := Typing.resultTy_store.mp hres
  exact TypeTable.lanes_of_void hlook

theorem lanes_br {target : BlockId} (hop : f.op i = .br target) :
    tt.lanes? (f.inst i).ty = none := by
  obtain ⟨_, hres, hlook⟩ := ht b hb i hi
  rw [hop] at hres
  cases hres
  exact TypeTable.lanes_of_void hlook

end Func.WellTyped

/-! ## What is left to do -/

namespace Relu.Drawing

variable {d : Drawing} {ti tq : Option TyId} {w : Wide} {stop step : Int64} {rest : Bool}
  {config : VectorConfig} {p : Program} {id : FuncId} {n : Nat}

theorem plain_func : (d.func ti tq).Plain where
  slotless := by cases ti <;> cases tq <;> rfl
  flat := by
    rw [ofFunc_func]
    decide +kernel

theorem plain_wide : (d.wide ti tq w stop step rest).Plain where
  slotless := by cases ti <;> cases tq <;> cases rest <;> rfl
  flat := by
    rw [ofFunc_wide]
    cases rest <;> decide +kernel

theorem defined_wide : (d.wide ti tq w stop step rest).isDeclaration = false := by
  cases rest <;> rfl

/-- Nothing is left to do on the vectorized function. -/
theorem vectorize_idle_wide : (Pass.vectorize config).Idle tt (d.wide ti tq w stop step rest) := by
  have hrefused : ∀ l ∈ Vectorize.innermostLoops (.ofFunc (d.wide ti tq w stop step rest)),
      Vectorize.Refused tt config (d.wide ti tq w stop step rest) l := fun l hl =>
    Vectorize.refused_of_marked (marked_wide l hl)
  refine ⟨fun tt' ht => Vectorize.vectorizeStuck_of_refused (fun l hl _ => ?_) hrefused ht,
    fun tt' ht => ?_⟩
  · rw [Vectorize.planStuck, if_pos (marked_wide l hl)]
  · change (Func.vectorize config tt' _).changed = false
    unfold Func.vectorize
    split
    · rfl
    · exact (Vectorize.sweep_of_refused hrefused ht _).2

/-! ## Acceptance -/

theorem loops_func {i : LoopId} (hi : i ∈ (LoopForest.forest (ofFunc (d.func ti tq))).ids) :
    (LoopForest.forest (ofFunc (d.func ti tq))).loop i = natural := by
  have hloops : ∀ i ∈ (LoopForest.forest graph).ids, (LoopForest.forest graph).loop i = natural := by
    decide +kernel
  rw [ofFunc_func] at hi ⊢
  exact hloops i hi

theorem singleEntry_func : (d.func ti tq).SingleEntry := by
  have hbody : (d.func ti tq).predecessors (2 : Nat) = [1] := by cases ti <;> cases tq <;> rfl
  have hlatch : (d.func ti tq).predecessors (3 : Nat) = [2] := by cases ti <;> cases tq <;> rfl
  refine singleEntry_iff.mpr fun i hi b hb hne a ha => ?_
  rw [loops_func hi] at hb hne ⊢
  have hmem : b = (1 : Nat) ∨ b = (2 : Nat) ∨ b = (3 : Nat) := by simpa [natural] using hb
  rcases hmem.resolve_left hne with rfl | rfl
  · rw [hbody] at ha
    exact List.mem_singleton.mp ha ▸ List.mem_cons_self
  · rw [hlatch] at ha
    exact List.mem_singleton.mp ha ▸ List.mem_cons_of_mem _ List.mem_cons_self

/-- The body of the loop has no vectors. -/
theorem scalarBlock_func (hd : d.Typed tt) (ht : (d.func ti tq).WellTyped tt) :
    (d.func ti tq).ScalarBlock tt (2 : Nat) := by
  have h : d.HasLoop ti tq tt (d.func ti tq) := hasLoop_func hd
  obtain ⟨h₃, h₄, h₅, h₆, h₇, h₈, h₉⟩ := h.code
  have hmem {i : Nat} (hle : 3 ≤ i) (hlt : i ≤ 9) :
      (casts ti tq).length + i ∈ (d.func ti tq).body (2 : Nat) := by
    rw [h.body_eq]
    simp
    omega
  have hlive : (2 : Nat) ∈ (d.func ti tq).layout := by simp [func]
  have hop {i : InstId} {op : Op} {t : TyId} {name : Option String} {b : Option BlockId}
      (hi : (d.func ti tq).inst i = ⟨op, t, name, b⟩) : (d.func ti tq).op i = op := by
    rw [Func.op, hi]
  have hinst {i : InstId} {op : Op} {t : TyId} {name : Option String} {b : Option BlockId}
      (hi : (d.func ti tq).inst i = ⟨op, t, name, b⟩) (hres : tt.lanes? t = none)
      (hops : ∀ v ∈ op.operands, tt.lanes? ((d.func ti tq).tyOf v) = none) :
      tt.lanes? ((d.func ti tq).inst i).ty = none ∧
        ∀ v ∈ ((d.func ti tq).op i).operands, tt.lanes? ((d.func ti tq).tyOf v) = none := by
    rw [hop hi, hi]
    exact ⟨hres, hops⟩
  -- What the drawing leaves open is settled by the types that the operands have to have.
  have hsource := ht.lanes_gep hlive (hmem (i := 3) (by decide) (by decide)) (hop h₃)
  have htarget := ht.lanes_gep hlive (hmem (i := 7) (by decide) (by decide)) (hop h₇)
  have hstore := ht.lanes_store hlive (hmem (i := 8) (by decide) (by decide)) (hop h₈)
  have hleave := ht.lanes_br hlive (hmem (i := 9) (by decide) (by decide)) (hop h₉)
  rw [h₈] at hstore
  rw [h₉] at hleave
  obtain ⟨u, hxAddr, -⟩ := hd.xAddr
  obtain ⟨u', hyAddr, -⟩ := hd.yAddr
  have hiv : tt.lanes? ((d.func ti tq).tyOf (.inst ((casts ti tq).length + 1))) = none := by
    cases ti <;> cases tq <;> exact TypeTable.lanes_of_scalar hd.iv
  have hzero : tt.lanes? ((d.func ti tq).tyOf (.const 2)) = none :=
    TypeTable.lanes_of_scalar hd.zeroF32
  have hx := TypeTable.lanes_of_scalar hd.x
  have hpositive := TypeTable.lanes_of_scalar hd.positive
  have hy := TypeTable.lanes_of_scalar hd.y
  have hfrom := TypeTable.lanes_of_pointer hxAddr
  have hto := TypeTable.lanes_of_pointer hyAddr
  intro i hi
  rw [h.body_eq] at hi
  simp only [List.mem_cons, List.not_mem_nil, or_false] at hi
  rcases hi with rfl | rfl | rfl | rfl | rfl | rfl | rfl
  · exact hinst h₃ hfrom (by simpa [Op.operands] using ⟨hsource, hiv⟩)
  · exact hinst h₄ hx (by simpa [Op.operands, Func.tyOf_inst, h₃] using hfrom)
  · exact hinst h₅ hpositive (by simpa [Op.operands, Func.tyOf_inst, h₄] using ⟨hx, hzero⟩)
  · exact hinst h₆ hy
      (by simpa [Op.operands, Func.tyOf_inst, h₄, h₅] using ⟨hpositive, hx, hzero⟩)
  · exact hinst h₇ hto (by simpa [Op.operands] using ⟨htarget, hiv⟩)
  · exact hinst h₈ hstore (by simpa [Op.operands, Func.tyOf_inst, h₆, h₇] using ⟨hy, hto⟩)
  · exact hinst h₉ hleave (by simp [Op.operands])

theorem guarded_func (hd : d.Typed tt) (ht : (d.func ti tq).WellTyped tt) :
    (d.func ti tq).Guarded tt := by
  have hsucc : (d.func ti tq).successors (1 : Nat) = [2, 4] := by cases ti <;> cases tq <;> rfl
  refine guarded_iff.mpr fun i hi _ b hb hs => ?_
  rw [loops_func hi] at hb hs
  change b ∈ (d.func ti tq).successors (1 : Nat) at hs
  rw [hsucc] at hs
  rcases List.mem_pair.mp hs with rfl | rfl
  · exact scalarBlock_func hd ht
  · exact absurd hb (by decide)

theorem vectorizable_func (hd : d.Typed tt) (hs : (d.func ti tq).Sound tt) :
    (d.func ti tq).Vectorizable tt where
  sound := hs
  guarded := guarded_func hd hs.wellTyped
  singleEntry := singleEntry_func

end Relu.Drawing

/-! ## Runs -/

/-- The arguments point to buffers with room for so many numbers each, in regions of their own. -/
def Kernel.Buffered (ns : List Nat) (args : List Datum) (m : Memory) : Prop :=
  m.Addressable ∧ ∃ ps : List Pointer, args = ps.map .ptr ∧
    List.Forall₂ (fun q n => ∃ xs, m.readF32 q n = .ok xs) ps ns ∧ (ps.map Pointer.region).Nodup

/-- Runs that rectify the same numbers leave the same regions. -/
theorem Halt.Rectifies.regions_eq {h h' : Halt} {m : Memory} {q : Pointer} {xs : List F32}
    (hm : m.Addressable) (hr : h.Rectifies m q xs) (hr' : h'.Rectifies m q xs) :
    h.memory.regions = h'.memory.regions := by
  have hwritten {k : Halt} (hk : k.Rectifies m q xs) :
      Written m.regions k.memory.regions [(q, xs.map Relu.rectify)] := by
    have hlt : extentOf k.memory.regions q.region < 2 ^ 63 := hk.extents.2 q.region ▸ hm q.region
    obtain ⟨hspans, hlen, hcells⟩ := (Memory.readF32_eq_ok hlt).mp hk.output
    refine ⟨hk.extents, ?_, ?_, fun r o ho => hk.byteAt_eq r o fun hc => ?_⟩
    · simpa using hspans.sameExtents hk.extents.symm
    · simpa using hcells
    · exact ho _ List.mem_cons_self (by simpa using ⟨hc.1.symm, hc.2⟩)
  exact (hwritten hr).unique (hwritten hr')

namespace Relu.Drawing

variable {d : Drawing} {ti tq : Option TyId} {p q : Program} {id : FuncId} {n : Nat} {g : Func}
  {pl : Pipeline}

section

variable (h : (d.func ti tq).Sturdy p.types) (hd : d.Typed p.types) (hlength : d.length = .ofNat n)
include h hd hlength

/-- A function that rectifies numbers leaves what the scalar function does. -/
theorem runsLike_of_rectifies
    (hg : ∀ {m pin pout xs}, Buffers xs pin pout m.regions → xs.length = n → n < 2 ^ 63 →
      ∃ k, ∀ limit, k ≤ limit → (q.run g [.ptr pin, .ptr pout] m limit).Rectifies m pout xs) :
    p.RunsLike (d.func ti tq) q g (Kernel.Buffered [n, n]) := by
  rintro args m ⟨hm, ps, rfl, hps, hne⟩ limit e m₁ n₁ hrun
  obtain ⟨pin, _, ⟨xs, hin⟩, htail, rfl⟩ := List.forall₂_cons_right_iff.mp hps
  obtain ⟨pout, _, ⟨old, hout⟩, hnil, rfl⟩ := List.forall₂_cons_right_iff.mp htail
  obtain rfl := List.forall₂_nil_right_iff.mp hnil
  obtain ⟨rfl, hb⟩ := buffers_of_readF32 hm hin hout (by simpa using hne)
  have hn : xs.length < 2 ^ 63 := by
    have hroom := hb.input.inBounds.2.1
    have hextent := hb.input.extent_lt
    omega
  -- With more steps the scalar function does the same, and then it rectifies.
  obtain ⟨k, hk⟩ := rectifies_func ti tq hd hb hlength hn
  obtain ⟨k', hk'⟩ := hg hb rfl hn
  obtain ⟨m₂, hrun₂, hregions⟩ :=
    h.orderly.run_eq (p := p) (q := p) rfl (Nat.le_max_left limit k) hrun
  have hrect := (hk (max limit k) (Nat.le_max_right ..)).1
  change (p.run _ (List.map _ [pin, pout]) _ _).Rectifies _ _ _ at hrect
  rw [hrun₂] at hrect
  refine ⟨k', fun limit' hle => ?_⟩
  have hrect' := hk' limit' hle
  generalize hrun' : q.run g [.ptr pin, .ptr pout] m limit' = r at hrect'
  obtain ⟨result, m', steps⟩ := r
  obtain rfl : result = .ok .void := hrect'.result_eq
  obtain rfl : e = .void := Except.ok.inj hrect.result_eq
  refine ⟨m', steps, hrun', fun r hr => ?_⟩
  have hsame : m'.regions = m₂.regions := hrect'.regions_eq hm hrect
  rw [hsame, hregions]

theorem runsLike_wide {config : VectorConfig} (hw : w.Typed config.width q.types)
    (he : p.types.Extends q.types) (hwidth : 0 < config.width) :
    p.RunsLike (d.func ti tq) q (d.wide ti tq w (.ofNat (n % 2 ^ 64 - n % 2 ^ 64 % config.width))
      (.ofNat config.width) (n % 2 ^ 64 % config.width ≠ 0)) (Kernel.Buffered [n, n]) := by
  refine runsLike_of_rectifies h hd hlength fun {m pin pout xs} hb hlen hn => ?_
  subst hlen
  rw [Nat.mod_eq_of_lt (Nat.lt_trans hn (by decide))]
  obtain ⟨k, hk⟩ := rectifies_wide ti tq (hd.extends he) hw hb hlength hn hwidth
  exact ⟨k, fun limit hle => (hk limit hle).1⟩

end

section

variable (h : (d.func ti tq).Sturdy tt) (hc : tt.Closed) (hd : d.Typed tt)
  (hlength : d.length = .ofNat n)
include h hc hd hlength

/-- The basic level with a vectorizer behind it finishes the scalar function. -/
theorem finishes_vectorize (config : VectorConfig) :
    Pipeline.Finishes ⟨OptLevel.basic.pipeline.passes ++ [.vectorize config]⟩ tt (d.func ti tq)
      ((d.func ti tq).KeepsRuns tt (Kernel.Buffered [n, n])) := by
  -- The length is a 64-bit number in the code.
  have hlength' : d.length = .ofNat (n % 2 ^ 64) := by
    rw [hlength]
    refine Int64.toBitVec_inj.mp (BitVec.eq_of_toNat_eq ?_)
    change (Int64.ofNat n).toUInt64.toNat = (Int64.ofNat (n % 2 ^ 64)).toUInt64.toNat
    rw [toNat_ofNat, toNat_ofNat, Nat.mod_mod]
  have hn : n % 2 ^ 64 < 2 ^ 64 := Nat.mod_lt _ (by decide)
  by_cases hfits : 2 ≤ config.width ∧ config.width ≤ n % 2 ^ 64 ∧
      32 * config.width ≤ config.registerBits
  · intro P id hf he hcP
    have hP := h.extends hc he
    obtain ⟨w, hext, hw, hfunc, -⟩ :=
      vectorize_of_fits ti tq (hd.extends he) hlength' hn hfits.1 hfits.2.1 hfits.2.2
    have hsound := ((vectorizable_func (hd.extends he) hP.sound).vectorize config).sound
    rw [hfunc] at hsound
    obtain ⟨c, hresult, hworked, hset, hext'⟩ := plain_func.run_vectorizing hf h.defined
      (vectorizeStuck_func ti tq (hd.extends he) hlength' hn) hfunc plain_wide defined_wide hsound
      vectorize_idle_wide
    refine ⟨_, c, hresult, hworked, hset, ?_⟩
    rintro p q rfl hq
    have hlast := hext'.trans hq
    exact runsLike_wide h hd hlength (hw.extends hlast) ((he.trans hext).trans hlast)
      (Nat.lt_of_lt_of_le Nat.two_pos hfits.1)
  · have hidle : (Pass.vectorize config).Idle tt (d.func ti tq) :=
      ⟨fun _ ht => vectorizeStuck_func ti tq (hd.extends ht) hlength' hn,
        fun _ ht => (vectorize_of_not_fits ti tq (hd.extends ht) hlength' hn hfits).2.2⟩
    exact h.finishes_of_idle hc (plain_func.idle_vectorize hidle)

/-- The scalar function is tame. -/
theorem tame_func : Kernel.Tame tt (d.func ti tq) (Kernel.Buffered [n, n]) := by
  intro tt' he hc' pl hpl
  have h' := h.extends hc he
  have hplain : (d.func ti tq).Plain := plain_func
  rcases hpl.eq with rfl | rfl | ⟨config, rfl⟩
  · exact h'.finishes_of_idle hc' nofun
  · exact h'.finishes_of_idle hc' hplain.idle_basic
  · exact finishes_vectorize h' hc' (hd.extends he) hlength config

end

end Relu.Drawing

/-! ## Generated kernels -/

namespace Kernel

variable {p q r : Program} {id : FuncId} {pl : Pipeline}

theorem exists_plan_of_relu {input output : TyId} {length : Option Nat}
    (hid : (relu p input output length).result = .ok id) :
    ∃ plan, Relu.plan p.types input output length = .ok plan := by
  cases hplan : Relu.plan p.types input output length with
  | error e =>
    rw [relu, hplan] at hid
    cases hid
  | ok plan => exact ⟨plan, rfl⟩

theorem tame_relu {input output : TyId} {length : Option Nat} {plan : Relu.Plan}
    (hplan : Relu.plan p.types input output length = .ok plan) (hdist : p.types.Distinct)
    (hclosed : p.types.Closed) (hid : (relu p input output length).result = .ok id) :
    ∃ f, Added p (relu p input output length).program id f ∧
      Tame (relu p input output length).program.types f (Buffered [plan.length, plan.length]) := by
  obtain ⟨d, ti, tq, hf, hlength, hd⟩ := Relu.exists_drawing hplan hid
  have hgen : relu p input output length = generate p "relu" [plan.input, plan.output]
      (Relu.code plan) (Relu.report plan) := by
    rw [relu, hplan]
  rw [hgen] at hid hf hd ⊢
  obtain ⟨hin, hout⟩ := Relu.plan_eq_ok hplan
  have htys : ∀ o ∈ [plan.input, plan.output], o.ty < p.types.size := by
    simpa using ⟨TensorOperand.ty_lt_of_classify hin, TensorOperand.ty_lt_of_classify hout⟩
  obtain ⟨s, name, -, hadded⟩ := added_generate (Relu.written_code plan) hdist hclosed htys hid
  have heq : ({ s.func with name } : Func) = d.func ti tq :=
    Option.some.inj (hadded.func?_eq.symm.trans hf)
  rw [heq] at hadded
  exact ⟨_, hadded, Relu.Drawing.tame_func hadded.sturdy hadded.closed hd hlength⟩

/-! ## Programs of kernels -/

/-- What is added to a program of kernels: types, declarations and kernels. -/
inductive Adds (p : Program) : Program → Prop
  | types {tt : TypeTable} (he : p.types.Extends tt) (hdist : tt.Distinct) (hclosed : tt.Closed) :
    Adds p { p with types := tt }
  | declare (name : String) (params : Array Param) (ret : TyId) :
    Adds p { p with funcs := p.funcs.push (.declare name params ret) }
  | relu {input output : TyId} {length : Option Nat} {id : FuncId}
    (hid : (relu p input output length).result = .ok id) : Adds p (relu p input output length).program
  | maxPool2d {input output : TyId} {c : MaxPool2d} {id : FuncId}
    (hid : (maxPool2d p input output c).result = .ok id) :
    Adds p (maxPool2d p input output c).program
  | conv2d {input weight output : TyId} {c : Conv2d} {id : FuncId}
    (hid : (conv2d p input weight output c).result = .ok id) :
    Adds p (conv2d p input weight output c).program

/-- A program that has grown from another one, step by step. -/
abbrev Grown : Program → Program → Prop := Relation.ReflTransGen Adds

/-- All definitions of the program are kernels. -/
def OfKernels (q : Program) : Prop :=
  ∃ p : Program, p.types.Distinct ∧ p.types.Closed ∧ (∀ g ∈ p.funcs, g.isDeclaration = true) ∧
    Grown p q

/-- Functions and types keep their numbers from one program to the other. -/
structure Keeps (p q : Program) : Prop where
  types : p.types.Extends q.types
  func?_eq : ∀ j f, p.func? j = some f → q.func? j = some f

theorem Keeps.refl (p : Program) : Keeps p p := ⟨.refl _, fun _ _ hf => hf⟩

theorem Keeps.trans (h : Keeps p q) (h' : Keeps q r) : Keeps p r :=
  ⟨h.types.trans h'.types, fun j f hf => h'.func?_eq j f (h.func?_eq j f hf)⟩

theorem keeps_push (he : p.types.Extends tt) (f : Func) : Keeps p ⟨tt, p.funcs.push f⟩ where
  types := he
  func?_eq j g hg := by
    have hlt : j < p.funcs.size := (Array.getElem?_eq_some_iff.mp hg).1
    rw [Program.func?, Array.getElem?_push, if_neg (Nat.ne_of_lt hlt)]
    exact hg

/-- All definitions of a program are tame. -/
structure Stocked (p : Program) : Prop where
  distinct : p.types.Distinct
  closed : p.types.Closed
  tame : ∀ j f, p.func? j = some f → f.isDeclaration = false → ∃ ok, Tame p.types f ok

theorem Added.keeps {f : Func} (h : Added p q id f) : Keeps p q := by
  have hq : q = ⟨q.types, p.funcs.push f⟩ := by rw [← h.funcs_eq]
  exact hq ▸ keeps_push h.types f

theorem Added.stocked {f : Func} {ok : List Datum → Memory → Prop} (h : Added p q id f)
    (ht : Tame q.types f ok) (hp : Stocked p) : Stocked q where
  distinct := h.distinct
  closed := h.closed
  tame j g hg hd := by
    rw [Program.func?, h.funcs_eq, Array.getElem?_push] at hg
    split at hg
    · cases hg
      exact ⟨ok, ht⟩
    · obtain ⟨ok', ht'⟩ := hp.tame j g hg hd
      exact ⟨ok', ht'.mono h.types⟩

/-- Each step adds tame definitions at most. -/
theorem Adds.stocked (h : Adds p q) (hp : Stocked p) : Stocked q ∧ Keeps p q := by
  -- Only the rectified linear unit asks for a kind of arguments.
  have hany : ∀ {q : Program} {id : FuncId},
      (∃ f, Added p q id f ∧ Tame q.types f fun _ _ => True) → Stocked q ∧ Keeps p q :=
    fun ⟨_, hadded, ht⟩ => ⟨hadded.stocked ht hp, hadded.keeps⟩
  cases h with
  | types he hdist hclosed =>
    refine ⟨⟨hdist, hclosed, fun j f hf hd => ?_⟩, he, fun _ _ hf => hf⟩
    obtain ⟨ok, ht⟩ := hp.tame j f hf hd
    exact ⟨ok, ht.mono he⟩
  | declare name params ret =>
    refine ⟨⟨hp.distinct, hp.closed, fun j f hf hd => ?_⟩, keeps_push (.refl _) _⟩
    rw [Program.func?, Array.getElem?_push] at hf
    split at hf
    · cases hf
      cases hd
    · exact hp.tame j f hf hd
  | @relu input output length id hid =>
    obtain ⟨plan, hplan⟩ := exists_plan_of_relu hid
    obtain ⟨f, hadded, ht⟩ := tame_relu hplan hp.distinct hp.closed hid
    exact ⟨hadded.stocked ht hp, hadded.keeps⟩
  | maxPool2d hid => exact hany (tame_maxPool2d hp.distinct hp.closed hid)
  | conv2d hid => exact hany (tame_conv2d hp.distinct hp.closed hid)

theorem OfKernels.stocked (h : OfKernels q) : Stocked q := by
  obtain ⟨p, hdist, hclosed, hdecl, hgrown⟩ := h
  have hp : Stocked p := ⟨hdist, hclosed, fun j f hf hd => by
    cases hd.symm.trans (hdecl f (Array.mem_of_getElem? hf))⟩
  clear hdist hclosed hdecl
  induction hgrown with
  | refl => exact hp
  | tail _ hstep ih => exact (hstep.stocked ih).1

/-! ## All kernels -/

/-- The pipeline is correct on a function in every program that keeps it.  On the whole program it is
correct if all definitions are kernels. -/
def CorrectIn (pl : Pipeline) (p : Program) (id : FuncId) (ok : List Datum → Memory → Prop) : Prop :=
  ∀ q, Keeps p q → q.types.Closed →
    pl.CorrectOn q id ok ∧ (OfKernels q → pl.Correct q id ok)

theorem Added.correctIn {f : Func} {ok : List Datum → Memory → Prop} (h : Added p q id f)
    (ht : Tame q.types f ok) (hpl : pl.IsPreset) : CorrectIn pl q id ok := by
  intro r hr hc
  have hf : r.func? id = some f := hr.func?_eq _ _ h.func?_eq
  have hfin := (ht.mono hr.types) _ (.refl _) hc pl hpl
  refine ⟨pl.correctOn_of_finishes hc hf hfin, fun hkernels => ?_⟩
  refine pl.correct_of_finishes hc hf h.sturdy.defined hfin fun j g hg hgd => ?_
  obtain ⟨ok', ht'⟩ := hkernels.stocked.tame j g hg hgd
  exact (ht' _ (.refl _) hc pl hpl).weaken fun _ _ _ => trivial

/-- Each preset pipeline, and with it any configuration of the vectorizer, is correct on each kernel,
for all operands and parameters, whatever program it is generated into and whatever is added later.  A
rectified linear unit is given buffers with room for its elements in regions of their own.  The others
are not vectorized, so any arguments do. -/
theorem presets_correct (hdist : p.types.Distinct) (hclosed : p.types.Closed) (hpl : pl.IsPreset) :
    (∀ input output length id, (relu p input output length).result = .ok id →
      ∃ plan, Relu.plan p.types input output length = .ok plan ∧
        CorrectIn pl (relu p input output length).program id (Buffered [plan.length, plan.length])) ∧
    (∀ input output c id, (maxPool2d p input output c).result = .ok id →
      CorrectIn pl (maxPool2d p input output c).program id fun _ _ => True) ∧
    ∀ input weight output c id, (conv2d p input weight output c).result = .ok id →
      CorrectIn pl (conv2d p input weight output c).program id fun _ _ => True := by
  refine ⟨fun input output length id hid => ?_, fun input output c id hid => ?_,
    fun input weight output c id hid => ?_⟩
  · obtain ⟨plan, hplan⟩ := exists_plan_of_relu hid
    obtain ⟨f, hadded, ht⟩ := tame_relu hplan hdist hclosed hid
    exact ⟨plan, hplan, hadded.correctIn ht hpl⟩
  · obtain ⟨f, hadded, ht⟩ := tame_maxPool2d hdist hclosed hid
    exact hadded.correctIn ht hpl
  · obtain ⟨f, hadded, ht⟩ := tame_conv2d hdist hclosed hid
    exact hadded.correctIn ht hpl

/-- A program with a rectified linear unit. -/
def oneKernel : Program := (relu pointers 1 1 (some 11)).program

/-- A convolution is added. -/
def twoKernels : Program :=
  (conv2d oneKernel 1 1 1 ⟨⟨5, 6⟩, ⟨3, 2⟩, ⟨1, 2⟩, ⟨0, 0⟩⟩).program

/-- Pooling is added. -/
def threeKernels : Program := (maxPool2d twoKernels 1 1 ⟨⟨6, 6⟩, ⟨3, 3⟩, ⟨3, 3⟩⟩).program

/-- Eleven elements. -/
def elevenElements : List F32 := List.replicate 11 ⟨0x3f800000⟩

/-- The last level on a program of three kernels, and on each of them alone. -/
theorem presets_correct_threeKernels :
    (pointers.types.Distinct ∧ pointers.types.Closed) ∧
    (oneKernel.types.Distinct ∧ oneKernel.types.Closed) ∧
    (twoKernels.types.Distinct ∧ twoKernels.types.Closed) ∧ OptLevel.full.pipeline.IsPreset ∧
    (relu pointers 1 1 (some 11)).result = .ok 0 ∧
    (conv2d oneKernel 1 1 1 ⟨⟨5, 6⟩, ⟨3, 2⟩, ⟨1, 2⟩, ⟨0, 0⟩⟩).result = .ok 1 ∧
    (maxPool2d twoKernels 1 1 ⟨⟨6, 6⟩, ⟨3, 3⟩, ⟨3, 3⟩⟩).result = .ok 2 ∧
    Buffered [11, 11] [.ptr ⟨0, 0⟩, .ptr ⟨1, 0⟩] (buffers [elevenElements, elevenElements]) ∧
    (OptLevel.full.pipeline.Correct threeKernels 0 (Buffered [11, 11]) ∧
      OptLevel.full.pipeline.CorrectOn threeKernels 0 (Buffered [11, 11])) ∧
    (OptLevel.full.pipeline.Correct threeKernels 1 (fun _ _ => True) ∧
      OptLevel.full.pipeline.CorrectOn threeKernels 1 fun _ _ => True) ∧
    (OptLevel.full.pipeline.Correct threeKernels 2 (fun _ _ => True) ∧
      OptLevel.full.pipeline.CorrectOn threeKernels 2 fun _ _ => True) := by
  have hdist : pointers.types.Distinct := by decide +kernel
  have hclosed : pointers.types.Closed := by decide +kernel
  have hrelu : (relu pointers 1 1 (some 11)).result = .ok 0 := by decide +kernel
  have hconv : (conv2d oneKernel 1 1 1 ⟨⟨5, 6⟩, ⟨3, 2⟩, ⟨1, 2⟩, ⟨0, 0⟩⟩).result = .ok 1 := by
    decide +kernel
  have hpool : (maxPool2d twoKernels 1 1 ⟨⟨6, 6⟩, ⟨3, 3⟩, ⟨3, 3⟩⟩).result = .ok 2 := by
    decide +kernel
  have hplan : Relu.plan pointers.types 1 1 (some 11) =
      .ok ⟨⟨"input", 1, none⟩, ⟨"output", 1, none⟩, 11⟩ := by cbv
  have hbuf : Buffered [11, 11] [.ptr ⟨0, 0⟩, .ptr ⟨1, 0⟩] (buffers [elevenElements, elevenElements]) :=
    ⟨by decide +kernel, [⟨0, 0⟩, ⟨1, 0⟩], rfl,
      .cons ⟨elevenElements, rfl⟩ (.cons ⟨elevenElements, rfl⟩ .nil), by decide⟩
  have hpl : OptLevel.full.pipeline.IsPreset := .level .full
  -- The program grows by one kernel after the other.
  have hempty : Stocked pointers :=
    ⟨hdist, hclosed, fun j f hf => by simp [Program.func?, pointers] at hf⟩
  obtain ⟨hone, hkeep₁⟩ := (Adds.relu hrelu).stocked hempty
  obtain ⟨htwo, hkeep₂⟩ := (Adds.conv2d hconv).stocked hone
  obtain ⟨hthree, hkeep₃⟩ := (Adds.maxPool2d hpool).stocked htwo
  have hall : OfKernels threeKernels := ⟨pointers, hdist, hclosed, by simp [pointers],
    ((Relation.ReflTransGen.single (.relu hrelu)).tail (.conv2d hconv)).tail (.maxPool2d hpool)⟩
  obtain ⟨plan, hplan', hrelu'⟩ := (presets_correct hdist hclosed hpl).1 _ _ _ _ hrelu
  obtain rfl := Except.ok.inj (hplan.symm.trans hplan')
  have hconv' := (presets_correct hone.distinct hone.closed hpl).2.2 _ _ _ _ _ hconv
  have hpool' := (presets_correct htwo.distinct htwo.closed hpl).2.1 _ _ _ _ hpool
  have h₀ := hrelu' threeKernels (hkeep₂.trans hkeep₃) hthree.closed
  have h₁ := hconv' threeKernels hkeep₃ hthree.closed
  have h₂ := hpool' threeKernels (.refl _) hthree.closed
  exact ⟨⟨hdist, hclosed⟩, ⟨hone.distinct, hone.closed⟩, ⟨htwo.distinct, htwo.closed⟩, hpl, hrelu,
    hconv, hpool, hbuf, ⟨h₀.2 hall, h₀.1⟩, ⟨h₁.2 hall, h₁.1⟩, ⟨h₂.2 hall, h₂.1⟩⟩

end Kernel

end LoopNest
