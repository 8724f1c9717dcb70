import LoopNest.Proofs.Kernel.ReluCode
import LoopNest.Proofs.Machine.Arith
import LoopNest.Proofs.Vectorize.Ended
import Mathlib

/-!
# Vectorizing the rectified linear unit

The vectorizer is evaluated on the function of a `Relu.Drawing`.  Its decision depends on the
configuration alone: there must be two lanes or more, an element for each of them, and a register
for all of them.  Then the outcome is `Relu.Drawing.wide`, with a vector loop and, for the rest of
the elements, the old loop (`Relu.Drawing.vectorize_of_fits`).  Otherwise nothing changes
(`Relu.Drawing.vectorize_of_not_fits`).  The pass does not get stuck
(`Relu.Drawing.vectorizeStuck_func`): the loop is anchored, and those of the outcome are marked.
-/

namespace LoopNest

/-! ## Decisions that are made -/

namespace Vectorize

variable {c : Context} {tt tt' : TypeTable} {shapes : LaneShapes} {i : InstId}

/-- A scalar type whose vectors fit a register has a vector type. -/
theorem exists_vectorTy {t : TyId} {s : Scalar} (user : InstId) (hs : tt.shape t = .scalar s)
    (hkind : (s.isFloat || s == .bool) = true)
    (hfits : s.bits * c.config.width ≤ c.config.registerBits) :
    ∃ v tt', vectorTy c t user tt = (.ok v, tt') ∧ tt.Extends tt' ∧
      tt'.shape v = .vector c.config.width s := by
  refine ⟨_, _, ?_, tt.extends_intern _, tt.shape_intern _⟩
  refine bind_eq_ok.mpr ⟨tt, tt, rfl, ?_⟩
  have hkind' : ¬ (!s.isFloat && s != .bool) = true := by
    revert hkind
    cases s.isFloat <;> cases h : s == .bool <;> simp [bne, h]
  rw [TypeTable.elementScalar_of_scalar hs]
  simp only [if_neg hkind', if_neg (Nat.not_lt.mpr hfits)]
  rfl

theorem lowerBody_cons {is : List InstId} {s : LaneShape} {low : Lowering} {tt₁ : TypeTable}
    {steps : List (InstId × Lowering)} (h : lowerInst c shapes i tt = (.ok (s, low), tt₁))
    (hs : lowerBody c ((.inst i, s) :: shapes) is tt₁ = (.ok steps, tt')) :
    lowerBody c shapes (i :: is) tt = (.ok ((i, low) :: steps), tt') :=
  bind_eq_ok.mpr ⟨_, _, h, bind_eq_ok.mpr ⟨_, _, hs, rfl⟩⟩

section

variable {base index ptr l r q x y v : Operand} {t u : TyId} {tt₁ : TypeTable}

theorem lowerInst_gep (hop : c.func.op i = .gep base index)
    (hbase : laneShape c shapes base = .ok .uniform)
    (hindex : laneShape c shapes index = .ok (.index 1)) :
    lowerInst c shapes i tt = (.ok (.address 1, .scalar), tt) := by
  unfold Func.op at hop
  simp only [lowerInst, hop, Op.operands, List.mapM_cons, List.mapM_nil, hbase, hindex]
  rfl

theorem lowerInst_load (hop : c.func.op i = .load ptr)
    (hptr : laneShape c shapes ptr = .ok (.address 1))
    (ht : vectorTy c (c.func.inst i).ty i tt = (.ok t, tt')) :
    lowerInst c shapes i tt = (.ok (.varying, .widen t []), tt') := by
  unfold Func.op at hop
  simp only [lowerInst, hop, Op.operands, List.mapM_cons, List.mapM_nil, hptr]
  exact bind_eq_ok.mpr ⟨_, _, rfl, bind_eq_ok.mpr ⟨_, _, ht, rfl⟩⟩

theorem lowerInst_fcmp {o : FloatPredicate} (hop : c.func.op i = .fcmp o l r)
    (hl : laneShape c shapes l = .ok .varying) (hr : laneShape c shapes r = .ok .uniform)
    (ht : vectorTy c (c.func.inst i).ty i tt = (.ok t, tt₁))
    (hu : vectorTy c (c.func.tyOf r) i tt₁ = (.ok u, tt')) :
    lowerInst c shapes i tt = (.ok (.varying, .widen t [(r, u)]), tt') := by
  unfold Func.op at hop
  simp only [lowerInst, hop, Op.operands, List.mapM_cons, List.mapM_nil, hl, hr]
  refine bind_eq_ok.mpr ⟨_, _, rfl, bind_eq_ok.mpr ⟨_, _, ht, ?_⟩⟩
  exact bind_eq_ok.mpr ⟨_, _, bind_eq_ok.mpr ⟨_, _, hu, rfl⟩, rfl⟩

theorem lowerInst_select (hop : c.func.op i = .select q x y)
    (hq : laneShape c shapes q = .ok .varying) (hx : laneShape c shapes x = .ok .varying)
    (hy : laneShape c shapes y = .ok .uniform)
    (ht : vectorTy c (c.func.inst i).ty i tt = (.ok t, tt₁))
    (hu : vectorTy c (c.func.tyOf y) i tt₁ = (.ok u, tt')) :
    lowerInst c shapes i tt = (.ok (.varying, .widen t [(y, u)]), tt') := by
  unfold Func.op at hop
  simp only [lowerInst, hop, Op.operands, List.mapM_cons, List.mapM_nil, hq, hx, hy]
  refine bind_eq_ok.mpr ⟨_, _, rfl, bind_eq_ok.mpr ⟨_, _, ht, ?_⟩⟩
  exact bind_eq_ok.mpr ⟨_, _, bind_eq_ok.mpr ⟨_, _, hu, rfl⟩, rfl⟩

theorem lowerInst_store (hop : c.func.op i = .store v ptr)
    (hv : laneShape c shapes v = .ok .varying) (hptr : laneShape c shapes ptr = .ok (.address 1))
    (ht : vectorTy c (c.func.tyOf v) i tt = (.ok t, tt')) :
    lowerInst c shapes i tt = (.ok (.uniform, .widen (c.func.inst i).ty []), tt') := by
  unfold Func.op at hop
  simp only [lowerInst, hop, Op.operands, List.mapM_cons, List.mapM_nil, hv, hptr]
  exact bind_eq_ok.mpr ⟨_, _, rfl, bind_eq_ok.mpr ⟨_, _, ht, rfl⟩⟩

end

end Vectorize

/-! ## The vector loop -/

namespace Relu

variable (d : Drawing) (ti tq : Option TyId)

/-- The natural loop of the function. -/
def natural : NaturalLoop := ⟨1, [3], [1, 2, 3]⟩

/-- The same, as a counted loop after `k` casts. -/
def counted (k : Nat) : CountedLoop :=
  ⟨0, 1, 3, 4, [2], 2, k + 1, .const 0, .const 1, 1, k + 2, k + 11⟩

/-- The numbers of the types of the vector loop. -/
structure Wide where
  xTy : TyId
  positiveTy : TyId
  splatTy : TyId
  splatTy' : TyId
  yTy : TyId
  boolTy : TyId
  voidTy : TyId

/-- These types have the right shapes. -/
structure Wide.Typed (w : Wide) (width : Nat) (tt : TypeTable) : Prop where
  x : tt.shape w.xTy = .vector width .f32
  positive : tt.shape w.positiveTy = .vector width .bool
  splat : tt.shape w.splatTy = .vector width .f32
  y : tt.shape w.yTy = .vector width .f32

theorem Wide.Typed.extends {w : Wide} {width : Nat} {tt tt' : TypeTable} (h : w.Typed width tt)
    (he : tt.Extends tt') : w.Typed width tt' where
  x := he.shape_eq h.x (by simp)
  positive := he.shape_eq h.positive (by simp)
  splat := he.shape_eq h.splat (by simp)
  y := he.shape_eq h.y (by simp)

namespace Drawing

/-- The instructions of the vector loop, in the order in which they are built. -/
def vectorCode (w : Wide) (k : Nat) (exit : BlockId) : List Inst :=
  [⟨.phi [(.const 0, 0), (.inst (k + 25), 7)], d.ivTy, some "i.vec.iv", some 5⟩,
    ⟨.icmp .ult (.inst (k + 14)) (.const 4), w.boolTy, some "i.vec.cond", some 5⟩,
    ⟨.condBr (.inst (k + 15)) 6 exit, w.voidTy, none, some 5⟩,
    ⟨.gep (source ti) (.inst (k + 14)), d.xAddrTy, some "x.addr.vec", some 6⟩,
    ⟨.load (.inst (k + 17)), w.xTy, some "x.vec", some 6⟩,
    ⟨.splat (.const 2), w.splatTy, some "i.splat", some 6⟩,
    ⟨.fcmp .ogt (.inst (k + 18)) (.inst (k + 19)), w.positiveTy, some "positive.vec", some 6⟩,
    ⟨.select (.inst (k + 20)) (.inst (k + 18)) (.inst (k + 19)), w.yTy, some "y.vec", some 6⟩,
    ⟨.gep (target ti tq) (.inst (k + 14)), d.yAddrTy, some "y.addr.vec", some 6⟩,
    ⟨.store (.inst (k + 21)) (.inst (k + 22)), d.storeTy, none, some 6⟩,
    ⟨.br 7, w.voidTy, none, some 6⟩,
    ⟨.binary .add (.inst (k + 14)) (.const 5), d.ivTy, some "i.vec.next", some 7⟩,
    ⟨.br 5, w.voidTy, none, some 7⟩]

/-- The function with a vector loop up to an induction value.  The old loop is kept for the rest,
if there is one. -/
def wide (w : Wide) (stop step : Int64) (rest : Bool) : Func :=
  let k := (casts ti tq).length
  { name := d.name
    params := #[⟨"input", d.input, true⟩, ⟨"output", d.output, true⟩]
    ret := d.ret
    blocks := #[⟨"entry", List.range (k + 1), false⟩,
      ⟨"i.header", bif rest then [k + 1, k + 2, k + 10] else [], rest⟩,
      ⟨"i.body", bif rest then [k + 3, k + 4, k + 5, k + 6, k + 7, k + 8, k + 9] else [], false⟩,
      ⟨"i.latch", bif rest then [k + 11, k + 12] else [], false⟩,
      ⟨"i.exit", [k + 13], false⟩,
      ⟨"i.vec.header", [k + 14, k + 15, k + 16], true⟩,
      ⟨"i.vec.body", [k + 17, k + 18, k + 19, k + 20, k + 21, k + 22, k + 23, k + 24], false⟩,
      ⟨"i.vec.latch", [k + 25, k + 26], false⟩] ++
      bif rest then #[⟨"i.vec.middle", [k + 27], false⟩] else #[]
    insts := (casts ti tq ++ (d.code ti tq k 5 (bif rest then (.const 4, 8) else (.const 0, 0)) rest ++
      (d.vectorCode ti tq w k (bif rest then 8 else 4) ++
        bif rest then [(⟨.br 1, w.voidTy, none, some 8⟩ : Inst)] else []))).toArray
    constants := #[⟨d.zeroTy, .int 0⟩, ⟨d.lengthTy, .int d.length⟩, ⟨d.zeroF32Ty, .f32 .zero⟩,
      ⟨d.oneTy, .int 1⟩, ⟨d.ivTy, .int stop⟩, ⟨d.ivTy, .int step⟩]
    layout := bif rest then [0, 5, 6, 7, 8, 1, 2, 3, 4] else [0, 5, 6, 7, 4] }

/-- How the instructions of the body are carried over. -/
def steps (w : Wide) (k : Nat) : List (InstId × Lowering) :=
  [(k + 3, .scalar), (k + 4, .widen w.xTy []),
    (k + 5, .widen w.positiveTy [(.const 2, w.splatTy)]),
    (k + 6, .widen w.yTy [(.const 2, w.splatTy')]), (k + 7, .scalar), (k + 8, .widen d.storeTy [])]

/-- The plan of the vectorizer. -/
def plan (w : Wide) (stop : Int64) (rest : Bool) : VectorPlan :=
  let k := (casts ti tq).length
  { loop := counted k
    steps := d.steps w k
    stop := .constant stop
    epilogue := rest
    ivTy := d.ivTy
    boolTy := w.boolTy
    voidTy := w.voidTy
    base := "i" }

/-! ## Evaluation -/

theorem apply_func (config : VectorConfig) (w : Wide) (v : Int64) (rest : Bool) :
    Vectorize.apply config (d.func ti tq) (d.plan ti tq w v rest) =
      d.wide ti tq w v (.ofNat config.width) rest := by
  unfold Vectorize.apply
  generalize Int64.ofNat config.width = step
  cases ti <;> cases tq <;> cases rest <;> cbv

/-- The graph of the function. -/
def graph : FlowGraph := ⟨[(0, [1]), (1, [2, 4]), (2, [3]), (3, [1]), (4, [])]⟩

theorem ofFunc_func : FlowGraph.ofFunc (d.func ti tq) = graph := by
  cases ti <;> cases tq <;> cbv

theorem recognize_func :
    CountedLoop.recognize (d.func ti tq) graph (.ofGraph graph) natural =
      .ok (counted (casts ti tq).length) := by
  cases ti <;> cases tq <;> cbv

def context (config : VectorConfig) : Vectorize.Context :=
  ⟨d.func ti tq, .ofGraph graph, natural, counted (casts ti tq).length, config⟩

theorem checkStructure_context (config : VectorConfig) :
    Vectorize.checkStructure (d.context ti tq config) = .ok () := by
  cases ti <;> cases tq <;> cbv

theorem checkMemory_context (config : VectorConfig) :
    Vectorize.checkMemory (d.context ti tq config) = .ok () := by
  cases ti <;> cases tq <;> cbv


/-! ## The decision -/

variable {d ti tq} {tt : TypeTable} {config : VectorConfig} {n : Nat}

open Vectorize

theorem vectorEnd_context (hd : d.Typed tt) (hlength : d.length = .ofNat n) (hn : n < 2 ^ 64) :
    vectorEnd (d.context ti tq config) tt =
      if n < config.width then .error (.shortTripCount n)
      else .ok (.constant (.ofNat (n - n % config.width)), n % config.width ≠ 0) := by
  have htrip : (counted (casts ti tq).length).tripCount? tt (d.func ti tq) (.ofGraph graph) natural =
      some (.constant n) := by
    show some (TripCount.constant (stepsBetween
      (((tt.elementScalar? d.zeroTy).getD .i64).lowBits 0)
      (((tt.elementScalar? d.zeroTy).getD .i64).lowBits d.length) 1)) = _
    have hlow : Scalar.i64.lowBits (.ofNat n) = n := by
      rw [Scalar.lowBits_of_width rfl rfl, toNat_ofNat]
      exact Nat.mod_eq_of_lt (by omega)
    rw [TypeTable.elementScalar_of_scalar hd.zero, hlength, Option.getD_some, hlow]
    exact congrArg (some ∘ TripCount.constant) (Nat.div_one n)
  unfold vectorEnd
  have hstart : ((d.func ti tq).intLiteral? (counted (casts ti tq).length).start).getD 0 = 0 := rfl
  simp only [context, htrip, hstart, Int64.zero_add]
  rfl

variable (d ti tq) in
theorem plan_func (config : VectorConfig) (tt : TypeTable) :
    Vectorize.plan config (d.func ti tq) graph (.ofGraph graph) natural tt =
      (Vectorize.ofExcept (vectorEnd (d.context ti tq config) tt) >>= fun e =>
        lowerBody (d.context ti tq config) [(.inst ((casts ti tq).length + 1), .index 1)]
          ((d.func ti tq).body 2).dropLast >>= fun steps =>
        Vectorize.intern (.scalar .bool) >>= fun boolTy => Vectorize.intern .void >>= fun voidTy =>
        (return ⟨counted (casts ti tq).length, steps, e.1, e.2, d.ivTy, boolTy, voidTy, "i"⟩ :
          Planning VectorPlan)) tt := by
  have hstructure := d.checkStructure_context ti tq config
  have hmemory := d.checkMemory_context ti tq config
  have hmark : ((d.func ti tq).block natural.header).vectorized = false := rfl
  have hname : baseName ((d.func ti tq).block (counted (casts ti tq).length).header).name = "i" := by
    show baseName "i.header" = "i"
    decide +kernel
  have hty : (d.func ti tq).tyOf (counted (casts ti tq).length).iv = d.ivTy := by
    cases ti <;> cases tq <;> rfl
  unfold Vectorize.plan
  rw [hmark, d.recognize_func ti tq]
  unfold context at hstructure hmemory
  simp only [hstructure, hmemory, hname, hty]
  rfl

variable (ti tq) in
theorem exists_plan (hd : d.Typed tt) (hlength : d.length = .ofNat n) (hn : n < 2 ^ 64)
    (hwidth : config.width ≤ n) (hfits : 32 * config.width ≤ config.registerBits) :
    ∃ (w : Wide) (tt' : TypeTable),
      Vectorize.plan config (d.func ti tq) graph (.ofGraph graph) natural tt =
        (.ok (d.plan ti tq w (.ofNat (n - n % config.width)) (n % config.width ≠ 0)), tt') ∧
      tt.Extends tt' ∧ w.Typed config.width tt' := by
  have hfits' : 1 * config.width ≤ config.registerBits := by omega
  obtain ⟨xTy, tt₁, hx, he₁, hxs⟩ := exists_vectorTy (c := d.context ti tq config)
    ((casts ti tq).length + 4) hd.x rfl hfits
  have hd₁ := hd.extends he₁
  obtain ⟨pTy, tt₂, hp, he₂, hps⟩ := exists_vectorTy (c := d.context ti tq config)
    ((casts ti tq).length + 5) hd₁.positive rfl hfits'
  have hd₂ := hd₁.extends he₂
  obtain ⟨sTy, tt₃, hs, he₃, hss⟩ := exists_vectorTy (c := d.context ti tq config)
    ((casts ti tq).length + 5) hd₂.zeroF32 rfl hfits
  have hd₃ := hd₂.extends he₃
  obtain ⟨yTy, tt₄, hy, he₄, hys⟩ := exists_vectorTy (c := d.context ti tq config)
    ((casts ti tq).length + 6) hd₃.y rfl hfits
  have hd₄ := hd₃.extends he₄
  obtain ⟨sTy', tt₅, hs', he₅, _⟩ := exists_vectorTy (c := d.context ti tq config)
    ((casts ti tq).length + 6) hd₄.zeroF32 rfl hfits
  have hd₅ := hd₄.extends he₅
  obtain ⟨vTy, tt₆, hv, he₆, _⟩ := exists_vectorTy (c := d.context ti tq config)
    ((casts ti tq).length + 8) hd₅.y rfl hfits
  have hlower : ∀ boolTy voidTy, lowerBody (d.context ti tq config)
      [(.inst ((casts ti tq).length + 1), .index 1)] ((d.func ti tq).body 2).dropLast tt =
      (.ok (d.steps ⟨xTy, pTy, sTy, sTy', yTy, boolTy, voidTy⟩ (casts ti tq).length), tt₆) := by
    intro boolTy voidTy
    cases ti <;> cases tq <;> exact
      lowerBody_cons (lowerInst_gep rfl rfl rfl) (lowerBody_cons (lowerInst_load rfl rfl hx)
        (lowerBody_cons (lowerInst_fcmp rfl rfl rfl hp hs)
        (lowerBody_cons (lowerInst_select rfl rfl rfl rfl hy hs')
        (lowerBody_cons (lowerInst_gep rfl rfl rfl)
        (lowerBody_cons (lowerInst_store rfl rfl rfl hv) rfl)))))
  have heb := tt₆.extends_intern (.scalar .bool)
  have hev := (tt₆.intern (.scalar .bool)).2.extends_intern .void
  have he := heb.trans hev
  refine ⟨⟨xTy, pTy, sTy, sTy', yTy, (tt₆.intern (.scalar .bool)).1,
    ((tt₆.intern (.scalar .bool)).2.intern .void).1⟩,
    ((tt₆.intern (.scalar .bool)).2.intern .void).2, ?_, ?_, ?_⟩
  · rw [plan_func, vectorEnd_context hd hlength hn, if_neg (Nat.not_lt.mpr hwidth)]
    exact bind_eq_ok.mpr ⟨_, _, rfl, bind_eq_ok.mpr ⟨_, _, hlower _ _, rfl⟩⟩
  · exact he₁.trans (he₂.trans (he₃.trans (he₄.trans (he₅.trans (he₆.trans he)))))
  · have h6 := he₆.trans he
    have h5 := he₅.trans h6
    have h4 := he₄.trans h5
    have h3 := he₃.trans h4
    have h2 := he₂.trans h3
    exact {
      x := h2.shape_eq hxs (by simp)
      positive := h3.shape_eq hps (by simp)
      splat := h4.shape_eq hss (by simp)
      y := h5.shape_eq hys (by simp) }


variable (ti tq) in
theorem plan_of_short (hd : d.Typed tt) (hlength : d.length = .ofNat n) (hn : n < 2 ^ 64)
    (hshort : n < config.width) :
    Vectorize.plan config (d.func ti tq) graph (.ofGraph graph) natural tt =
      (.error (.shortTripCount n), tt) := by
  rw [plan_func, vectorEnd_context hd hlength hn, if_pos hshort]
  rfl

variable (ti tq) in
theorem plan_of_narrow (hd : d.Typed tt) (hlength : d.length = .ofNat n) (hn : n < 2 ^ 64)
    (hwidth : config.width ≤ n) (hnarrow : config.registerBits < 32 * config.width) :
    Vectorize.plan config (d.func ti tq) graph (.ofGraph graph) natural tt =
      (.error (.laneTooWide 32), tt) := by
  have hload : vectorTy (d.context ti tq config) d.xTy ((casts ti tq).length + 4) tt =
      (.error (.laneTooWide 32), tt) := by
    refine (bind_of_ok rfl).trans ?_
    rw [TypeTable.elementScalar_of_scalar hd.x]
    exact congrFun (if_pos hnarrow) tt
  rw [plan_func, vectorEnd_context hd hlength hn, if_neg (Nat.not_lt.mpr hwidth)]
  refine (bind_of_ok rfl).trans (bind_of_error ?_)
  cases ti <;> cases tq <;> exact
    (bind_of_ok (lowerInst_gep rfl rfl rfl)).trans (bind_of_error (bind_of_error
      ((bind_of_ok rfl).trans (bind_of_error hload))))


theorem loops_graph : innermostLoops graph = [natural] := by decide +kernel

/-- The graph with a vector loop, with or without a loop for the rest. -/
def wideGraph : Bool → FlowGraph
  | true => ⟨[(0, [5]), (5, [6, 8]), (6, [7]), (7, [5]), (8, [1]), (1, [2, 4]), (2, [3]), (3, [1]),
      (4, [])]⟩
  | false => ⟨[(0, [5]), (5, [6, 4]), (6, [7]), (7, [5]), (4, [])]⟩

theorem ofFunc_wide (w : Wide) (stop step : Int64) (rest : Bool) :
    FlowGraph.ofFunc (d.wide ti tq w stop step rest) = wideGraph rest := by
  cases ti <;> cases tq <;> cases rest <;> rfl

/-- All loops of the outcome are marked. -/
theorem marked_wide {w : Wide} {stop step : Int64} {rest : Bool} :
    ∀ l ∈ innermostLoops (.ofFunc (d.wide ti tq w stop step rest)),
      ((d.wide ti tq w stop step rest).block l.header).vectorized = true := by
  have hloops : ∀ l ∈ innermostLoops (wideGraph rest), l.header = 5 ∨ rest = true ∧ l.header = 1 := by
    cases rest <;> decide +kernel
  rw [ofFunc_wide]
  intro l hl
  rcases hloops l hl with h | ⟨rfl, h⟩
  · rw [h]
    cases ti <;> cases tq <;> cases rest <;> rfl
  · rw [h]
    cases ti <;> cases tq <;> rfl

theorem firstPlan_wide (w : Wide) (stop step : Int64) (rest : Bool) :
    firstPlan config (d.wide ti tq w stop step rest) (wideGraph rest)
      (.ofGraph (wideGraph rest)) (innermostLoops (wideGraph rest)) [1] tt =
      (none, [5, 1], tt, []) := by
  have hloops : innermostLoops (wideGraph rest) =
      ⟨5, [7], [5, 6, 7]⟩ :: if rest then [natural] else [] := by
    cases rest <;> decide +kernel
  have hmarked : Vectorize.plan config (d.wide ti tq w stop step rest) (wideGraph rest)
      (.ofGraph (wideGraph rest)) ⟨5, [7], [5, 6, 7]⟩ tt = (.error .alreadyVectorized, tt) := by
    unfold Vectorize.plan
    rw [if_pos (by cases rest <;> rfl)]
    rfl
  rw [hloops]
  unfold firstPlan
  rw [if_neg (by decide)]
  simp only [hmarked]
  cases rest <;> rfl

theorem sweep_wide (w : Wide) (stop step : Int64) (rest : Bool) (fuel : Nat) :
    sweep config (fuel + 1) [1] tt (d.wide ti tq w stop step rest) =
      ⟨tt, d.wide ti tq w stop step rest, false, []⟩ := by
  rw [sweep_succ, ofFunc_wide]
  simp only [firstPlan_wide]

theorem sweepStuck_wide (w : Wide) (stop step : Int64) (rest : Bool) (fuel : Nat) :
    sweepStuck config (fuel + 1) [1] tt (d.wide ti tq w stop step rest) = false := by
  have hfirst : firstStuck config (d.wide ti tq w stop step rest)
      (.ofFunc (d.wide ti tq w stop step rest)) (.ofGraph (.ofFunc (d.wide ti tq w stop step rest)))
      (innermostLoops (.ofFunc (d.wide ti tq w stop step rest))) [1] tt = false :=
    firstStuck_eq_false _ _ _ fun l hl tt => by rw [planStuck, if_pos (marked_wide l hl)]
  rw [sweepStuck_succ, hfirst, ofFunc_wide]
  simp only [firstPlan_wide, Bool.false_or]

variable (ti tq) in
/-- With enough elements for a vector and registers for the lanes, the loop can be vectorized. -/
theorem firstPlan_of_fits (hd : d.Typed tt) (hlength : d.length = .ofNat n) (hn : n < 2 ^ 64)
    (hwidth : config.width ≤ n) (hfits : 32 * config.width ≤ config.registerBits) :
    ∃ (w : Wide) (tt' : TypeTable),
      firstPlan config (d.func ti tq) graph (.ofGraph graph) (innermostLoops graph) [] tt =
        (some (d.plan ti tq w (.ofNat (n - n % config.width)) (n % config.width ≠ 0)), [], tt', []) ∧
      tt.Extends tt' ∧ w.Typed config.width tt' := by
  obtain ⟨w, tt', hplan, he, hw⟩ := exists_plan ti tq hd hlength hn hwidth hfits
  refine ⟨w, tt', ?_, he, hw⟩
  rw [loops_graph]
  unfold firstPlan
  rw [if_neg (by decide)]
  simp only [hplan]

variable (ti tq) in
/-- Otherwise it cannot. -/
theorem firstPlan_of_not_fits (hd : d.Typed tt) (hlength : d.length = .ofNat n) (hn : n < 2 ^ 64)
    (hnot : ¬ (config.width ≤ n ∧ 32 * config.width ≤ config.registerBits)) :
    ∃ log, firstPlan config (d.func ti tq) graph (.ofGraph graph) (innermostLoops graph) [] tt =
      (none, [1], tt, log) := by
  have hplan : ∃ r, r ≠ .alreadyVectorized ∧ Vectorize.plan config (d.func ti tq) graph
      (.ofGraph graph) natural tt = (.error r, tt) := by
    by_cases hwidth : config.width ≤ n
    · exact ⟨.laneTooWide 32, nofun, plan_of_narrow ti tq hd hlength hn hwidth (by omega)⟩
    · exact ⟨.shortTripCount n, nofun, plan_of_short ti tq hd hlength hn (by omega)⟩
  obtain ⟨r, hr, hplan⟩ := hplan
  rw [loops_graph]
  unfold firstPlan
  rw [if_neg (by decide)]
  simp only [hplan]
  exact ⟨_, rfl⟩

theorem header_plan (w : Wide) (stop : Int64) (rest : Bool) :
    (d.plan ti tq w stop rest).loop.header = 1 := rfl

theorem size_blocks_func : (d.func ti tq).blocks.size = 4 + 1 := rfl

variable (ti tq) in
/-- If the loop can be vectorized, it is. -/
theorem vectorize_of_fits (hd : d.Typed tt) (hlength : d.length = .ofNat n) (hn : n < 2 ^ 64)
    (hlanes : 2 ≤ config.width) (hwidth : config.width ≤ n)
    (hfits : 32 * config.width ≤ config.registerBits) :
    ∃ w : Wide, tt.Extends ((d.func ti tq).vectorize config tt).types ∧
      w.Typed config.width ((d.func ti tq).vectorize config tt).types ∧
      ((d.func ti tq).vectorize config tt).func = d.wide ti tq w (.ofNat (n - n % config.width))
        (.ofNat config.width) (n % config.width ≠ 0) ∧
      ((d.func ti tq).vectorize config tt).changed = true := by
  obtain ⟨w, tt', hfirst, he, hw⟩ := firstPlan_of_fits ti tq hd hlength hn hwidth hfits
  rw [Func.vectorize, if_neg (Nat.not_lt.mpr hlanes), sweep_succ, ofFunc_func]
  simp only [hfirst, apply_func, header_plan, size_blocks_func, sweep_wide]
  exact ⟨w, he, hw, rfl, trivial⟩

variable (ti tq) in
/-- Otherwise nothing happens. -/
theorem vectorize_of_not_fits (hd : d.Typed tt) (hlength : d.length = .ofNat n) (hn : n < 2 ^ 64)
    (hnot : ¬ (2 ≤ config.width ∧ config.width ≤ n ∧ 32 * config.width ≤ config.registerBits)) :
    ((d.func ti tq).vectorize config tt).types = tt ∧
      ((d.func ti tq).vectorize config tt).func = d.func ti tq ∧
      ((d.func ti tq).vectorize config tt).changed = false := by
  unfold Func.vectorize
  split
  · exact ⟨rfl, rfl, rfl⟩
  · obtain ⟨log, hfirst⟩ := firstPlan_of_not_fits ti tq hd hlength hn fun h =>
      hnot ⟨by omega, h.1, h.2⟩
    rw [sweep_succ, ofFunc_func]
    simp only [hfirst, and_self]

/-! ## The pass does not get stuck -/

theorem sequenced_func : (d.func ti tq).Sequenced := by
  cases ti <;> cases tq <;> exact of_decide_eq_true rfl

variable (ti tq) in
theorem vectorizeStuck_func (hd : d.Typed tt) (hlength : d.length = .ofNat n) (hn : n < 2 ^ 64) :
    (d.func ti tq).vectorizeStuck config tt = false := by
  have hfirst : firstStuck config (d.func ti tq) (.ofFunc (d.func ti tq))
      (.ofGraph (.ofFunc (d.func ti tq))) (innermostLoops (.ofFunc (d.func ti tq))) [] tt = false :=
    firstStuck_eq_false _ _ _ fun l hl tt => by
      have hloop := isLoop_of_innermost hl
      exact planStuck_eq_false_of_anchored (sequenced_func.anchored hloop) hloop config tt
  unfold Func.vectorizeStuck
  split
  · rfl
  rw [sweepStuck_succ, hfirst, ofFunc_func, Bool.false_or]
  by_cases hfits : config.width ≤ n ∧ 32 * config.width ≤ config.registerBits
  · obtain ⟨w, tt', hplan, -, -⟩ := firstPlan_of_fits ti tq hd hlength hn hfits.1 hfits.2
    simp only [hplan, apply_func, header_plan, size_blocks_func, sweepStuck_wide]
  · obtain ⟨log, hplan⟩ := firstPlan_of_not_fits ti tq hd hlength hn hfits
    simp only [hplan]

end Drawing

end Relu

end LoopNest
