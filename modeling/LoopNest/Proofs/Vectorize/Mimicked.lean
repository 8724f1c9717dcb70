import LoopNest.Proofs.Machine.Lanes
import LoopNest.Proofs.Machine.Longer
import LoopNest.Proofs.Vectorize.Body
import LoopNest.Proofs.Vectorize.Disjoint

/-!
# The vector body does what the laps do

An operand of the vector body means the values of an operand of the old body in all lanes
(`LaneShape.Means`): a vector has a value for each lane, anything else is the value in the first
lane, from which the others follow by the lane shape.

`Mimics` says that the code emitted so far runs, that it has written the chunks of the old
instructions seen so far, each in all lanes, and that what stands for the old values means them.
Every instruction that is emitted keeps this, so the whole body writes what the laps write
(`Laned.mimicked`).
-/

namespace LoopNest

open Func

/-- The operands of a computation that has a result have values. -/
theorem pureResult_exists_value {tt : TypeTable} {value : Operand → Option Datum}
    {tyOf : Operand → TyId} {ty : TyId} {op : Op} {d : Datum}
    (h : pureResult tt value tyOf ty op = some d) {v : Operand} (hv : v ∈ op.operands) :
    ∃ e, value v = some e := by
  cases op <;> simp only [pureResult, reduceCtorEq] at h
  case bitcast w => exact List.mem_singleton.mp hv ▸ ⟨_, h⟩
  case splat w =>
    obtain ⟨e, he, _⟩ := Option.map_eq_some_iff.mp h
    exact List.mem_singleton.mp hv ▸ ⟨e, he⟩
  case select =>
    split at h
    · simp only [Op.operands, List.mem_cons, List.not_mem_nil, or_false] at hv
      rcases hv with rfl | rfl | rfl <;> exact ⟨_, by assumption⟩
    · cases h
  all_goals
    split at h
    · simp only [Op.operands, List.mem_cons, List.not_mem_nil, or_false] at hv
      rcases hv with rfl | rfl <;> exact ⟨_, by assumption⟩
    · cases h

/-- The operands of an instruction that succeeds have values. -/
theorem Computes.exists_value {tt : TypeTable} {value : Operand → Option Datum}
    {tyOf : Operand → TyId} {ty : TyId} {op : Op} {rs rs' : Array Region} {d : Datum}
    {δ : List Chunk} (h : Computes tt value tyOf ty op rs d δ rs') {v : Operand}
    (hv : v ∈ op.operands) : ∃ e, value v = some e := by
  cases h with
  | alloca => cases hv
  | load hp _ => exact ⟨_, List.mem_singleton.mp hv ▸ hp⟩
  | store hp hd _ _ =>
    rcases List.mem_cons.mp hv with rfl | hv
    · exact ⟨_, hd⟩
    · exact ⟨_, List.mem_singleton.mp hv ▸ hp⟩
  | pure hp => exact pureResult_exists_value hp hv

/-! ## Meanings -/

/-- What stands for a value of the old body, by that value in every lane. -/
def LaneShape.Means (W : Nat) (lane : Nat → Option Datum) : LaneShape → Datum → Prop
  | .varying, d => ∃ a, (∀ t < W, lane t = some (a t)) ∧ d = .lanes W a
  | _, d => lane 0 = some d

theorem LaneShape.means_scalar {W : Nat} {lane : Nat → Option Datum} {d : Datum} {ς : LaneShape}
    (hς : ς ≠ .varying) : ς.Means W lane d ↔ lane 0 = some d := by
  cases ς with
  | varying => exact absurd rfl hς
  | _ => rfl

theorem LaneShape.means_lanes {W : Nat} {lane : Nat → Option Datum} {a : Nat → Datum}
    (h : ∀ t < W, lane t = some (a t)) : LaneShape.varying.Means W lane (.lanes W a) := ⟨a, h, rfl⟩

namespace Vectorize

variable {tt : TypeTable} {c : Context} {args : List Datum} {V : Nat → Values} {X : ChunkTable}
  {base g k : Func} {iv i : InstId} {b : BlockId} {code done : List InstId} {v w : Operand}
  {ρ σ₀ : Values} {rs : Array Region} {shapes : LaneShapes} {s : BodyState} {ς : LaneShape}

/-- An operand has a value that stands for one of the old body. -/
def Meant (tt : TypeTable) (c : Context) (args : List Datum) (V : Nat → Values) (g : Func)
    (ρ : Values) (v : Operand) (ς : LaneShape) (w : Operand) : Prop :=
  ∃ d, g.value tt args ρ w = some d ∧
    LaneShape.Means c.config.width (fun t => c.func.value tt args (V t) v) ς d

theorem Meant.scalar (h : Meant tt c args V g ρ v ς w) (hς : ς ≠ .varying) :
    g.value tt args ρ w = c.func.value tt args (V 0) v := by
  obtain ⟨d, hw, hd⟩ := h
  rw [hw]
  exact ((LaneShape.means_scalar hς).mp hd).symm

theorem Meant.vector (h : Meant tt c args V g ρ v .varying w) :
    ∃ a, (∀ t < c.config.width, c.func.value tt args (V t) v = some (a t)) ∧
      g.value tt args ρ w = some (.lanes c.config.width a) := by
  obtain ⟨_, hw, a, ha, rfl⟩ := h
  exact ⟨a, ha, hw⟩

/-- Appending an instruction and giving it a result keeps the values of operands. -/
theorem value_of_appends {n : List InstId} (happ : Appends b n g k) {t : TyId}
    (ht : g.operandTy w = .ok t) (d : Datum) :
    k.value tt args (ρ.set g.insts.size d) w = g.value tt args ρ w := by
  cases w with
  | inst j => exact Values.set_of_ne (Nat.ne_of_lt (lt_of_operandTy ht).1)
  | param k => rfl
  | const c => simp only [Func.value, Func.constantValue, happ.constants_eq]

theorem Meant.appends {n : List InstId} (h : Meant tt c args V g ρ v ς w)
    (happ : Appends b n g k) {t : TyId} (ht : g.operandTy w = .ok t) (d : Datum) :
    Meant tt c args V k (ρ.set g.insts.size d) v ς w := by
  obtain ⟨e, hw, he⟩ := h
  exact ⟨e, (value_of_appends happ ht d).trans hw, he⟩

theorem widenedShape_of_ne (h : ς ≠ .uniform) : widenedShape ς = ς := by
  cases ς with
  | uniform => exact absurd rfl h
  | _ => rfl

/-! ## One instruction in all lanes -/

/-- An operation on vectors gives the vector of what it gives in the lanes. -/
theorem pureResult_lanes {W : Nat} {value : Operand → Option Datum} {lane : Nat → Operand → Option Datum}
    {tyOf tyOf' : Operand → TyId} {t u : TyId} {op : Op} {r : Nat → Datum}
    (hop : op.isLanewise = true) (helem : tt.elementScalar? u = tt.elementScalar? t)
    (hvec : ∀ v ∈ op.operands, ∃ a, value v = some (.lanes W a) ∧ ∀ t < W, lane t v = some (a t) ∧
      ∀ ds, a t ≠ .vector ds)
    (hlane : ∀ n < W, pureResult tt (lane n) tyOf t op = some (r n)) (hW : 0 < W) :
    pureResult tt value tyOf' u op = some (.lanes W r) := by
  cases op <;> try cases hop
  case binary o x y =>
    obtain ⟨a, hx, ha⟩ := hvec x (by simp [Op.operands])
    obtain ⟨b, hy, hb⟩ := hvec y (by simp [Op.operands])
    simp only [pureResult, hx, hy, helem] at hlane ⊢
    cases hs : tt.elementScalar? t with
    | none => simpa [hs] using hlane 0 hW
    | some s =>
      refine toOption_eq_some.mpr (lanewise_lanes fun n hn => ?_)
      have hres := hlane n hn
      simp only [hs, (ha n hn).1, (hb n hn).1] at hres
      exact (lanewise_of_ne_vector (ha n hn).2).symm.trans (toOption_eq_some.mp hres)
  case fcmp o x y =>
    obtain ⟨a, hx, ha⟩ := hvec x (by simp [Op.operands])
    obtain ⟨b, hy, hb⟩ := hvec y (by simp [Op.operands])
    simp only [pureResult, hx, hy]
    refine toOption_eq_some.mpr (lanewise_lanes fun n hn => ?_)
    have hres := hlane n hn
    simp only [pureResult, (ha n hn).1, (hb n hn).1] at hres
    exact (lanewise_of_ne_vector (ha n hn).2).symm.trans (toOption_eq_some.mp hres)
  case select x y z =>
    obtain ⟨a, hx, ha⟩ := hvec x (by simp [Op.operands])
    obtain ⟨b, hy, hb⟩ := hvec y (by simp [Op.operands])
    obtain ⟨e, hz, he⟩ := hvec z (by simp [Op.operands])
    simp only [pureResult, hx, hy, hz]
    refine toOption_eq_some.mpr (choose_lanes_of_lane (fun n hn => (ha n hn).2) fun n hn => ?_)
    have hres := hlane n hn
    simp only [pureResult, (ha n hn).1, (hb n hn).1, (he n hn).1] at hres
    exact toOption_eq_some.mp hres

theorem byInst_concat {W : Nat} {pre : List InstId} :
    byInst W (pre ++ [i]) X = byInst W pre X ++ (List.range W).flatMap fun t => X t i := by
  rw [byInst_append]
  simp [byInst]

namespace Lanes

variable {steps : List (InstId × Lowering)} {T : LaneShapes} {nb W t : Nat} {made : Origins}
  {x : Int64} {pre post : List InstId} {p : Operand} (h : Laned tt c args steps T)
  (hL : Lanes tt c args nb made rs x W V X)

include hL

/-- The operands of the body have values. -/
theorem exists_operand (ht : t < W) (hi : i ∈ c.code) (hv : v ∈ (c.func.op i).operands) :
    ∃ e, c.func.value tt args (V t) v = some e := by
  obtain ⟨pre, post, hsplit⟩ := List.append_of_mem hi
  obtain ⟨_, _, hc⟩ := hL.tabled t ht pre i post hsplit
  exact hc.exists_value hv

/-- What is no store writes nothing. -/
theorem byInst_of_not_store (hi : i ∈ c.code) (hno : ∀ v p, c.func.op i ≠ .store v p) :
    byInst W (pre ++ [i]) X = byInst W pre X := by
  obtain ⟨pre', post, hsplit⟩ := List.append_of_mem hi
  have hnil : ((List.range W).flatMap fun t => X t i) = [] := by
    refine List.flatMap_eq_nil_iff.mpr fun t ht => ?_
    obtain ⟨_, _, hc⟩ := hL.tabled t (List.mem_range.mp ht) pre' i post hsplit
    exact hc.eq_nil hno
  rw [byInst_concat, hnil, List.append_nil]

include h

/-- An instruction that is the same in every lane does in the vector body what it does in the first
lane. -/
theorem computes_scalar (hsep : Separate c.func args nb) (hW : 0 < W)
    (hsplit : c.code = pre ++ i :: post) (hs : HasShape c T i ς) (hς : ς ≠ .varying)
    (hno : ∀ v p, c.func.op i ≠ .store v p) :
    ∃ d, V 0 i = some d ∧ LoopNest.Computes tt (c.func.value tt args (V 0)) c.func.tyOf
      (c.func.inst i).ty (c.func.op i) (writeChunks rs (byInst W pre X)) d []
      (writeChunks rs (byInst W (pre ++ [i]) X)) := by
  have hi : i ∈ c.code := hsplit ▸ List.mem_append_right _ List.mem_cons_self
  rw [hL.byInst_of_not_store hi hno]
  have hpure (hop : (c.func.op i).isPure = true) : ∃ d, V 0 i = some d ∧
      LoopNest.Computes tt (c.func.value tt args (V 0)) c.func.tyOf (c.func.inst i).ty (c.func.op i)
        (writeChunks rs (byInst W pre X)) d [] (writeChunks rs (byInst W pre X)) := by
    obtain ⟨d, hd⟩ := hL.isSome hW hi
    exact ⟨d, hd, .pure (hL.result hW hi hop hd)⟩
  cases hs with
  | pure hop _ => exact hpure hop
  | load hop hptr =>
    obtain ⟨q, d, hq, hd, hload⟩ := hL.load_byInst h hsep hsplit hop hptr hW
    rw [hop]
    exact ⟨d, hd, .load hq hload⟩
  | store hop _ => exact absurd hop (hno _ _)
  | offset hop _ _ => exact hpure (by rw [hop]; rfl)
  | index hop _ _ => exact hpure (by rw [hop]; rfl)
  | address hop _ _ => exact hpure (by rw [hop]; rfl)
  | varying _ => exact absurd rfl hς

/-- A widened load reads what the laps read. -/
theorem load_lanes (hsep : Separate c.func args nb) (hW : 0 < W) (hW' : W < 2 ^ 32)
    (hsplit : c.code = pre ++ i :: post) (hop : c.func.op i = .load p)
    (hptr : laneShape c T p = .ok (.address 1)) {u : TyId} (hu : VectorOf tt W (c.func.inst i).ty u) :
    ∃ q a, c.func.value tt args (V 0) p = some (.ptr q) ∧ (∀ t < W, V t i = some (a t)) ∧
      (Memory.ofRegions (writeChunks rs (byInst W pre X))).load tt q u = .ok (.lanes W a) := by
  obtain ⟨s, q, hstr, hs, hlane⟩ := hL.strided_load h hsep hW hsplit hop hptr
  choose! a ha hload using hlane
  have hnot : tt.lanes? (c.func.inst i).ty = none := by simp [TypeTable.lanes?, hs]
  obtain ⟨s', hs', _, hvector⟩ := hu.shape_eq hnot
  obtain rfl : s = s' := Shape.scalar.inj (hs.symm.trans hs')
  refine ⟨q, a, hstr.value_zero hW, ha, ?_⟩
  rw [Memory.load, hvector]
  dsimp only
  rw [Memory.loadLanes_of_lane fun t ht => hL.loadScalar_byInst h hsep hW' hstr ht
    (fun j hj => hsplit ▸ List.mem_append_left _ hj) (hload t ht)]
  rfl

/-- A widened store writes what the laps write. -/
theorem store_lanes (hsep : Separate c.func args nb) (hW : 0 < W) (hi : i ∈ c.code)
    (hop : c.func.op i = .store v p) (hptr : laneShape c T p = .ok (.address 1)) {a : Nat → Datum}
    (ha : ∀ t < W, c.func.value tt args (V t) v = some (a t)) (u : TyId) :
    ∃ q, c.func.value tt args (V 0) p = some (.ptr q) ∧
      storeChunks tt u (.lanes W a) q = some ((List.range W).flatMap fun t => X t i) := by
  obtain ⟨s, q, hstr, hlane⟩ := hL.strided_store h hsep hW hi hop hptr
  choose! d bytes hd hbytes hlen hX using hlane
  refine ⟨q, hstr.value_zero hW, ?_⟩
  have hchunks : (List.range W).flatMap (fun t => X t i) =
      (List.range W).map fun t => ⟨q.lane s t, bytes t⟩ := by
    rw [List.flatMap_congr fun t ht => hX t (List.mem_range.mp ht), ← List.map_eq_flatMap]
  rw [hchunks]
  refine storeChunks_lanes fun t ht => ?_
  rw [Option.some.inj ((ha t ht).symm.trans (hd t ht))]
  exact ⟨hbytes t ht, hlen t ht⟩

/-- A widened operation computes what the laps compute. -/
theorem result_lanes (hW : 0 < W) (hi : i ∈ c.code) (hop : (c.func.op i).isLanewise = true)
    {u : TyId} (hu : VectorOf tt W (c.func.inst i).ty u) {value : Operand → Option Datum}
    {tyOf : Operand → TyId}
    (hvalue : ∀ v ∈ (c.func.op i).operands, ∃ a, (∀ t < W, c.func.value tt args (V t) v = some (a t)) ∧
      value v = some (.lanes W a)) :
    ∃ r, (∀ t < W, V t i = some (r t)) ∧ pureResult tt value tyOf u (c.func.op i) =
      some (.lanes W r) := by
  have hpure : (c.func.op i).isPure = true := by
    cases hx : c.func.op i <;> rw [hx] at hop <;> first | rfl | cases hop
  have hmem := List.dropLast_subset _ hi
  have hres : ∀ t < W, ∃ d, V t i = some d := fun t ht => hL.isSome ht hi
  choose! r hr using hres
  obtain ⟨s, hs, _, hvector⟩ := hu.shape_eq (h.body.scalar i hmem).1
  have helem : tt.elementScalar? u = tt.elementScalar? (c.func.inst i).ty := by
    simp [TypeTable.elementScalar?, hs, hvector]
  refine ⟨r, hr, pureResult_lanes hop helem (fun v hv => ?_)
    (fun t ht => hL.result ht hi hpure (hr t ht)) hW⟩
  obtain ⟨a, ha, hv'⟩ := hvalue v hv
  refine ⟨a, hv', fun t ht => ⟨ha t ht, ?_⟩⟩
  exact ((hL.typed t ht).operand h.data h.accepted.wellFormed h.accepted.live hmem hv
    (ha t ht)).ne_vector ((h.body.scalar i hmem).2 v hv)

end Lanes

/-! ## The code so far -/

/-- The code emitted so far runs and writes what the old code seen so far writes in all lanes, and
what stands for old values means them. -/
structure Mimics (tt : TypeTable) (c : Context) (args : List Datum) (rs : Array Region)
    (V : Nat → Values) (X : ChunkTable) (σ₀ : Values) (base : Func) (shapes : LaneShapes)
    (s : BodyState) (done code : List InstId) (ρ : Values) : Prop where
  straight : ∃ δ, Straight tt s.func args code ⟨σ₀, rs⟩ δ
    ⟨ρ, writeChunks rs (byInst c.config.width done X)⟩
  outside : ∀ v, Outside c v → (∃ t, c.func.operandTy v = .ok t) →
    s.func.value tt args ρ v = c.func.value tt args (V 0) v
  renamed : ∀ v ς w, shapes.lookup v = some ς → s.renamed.lookup v = some w →
    Meant tt c args V s.func ρ v ς w
  splatted : ∀ v w, s.splatted.lookup v = some w → Meant tt c args V s.func ρ v .varying w

namespace Mimics

variable {rest : List InstId}

/-- One more instruction. -/
theorem append (h : Mimics tt c args rs V X σ₀ base shapes s done code ρ)
    (hc : Carries tt c iv b base shapes s code) (hsrc : Source tt c base)
    (hb : b < base.blocks.size) {d : Draft}
    (hops : ∀ w ∈ d.op.operands, ∃ t, s.func.operandTy w = .ok t) {r : Datum} {δ : List Chunk}
    {done' : List InstId}
    (hcomp : LoopNest.Computes tt (s.func.value tt args ρ) s.func.tyOf d.ty d.op
      (writeChunks rs (byInst c.config.width done X)) r δ
      (writeChunks rs (byInst c.config.width done' X))) :
    Mimics tt c args rs V X σ₀ base shapes { s with func := (s.func.appendInst b d).2 } done'
      (code ++ [s.func.insts.size]) (ρ.set s.func.insts.size r) := by
  have happ := s.func.appends_appendInst (hc.emits.appends.blocks_size_eq ▸ hb) d
  have hnew : (s.func.appendInst b d).2.inst s.func.insts.size = ⟨d.op, d.ty, d.name, some b⟩ := by
    simp
  generalize (s.func.appendInst b d).2 = k at happ hnew
  have hval : ∀ ρ : Values, k.value tt args ρ = s.func.value tt args ρ := fun ρ => by
    funext w
    cases w with
    | const n => simp only [Func.value, Func.constantValue, happ.constants_eq]
    | _ => rfl
  have htyOf : ∀ w, (∃ t, s.func.operandTy w = .ok t) → k.tyOf w = s.func.tyOf w := by
    rintro w ⟨t, ht⟩
    rw [Typing.tyOf_of_operandTy ht, Typing.tyOf_of_operandTy (happ.keepsTypes.operandTy_eq _ _ ht)]
  have hinst : ∀ i ∈ code, k.inst i = s.func.inst i := fun i hi =>
    happ.inst_eq i ((hc.emits.appends.mem_code i).mp hi).2
  obtain ⟨δ₀, hst⟩ := h.straight
  have hst' : Straight tt k args code ⟨σ₀, rs⟩ δ₀ ⟨ρ, writeChunks rs (byInst c.config.width done X)⟩ := by
    refine hst.congr (fun i hi => ?_) (fun i hi w hw => ?_) fun i _ w _ ρ => by rw [hval]
    · exact ⟨congrArg Inst.op (hinst i hi), congrArg Inst.ty (hinst i hi)⟩
    · obtain ⟨pre, post, hsplit⟩ := List.append_of_mem hi
      exact htyOf w ((hc.emits.emitted pre i post hsplit).operands w hw).typed
  have hcomp' : LoopNest.Computes tt (k.value tt args ρ) k.tyOf (k.inst s.func.insts.size).ty
      (k.op s.func.insts.size) (writeChunks rs (byInst c.config.width done X)) r δ
      (writeChunks rs (byInst c.config.width done' X)) := by
    rw [Func.op, hnew, hval]
    exact hcomp.congr (fun _ _ => rfl) fun w hw => htyOf w (hops w hw)
  refine ⟨⟨_, hst'.concat hcomp'⟩, fun v hout ht => ?_, fun v ς w hv hw => ?_, fun v w hw => ?_⟩
  · obtain ⟨t, ht'⟩ := ht
    have hbase := hsrc.keepsTypes.operandTy_eq _ _ ht'
    rw [value_of_appends happ (hc.emits.appends.keepsTypes.operandTy_eq _ _ hbase)]
    exact h.outside v hout ⟨t, ht'⟩
  · obtain ⟨w', hw', hstands⟩ := hc.renamed v ς hv
    cases hw.symm.trans hw'
    obtain ⟨t, ht⟩ := hstands.ready.typed
    exact (h.renamed v ς w hv hw).appends happ ht r
  · obtain ⟨t, ht⟩ := (hc.splatted v w hw).ready.typed
    exact (h.splatted v w hw).appends happ ht r

/-- What an operand of the next instruction means. -/
theorem meant_rename (h : Mimics tt c args rs V X σ₀ base shapes s done code ρ)
    (hc : Carries tt c iv b base shapes s code) (hsrc : Source tt c base) (hat : At c shapes i rest)
    (hphi : (c.func.op i).isPhi = false) (hv : v ∈ (c.func.op i).operands)
    (hς : laneShape c shapes v = .ok ς) (hval : ∃ e, c.func.value tt args (V 0) v = some e) :
    Meant tt c args V s.func ρ v ς (s.rename v) := by
  cases hlook : shapes.lookup v with
  | some ς' =>
    obtain rfl : ς' = ς := by
      unfold laneShape at hς
      rw [hlook] at hς
      exact Except.ok.inj hς
    obtain ⟨w, hw, _⟩ := hc.renamed v ς' hlook
    rw [BodyState.rename, hw]
    exact h.renamed v ς' w hlook hw
  | none =>
    obtain ⟨hout, rfl⟩ := hsrc.outside hat hphi hv hlook hς
    obtain ⟨e, he⟩ := hval
    rw [BodyState.rename, hc.kept v hlook]
    exact ⟨e, (h.outside v hout ⟨_, hsrc.operandTy_eq hat.mem_body hv⟩).trans he, he⟩

/-- Splatting an operand that is the same in every lane. -/
theorem splat (h : Mimics tt c args rs V X σ₀ base shapes s done code ρ)
    (hc : Carries tt c iv b base shapes s code) (hsrc : Source tt c base)
    (hb : b < base.blocks.size) (hat : At c shapes i rest) (hphi : (c.func.op i).isPhi = false)
    (hv : v ∈ (c.func.op i).operands) (hς : laneShape c shapes v = .ok .uniform) {t : TyId}
    (ht : VectorOf tt c.config.width (c.func.tyOf v) t) {e : Datum} (hW : 0 < c.config.width)
    (hval : ∀ t < c.config.width, c.func.value tt args (V t) v = some e) {name : String}
    {code' : List InstId} (hc' : Carries tt c iv b base shapes (s.splat b name v t) code') :
    ∃ ρ', Mimics tt c args rs V X σ₀ base shapes (s.splat b name v t) done code' ρ' := by
  unfold BodyState.splat at hc' ⊢
  cases hlook : s.splatted.lookup v with
  | some w =>
    simp only [hlook] at hc' ⊢
    rw [hc'.emits.appends.code_unique hc.emits.appends]
    exact ⟨ρ, h⟩
  | none =>
    simp only [hlook] at hc' ⊢
    have happ := s.func.appends_appendInst (hc.emits.appends.blocks_size_eq ▸ hb)
      ⟨.splat (s.rename v), t, some (name ++ ".splat")⟩
    rw [hc'.emits.appends.code_unique (hc.emits.appends.trans happ)]
    have hstands := hc.standsFor_rename hsrc hat hphi hv hς
    have hmeant := h.meant_rename hc hsrc hat hphi hv hς ⟨e, hval 0 hW⟩
    obtain ⟨x, _, _, hvector⟩ := ht.shape_eq ((hsrc.scalar i hat.mem_body).2 v hv)
    have hres : pureResult tt (s.func.value tt args ρ) s.func.tyOf t (.splat (s.rename v)) =
        some (.lanes c.config.width fun _ => e) := by
      rw [pureResult, hmeant.scalar (by simp), hval 0 hW, Datum.lanes_const, Option.map_some,
        TypeTable.lanes_eq_some.mpr ⟨x, hvector⟩]
      rfl
    have hm := h.append hc hsrc hb (d := ⟨.splat (s.rename v), t, some (name ++ ".splat")⟩)
      (fun w hw => List.mem_singleton.mp hw ▸ hstands.ready.typed) (.pure hres)
    refine ⟨_, hm.straight, hm.outside, hm.renamed, fun x w hx => ?_⟩
    rw [List.lookup_cons] at hx
    split at hx
    · rename_i heq
      obtain rfl := eq_of_beq heq
      cases hx
      exact ⟨_, Values.set_self _ _ _, _, hval, rfl⟩
    · exact hm.splatted x w hx

/-- Splatting the uniform operands of an instruction. -/
theorem splats (hsrc : Source tt c base) (hb : b < base.blocks.size) (hat : At c shapes i rest)
    (hphi : (c.func.op i).isPhi = false) (hW : 0 < c.config.width) {name : String} :
    ∀ {splats : List (Operand × TyId)} {s : BodyState} {code code' : List InstId} {ρ : Values},
    Mimics tt c args rs V X σ₀ base shapes s done code ρ → Carries tt c iv b base shapes s code →
    (∀ v u, (v, u) ∈ splats → v ∈ (c.func.op i).operands ∧ laneShape c shapes v = .ok .uniform ∧
      VectorOf tt c.config.width (c.func.tyOf v) u) →
    (∀ v u, (v, u) ∈ splats → ∃ e, ∀ t < c.config.width, c.func.value tt args (V t) v = some e) →
    Carries tt c iv b base shapes (splats.foldl (fun s (v, t) => s.splat b name v t) s) code' →
    ∃ ρ', Mimics tt c args rs V X σ₀ base shapes
      (splats.foldl (fun s (v, t) => s.splat b name v t) s) done code' ρ'
  | [], s, code, code', ρ, h, hc, _, _, hc' => by
    rw [hc'.emits.appends.code_unique hc.emits.appends]
    exact ⟨ρ, h⟩
  | (v, t) :: splats, s, code, code', ρ, h, hc, hfrom, huni, hc' => by
    obtain ⟨hv, hς, ht⟩ := hfrom v t List.mem_cons_self
    obtain ⟨e, he⟩ := huni v t List.mem_cons_self
    obtain ⟨code₁, hc₁, _⟩ := hc.splat hsrc hb hat hphi hv hς ht name
    obtain ⟨ρ₁, h₁⟩ := h.splat hc hsrc hb hat hphi hv hς ht hW he hc₁
    have hrest := Mimics.splats hsrc hb hat hphi hW h₁ hc₁
      (fun x u hx => hfrom x u (List.mem_cons_of_mem _ hx))
      (fun x u hx => huni x u (List.mem_cons_of_mem _ hx)) hc'
    exact hrest

/-- What an operand of a widened instruction means. -/
theorem meant_widened (h : Mimics tt c args rs V X σ₀ base shapes s done code ρ)
    (hc : Carries tt c iv b base shapes s code) (hsrc : Source tt c base) (hat : At c shapes i rest)
    (hphi : (c.func.op i).isPhi = false) {splats : List (Operand × TyId)}
    (hfrom : ∀ v u, (v, u) ∈ splats → v ∈ (c.func.op i).operands ∧
      laneShape c shapes v = .ok .uniform ∧ VectorOf tt c.config.width (c.func.tyOf v) u)
    (hall : ∀ v ∈ (c.func.op i).operands, laneShape c shapes v = .ok .uniform → ∃ u, (v, u) ∈ splats)
    (hdone : ∀ v u, (v, u) ∈ splats → (s.splatted.lookup v).isSome)
    (hv : v ∈ (c.func.op i).operands) (hς : laneShape c shapes v = .ok ς)
    (hval : ∃ e, c.func.value tt args (V 0) v = some e) :
    Meant tt c args V s.func ρ v (widenedShape ς) (s.widened splats v) := by
  unfold BodyState.widened
  split
  · rename_i hsome
    obtain ⟨⟨x, u⟩, hmem, heq⟩ := List.lookup_isSome_iff.mp hsome
    obtain rfl : v = x := eq_of_beq heq
    obtain ⟨_, huni, _⟩ := hfrom v u hmem
    rw [hς] at huni
    cases huni
    obtain ⟨w, hw⟩ := Option.isSome_iff_exists.mp (hdone v u hmem)
    rw [hw]
    exact h.splatted v w hw
  · rename_i hnone
    have hne : ς ≠ .uniform := by
      rintro rfl
      obtain ⟨u, hu⟩ := hall v hv hς
      exact hnone (List.lookup_isSome_iff.mpr ⟨_, hu, beq_self_eq_true v⟩)
    rw [widenedShape_of_ne hne]
    exact h.meant_rename hc hsrc hat hphi hv hς hval

/-- Adding the counterpart of an instruction. -/
theorem add (h : Mimics tt c args rs V X σ₀ base shapes s done code ρ)
    (hc : Carries tt c iv b base shapes s code) (hsrc : Source tt c base)
    (hb : b < base.blocks.size) {op : Op} {t : TyId}
    (hops : ∀ w ∈ op.operands, ∃ t, s.func.operandTy w = .ok t) {r : Datum} {δ : List Chunk}
    {done' : List InstId}
    (hcomp : LoopNest.Computes tt (s.func.value tt args ρ) s.func.tyOf t op
      (writeChunks rs (byInst c.config.width done X)) r δ
      (writeChunks rs (byInst c.config.width done' X)))
    (hr : ς.Means c.config.width (fun t => V t i) r) {code' : List InstId}
    (hc' : Carries tt c iv b base ((.inst i, ς) :: shapes) (s.add b i op t) code') :
    ∃ ρ', Mimics tt c args rs V X σ₀ base ((.inst i, ς) :: shapes) (s.add b i op t) done' code'
      ρ' := by
  have happ := s.func.appends_appendInst (hc.emits.appends.blocks_size_eq ▸ hb)
    ⟨op, t, (s.func.inst i).name.map (· ++ ".vec")⟩
  rw [hc'.emits.appends.code_unique (hc.emits.appends.trans happ)]
  have hm := h.append hc hsrc hb (d := ⟨op, t, (s.func.inst i).name.map (· ++ ".vec")⟩) hops hcomp
  refine ⟨_, hm.straight, hm.outside, fun x ς' w hx hw => ?_, hm.splatted⟩
  simp only [BodyState.add, List.lookup_cons] at hx hw
  split at hx
  · rename_i heq
    simp only [heq] at hw
    obtain rfl := eq_of_beq heq
    cases hx
    cases hw
    exact ⟨r, Values.set_self _ _ _, hr⟩
  · rename_i heq
    simp only [heq] at hw
    exact hm.renamed x ς' w hx hw

section

variable {steps : List (InstId × Lowering)} {T : LaneShapes} {nb : Nat} {made : Origins}
  {x : Int64} {post : List InstId} {low : Lowering} {name : String} {code' : List InstId}
  (hla : Laned tt c args steps T) (hL : Lanes tt c args nb made rs x c.config.width V X)
  (hsep : Separate c.func args nb) (hW : 0 < c.config.width)

include hla hL hsep hW

/-- Carrying over an instruction that stays scalar. -/
theorem step_scalar (h : Mimics tt c args rs V X σ₀ base shapes s done code ρ)
    (hc : Carries tt c iv b base shapes s code) (hsrc : Source tt c base)
    (hb : b < base.blocks.size) (hat : At c shapes i rest) (hsplit : c.code = done ++ i :: post)
    (hl : Lowers tt c shapes i ς .scalar) (hs : HasShape c T i ς)
    (hno : ∀ v p, c.func.op i ≠ .store v p)
    (hc' : Carries tt c iv b base ((.inst i, ς) :: shapes) (s.step b name i .scalar) code') :
    ∃ ρ', Mimics tt c args rs V X σ₀ base ((.inst i, ς) :: shapes) (s.step b name i .scalar)
      (done ++ [i]) code' ρ' := by
  cases hl with
  | scalar hphi _ hς hshapes =>
    have hi : i ∈ c.code := hsplit ▸ List.mem_append_right _ List.mem_cons_self
    have hinst : s.func.inst i = c.func.inst i := by
      obtain ⟨hlt, heq⟩ := hsrc.inst_eq i hat.mem_body
      rw [hc.emits.appends.inst_eq i hlt, heq]
    have hmeant : ∀ v ∈ (c.func.op i).operands,
        s.func.value tt args ρ (s.rename v) = c.func.value tt args (V 0) v ∧
        s.func.operandTy (s.rename v) = .ok (c.func.tyOf v) := fun v hv => by
      obtain ⟨ς', hς', hne⟩ := hshapes v hv
      exact ⟨(h.meant_rename hc hsrc hat hphi hv hς' (hL.exists_operand hW hi hv)).scalar hne,
        (hc.standsFor_rename hsrc hat hphi hv hς').scalar hne⟩
    obtain ⟨d, hd, hcomp⟩ := hL.computes_scalar hla hsep hW hsplit hs hς hno
    simp only [BodyState.step] at hc' ⊢
    rw [hinst] at hc' ⊢
    refine h.add hc hsrc hb (fun w hw => ?_) (Computes.mapOperands (hcomp.congr (fun v hv => ?_) fun v hv => ?_))
      ((LaneShape.means_scalar hς).mpr hd) hc'
    · rw [Op.operands_mapOperands] at hw
      obtain ⟨v, hv, rfl⟩ := List.mem_map.mp hw
      exact ⟨_, (hmeant v hv).2⟩
    · exact (hmeant v hv).1
    · exact Typing.tyOf_of_operandTy (hmeant v hv).2

/-- Carrying over an instruction that becomes one on vectors. -/
theorem step_widen {t : TyId} {splats : List (Operand × TyId)} (hW' : c.config.width < 2 ^ 32)
    (h : Mimics tt c args rs V X σ₀ base shapes s done code ρ)
    (hc : Carries tt c iv b base shapes s code) (hsrc : Source tt c base)
    (hb : b < base.blocks.size) (hat : At c shapes i rest) (hsplit : c.code = done ++ i :: post)
    (hl : Lowers tt c shapes i ς (.widen t splats))
    (hT : ∀ v ∈ (c.func.op i).operands, laneShape c T v = laneShape c shapes v)
    (hc' : Carries tt c iv b base ((.inst i, ς) :: shapes) (s.step b name i (.widen t splats)) code') :
    ∃ ρ', Mimics tt c args rs V X σ₀ base ((.inst i, ς) :: shapes)
      (s.step b name i (.widen t splats)) (done ++ [i]) code' ρ' := by
  have hi : i ∈ c.code := hsplit ▸ List.mem_append_right _ List.mem_cons_self
  have hphi := hl.not_isPhi.1
  obtain ⟨hfrom, hall, hshapes⟩ := hl.splats
  obtain ⟨code₁, hc₁, hdone, _⟩ := Carries.splats hsrc hb hat hphi name hc hfrom
  have huni : ∀ v u, (v, u) ∈ splats → ∃ e, ∀ t < c.config.width,
      c.func.value tt args (V t) v = some e := fun v u hmem => by
    obtain ⟨hv, hς, _⟩ := hfrom v u hmem
    obtain ⟨e, he⟩ := hL.exists_operand hW hi hv
    exact ⟨e, fun t ht => (hL.value_uniform hla hsep hi hv ((hT v hv).trans hς) ht).trans he⟩
  obtain ⟨ρ₁, h₁⟩ := Mimics.splats hsrc hb hat hphi hW h hc hfrom huni hc₁
  simp only [BodyState.step] at hc' ⊢
  generalize splats.foldl (fun s (v, t) => s.splat b name v t) s = s₁ at hc₁ h₁ hdone hc' ⊢
  have hop : s₁.func.op i = c.func.op i := by
    obtain ⟨hlt, heq⟩ := hsrc.inst_eq i hat.mem_body
    rw [hc₁.emits.appends.op_eq hlt]
    exact congrArg Inst.op heq
  have hmeant {v ς} (hv : v ∈ (c.func.op i).operands) (hς : laneShape c shapes v = .ok ς) :=
    h₁.meant_widened hc₁ hsrc hat hphi hfrom hall hdone hv hς (hL.exists_operand hW hi hv)
  have htyped : ∀ w ∈ ((c.func.op i).mapOperands (s₁.widened splats)).operands,
      ∃ t, s₁.func.operandTy w = .ok t := fun w hw => by
    rw [Op.operands_mapOperands] at hw
    obtain ⟨v, hv, rfl⟩ := List.mem_map.mp hw
    obtain ⟨ς', hς'⟩ := hshapes v hv
    exact (hc₁.standsFor_widened hsrc hat hphi hfrom hall hdone v hv hς').ready.typed
  rw [hop] at hc' ⊢
  cases hl with
  | @load p _ hload hptr ht =>
    have hp : p ∈ (c.func.op i).operands := by simp [hload, Op.operands]
    obtain ⟨q, a, hq, ha, hread⟩ := hL.load_lanes hla hsep hW hW' hsplit hload ((hT p hp).trans hptr) ht
    have hval := (hmeant hp hptr).scalar (by simp [widenedShape])
    rw [hload] at htyped hc' ⊢
    refine h₁.add hc₁ hsrc hb htyped (δ := []) ?_ (LaneShape.means_lanes ha) hc'
    rw [hL.byInst_of_not_store hi (by simp [hload])]
    exact .load (hval.trans hq) hread
  | @store v p u _ hstore hptr hu hv =>
    have hvmem : v ∈ (c.func.op i).operands := by simp [hstore, Op.operands]
    have hpmem : p ∈ (c.func.op i).operands := by simp [hstore, Op.operands]
    have hvec : Meant tt c args V s₁.func ρ₁ v .varying (s₁.widened splats v) := by
      rcases hv with ⟨hς, _⟩ | ⟨hς, _⟩
      · exact hmeant hvmem hς
      · exact hmeant hvmem hς
    obtain ⟨a, ha, hval⟩ := hvec.vector
    obtain ⟨q, hq, hchunks⟩ := hL.store_lanes hla hsep hW hi hstore ((hT p hpmem).trans hptr) ha
      (s₁.func.tyOf (s₁.widened splats v))
    have hptr' := (hmeant hpmem hptr).scalar (by simp [widenedShape])
    obtain ⟨d, hd, hcomp⟩ := hL.tabled 0 hW done i post hsplit
    rw [hstore] at hcomp
    obtain ⟨rfl, _⟩ := hcomp.of_store
    rw [hstore] at htyped hc' ⊢
    refine h₁.add hc₁ hsrc hb htyped (δ := (List.range c.config.width).flatMap fun t => X t i) ?_
      ((LaneShape.means_scalar (by simp)).mpr hd) hc'
    rw [byInst_concat, writeChunks_append]
    refine .store (hptr'.trans hq) hval hchunks fun e he => ?_
    obtain ⟨t, ht, he⟩ := List.mem_flatMap.mp he
    exact (sameExtents_writeChunks _ rs).fits.mp (hL.fits (List.mem_range.mp ht) hi he)
  | @lanewise _ _ hlane ht hops hsplats =>
    have hvec : ∀ v ∈ (c.func.op i).operands,
        Meant tt c args V s₁.func ρ₁ v .varying (s₁.widened splats v) := fun v hv => by
      rcases hops v hv with hς | ⟨hς, _⟩
      · exact hmeant hv hς
      · exact hmeant hv hς
    obtain ⟨r, hr, hres⟩ : ∃ r, (∀ t < c.config.width, V t i = some (r t)) ∧
        pureResult tt (s₁.func.value tt args ρ₁ ∘ s₁.widened splats)
          (s₁.func.tyOf ∘ s₁.widened splats) _ (c.func.op i) = some (.lanes c.config.width r) :=
      hL.result_lanes hla hW hi hlane ht fun v hv => (hvec v hv).vector
    refine h₁.add hc₁ hsrc hb htyped (δ := []) ?_ (LaneShape.means_lanes hr) hc'
    rw [hL.byInst_of_not_store hi fun v p hstore => by rw [hstore] at hlane; cases hlane]
    exact Computes.mapOperands (.pure hres)

variable (name) in
/-- Carrying the body over. -/
theorem body (hW' : c.config.width < 2 ^ 32) (hsrc : Source tt c base) (hb : b < base.blocks.size) {last : InstId}
    {is : List InstId} {todo : List (InstId × Lowering)} (hdec : Decides tt c T shapes is todo) :
    ∀ {s : BodyState} {done code code' : List InstId} {ρ : Values},
    Mimics tt c args rs V X σ₀ base shapes s done code ρ → Carries tt c iv b base shapes s code →
    c.func.body c.loop.bodyEntry = done ++ (is ++ [last]) →
    (∀ j ∈ done, shapes.lookup (.inst j) ≠ none) →
    (∃ shapes', Carries tt c iv b base shapes' (todo.foldl (fun s (i, low) => s.step b name i low) s) code') →
    ∃ shapes' ρ', Mimics tt c args rs V X σ₀ base shapes'
      (todo.foldl (fun s (i, low) => s.step b name i low) s) (done ++ is) code' ρ' := by
  induction hdec with
  | nil =>
    rintro s done code code' ρ h hc _ _ ⟨shapes', hc'⟩
    rw [hc'.emits.appends.code_unique hc.emits.appends, List.append_nil]
    exact ⟨_, ρ, h⟩
  | @cons shapes i is ς low todo hl hs hT hstore _ ih =>
    intro s done code code' ρ h hc hbody hdone hc'
    have hat : At c shapes i (is ++ [last]) := ⟨done, by simpa using hbody, hdone⟩
    have hsplit : c.code = done ++ i :: is := by
      rw [Context.code, hbody, ← List.append_assoc, List.dropLast_concat]
    obtain ⟨code₁, hc₁⟩ := hc.step hsrc hb hat hl name
    have h₁ : ∃ ρ₁, Mimics tt c args rs V X σ₀ base ((.inst i, ς) :: shapes) (s.step b name i low)
        (done ++ [i]) code₁ ρ₁ := by
      cases low with
      | scalar =>
        exact h.step_scalar hla hL hsep hW hc hsrc hb hat hsplit hl hs
          (fun v p hop => hstore v p hop rfl) hc₁
      | widen t splats => exact h.step_widen hla hL hsep hW hW' hc hsrc hb hat hsplit hl hT hc₁
    obtain ⟨ρ₁, h₁⟩ := h₁
    have hrest := ih h₁ hc₁ (by simpa using hbody) (fun j hj => ?_) hc'
    · rwa [List.append_assoc] at hrest
    · rw [List.lookup_cons]
      split
      · intro h
        cases h
      · rename_i hne
        rcases List.mem_append.mp hj with hj | hj
        · exact hdone j hj
        · rw [List.mem_singleton.mp hj, beq_self_eq_true] at hne
          cases hne

end

end Mimics

/-- The body of the vector loop runs where the old body runs in consecutive laps, and writes what
they write. -/
theorem mimicked_of_emission {p : VectorPlan} {n : VectorLoop} {f : Func} {T : LaneShapes} {nb : Nat}
    {made : Origins} {x : Int64} (hem : Emission p n f base g) (hsrc : Source tt c base)
    (hloop : c.loop = p.loop) (hla : Laned tt c args p.steps T)
    (hL : Lanes tt c args nb made rs x c.config.width V X) (hsep : Separate c.func args nb)
    (hW : 0 < c.config.width) (hW' : c.config.width < 2 ^ 32) (htys : ∀ t ∈ base.tys, t < tt.size)
    (hivTy : p.ivTy = c.func.tyOf p.loop.iv)
    (hconst : ∀ i ∈ n.code, ∀ k, Operand.const k ∈ (g.op i).operands →
      g.constants[k]? = base.constants[k]?)
    (hiv : σ₀ n.iv = some (.int x))
    (hout : ∀ v, Outside c v → (∃ t, c.func.operandTy v = .ok t) →
      base.value tt args σ₀ v = c.func.value tt args (V 0) v) :
    ∃ δ σ, Straight tt g args n.code ⟨σ₀, rs⟩ δ
      ⟨σ, writeChunks rs (byLap c.config.width c.code X)⟩ := by
  obtain ⟨⟨shapes, hc⟩, hkeeps, hinst⟩ := carries_of_emission hem hsrc
    (hloop ▸ hla.decides.lowersAll) htys hivTy
  -- So far there is the induction value only, in the first lane.
  have hinit : Mimics tt c args rs V X σ₀ base [(c.loop.iv, .index 1)]
      ⟨base, [(c.loop.iv, .inst n.iv)], []⟩ [] [] σ₀ := by
    refine ⟨⟨[], .nil⟩, hout, fun v ς w hv hw => ?_, fun v w h => by cases h⟩
    rw [List.lookup_cons] at hv hw
    split at hv
    · rename_i heq
      obtain rfl := eq_of_beq heq
      rw [beq_self_eq_true] at hw
      cases hv
      cases hw
      refine ⟨.int x, hiv, ?_⟩
      have := hL.counts 0 hW
      rwa [show Int64.ofNat 0 = 0 from rfl, Int64.add_zero] at this
    · cases hv
  obtain ⟨t, ht⟩ := hsrc.sound.wellFormed.ends _ hsrc.live
  obtain ⟨⟨front, hbody⟩, _⟩ := terminator?_eq_some.mp ht
  have hcode : c.code = front := by rw [Context.code, hbody, List.dropLast_concat]
  have hdec := hla.decides
  rw [hcode] at hdec
  obtain ⟨_, σ, hm⟩ := hinit.body p.base hla hL hsep hW hW' hsrc hem.body_lt hdec
    (.nil htys (hloop ▸ hivTy ▸ hem.iv_ty)) (by rw [hbody]; rfl)
    (fun _ h => by cases h) ⟨shapes, by rw [hloop]; exact hc⟩
  rw [List.nil_append, ← hcode, hloop] at hm
  obtain ⟨δ, hst⟩ := hm.straight
  rw [hL.regions_byInst hla hsep hW'] at hst
  refine ⟨δ, σ, hst.congr hinst (fun i hi w hw => ?_) fun i hi w hw ρ => ?_⟩
  · obtain ⟨pre, post, hsplit⟩ := List.append_of_mem hi
    obtain ⟨u, hu⟩ := ((hc.emits.emitted pre i post hsplit).operands w hw).typed
    rw [Typing.tyOf_of_operandTy hu, Typing.tyOf_of_operandTy (hkeeps.operandTy_eq _ _ hu)]
  · cases w with
    | const k =>
      simp only [Func.value, Func.constantValue]
      rw [hconst i hi k ((hinst i hi).1 ▸ hw), hc.emits.appends.constants_eq]
    | _ => rfl

end Vectorize

end LoopNest
