import LoopNest.Proofs.Vectorize.Prepared

/-!
# What the body of a vector loop is made of

Whatever the types are, the body of a vector loop has a counterpart of each instruction of the old
body, and splats.  `Copies` follows this through the instructions that are carried over.  The code
uses what is computed in the vector loop and what the old body uses, and it uses the latter in full:
an operand of the old body that nothing stands for is an operand of the new body, or of a splat in
it.  So a value of another loop that is used in the old body is used in the new one.
-/

namespace LoopNest

open Func

/-- The types that carrying an instruction over brings. -/
def Lowering.tys : Lowering → List TyId
  | .scalar => []
  | .widen t splats => t :: splats.map Prod.snd

/-- The types that vectorizing as planned brings. -/
def VectorPlan.tys (p : VectorPlan) : List TyId :=
  p.ivTy :: p.boolTy :: p.voidTy :: p.steps.flatMap fun s => s.2.tys

namespace Vectorize

variable {base g : Func} {b : BlockId} {old iv i : InstId} {code done : List InstId}
  {srcs : List InstId} {T : List TyId} {s : BodyState} {v w : Operand}

/-- A value that is computed in the vector loop. -/
def Inside (iv : InstId) (code : List InstId) (w : Operand) : Prop :=
  ∃ j, w = .inst j ∧ (j = iv ∨ j ∈ code)

theorem Inside.append {code' : List InstId} (h : Inside iv code w) : Inside iv (code ++ code') w := by
  obtain ⟨j, rfl, hj⟩ := h
  exact ⟨j, rfl, hj.imp_right (List.mem_append_left _)⟩

/-- A value that the vector loop computes, or that the old body uses. -/
def Sourced (iv : InstId) (base : Func) (srcs code : List InstId) (w : Operand) : Prop :=
  Inside iv code w ∨ ∃ j ∈ srcs, w ∈ (base.op j).operands

theorem Sourced.append {code' : List InstId} (h : Sourced iv base srcs code w) :
    Sourced iv base srcs (code ++ code') w := h.imp_left Inside.append

/-- An instruction of the old body, and a way to carry it over that splats operands of it only. -/
structure Fits (base : Func) (i : InstId) (low : Lowering) : Prop where
  lt : i < base.insts.size
  not_isPhi : (base.op i).isPhi = false
  not_isTerminator : (base.op i).isTerminator = false
  splats : ∀ t splats, low = .widen t splats → ∀ e ∈ splats, e.1 ∈ (base.op i).operands

section

variable {tt : TypeTable} {c : Context} {shapes : LaneShapes} {σ : LaneShape} {low : Lowering}
  {is : List InstId} {steps : List (InstId × Lowering)}

theorem Lowers.not_isPhi (h : Lowers tt c shapes i σ low) :
    (c.func.op i).isPhi = false ∧ (c.func.op i).isTerminator = false := by
  cases h with
  | scalar hphi hterm _ _ => exact ⟨hphi, hterm⟩
  | load hop _ _ =>
    rw [hop]
    exact ⟨rfl, rfl⟩
  | store hop _ _ _ =>
    rw [hop]
    exact ⟨rfl, rfl⟩
  | lanewise hop _ _ _ =>
    cases hx : c.func.op i <;> rw [hx] at hop <;> first | exact ⟨rfl, rfl⟩ | cases hop

/-- The splats of a widened instruction are its uniform operands. -/
theorem Lowers.splats {t : TyId} {splats : List (Operand × TyId)}
    (h : Lowers tt c shapes i σ (.widen t splats)) :
    (∀ v u, (v, u) ∈ splats → v ∈ (c.func.op i).operands ∧ laneShape c shapes v = .ok .uniform ∧
      VectorOf tt c.config.width (c.func.tyOf v) u) ∧
    (∀ v ∈ (c.func.op i).operands, laneShape c shapes v = .ok .uniform → ∃ u, (v, u) ∈ splats) ∧
    ∀ v ∈ (c.func.op i).operands, ∃ σ', laneShape c shapes v = .ok σ' := by
  cases h with
  | load hop hptr hv =>
    rw [hop]
    refine ⟨fun v u hmem => absurd hmem List.not_mem_nil, fun v hv hσ => ?_, fun v hv => ?_⟩
    · rw [List.mem_singleton.mp hv, hptr] at hσ
      cases hσ
    · rw [List.mem_singleton.mp hv]
      exact ⟨_, hptr⟩
  | @store x ptr u splats hop hptr ht hv =>
    rw [hop]
    refine ⟨fun v u hmem => ?_, fun v hv' hσ => ?_, fun v hv' => ?_⟩
    · rcases hv with ⟨_, rfl⟩ | ⟨hσ, rfl⟩
      · exact absurd hmem List.not_mem_nil
      · cases List.mem_singleton.mp hmem
        exact ⟨List.mem_cons_self, hσ, ht⟩
    · rcases List.mem_cons.mp hv' with rfl | hv'
      · rcases hv with ⟨hvar, _⟩ | ⟨_, rfl⟩
        · rw [hvar] at hσ
          cases hσ
        · exact ⟨u, List.mem_singleton.mpr rfl⟩
      · rw [List.mem_singleton.mp hv', hptr] at hσ
        cases hσ
    · rcases List.mem_cons.mp hv' with rfl | hv'
      · rcases hv with ⟨hvar, _⟩ | ⟨huni, _⟩
        · exact ⟨_, hvar⟩
        · exact ⟨_, huni⟩
      · rw [List.mem_singleton.mp hv']
        exact ⟨_, hptr⟩
  | lanewise hop hty hops hsplats =>
    refine ⟨hsplats, fun v hv hσ => ?_, fun v hv => ?_⟩
    · rcases hops v hv with hvar | ⟨_, hu⟩
      · rw [hvar] at hσ
        cases hσ
      · exact hu
    · rcases hops v hv with hvar | ⟨huni, _⟩
      · exact ⟨_, hvar⟩
      · exact ⟨_, huni⟩

/-- The instructions that are carried over, in order. -/
theorem LowersAll.map_fst (h : LowersAll tt c shapes is steps) :
    steps.map Prod.fst = is := by
  induction h with
  | nil => rfl
  | cons _ _ ih => rw [List.map_cons, ih]

theorem LowersAll.exists_lowers (h : LowersAll tt c shapes is steps)
    {s : InstId × Lowering} (hs : s ∈ steps) :
    s.1 ∈ is ∧ ∃ shapes' σ, Lowers tt c shapes' s.1 σ s.2 := by
  induction h with
  | nil => exact absurd hs List.not_mem_nil
  | cons hl _ ih =>
    rcases List.mem_cons.mp hs with rfl | hs
    · exact ⟨List.mem_cons_self, _, _, hl⟩
    · exact ⟨List.mem_cons_of_mem _ (ih hs).1, (ih hs).2⟩

theorem Lowers.fits (h : Lowers tt c shapes i σ low) (hi : i < c.func.insts.size) :
    Fits c.func i low := by
  obtain ⟨hphi, hterm⟩ := h.not_isPhi
  refine ⟨hi, hphi, hterm, fun t splats heq e he => ?_⟩
  subst heq
  exact (h.splats.1 e.1 e.2 he).1

theorem Lowers.tys_lt (h : Lowers tt c shapes i σ low) (hi : (c.func.inst i).ty < tt.size) :
    ∀ t ∈ low.tys, t < tt.size := by
  have hvec {t v : TyId} (hv : VectorOf tt c.config.width t v) : v < tt.size := by
    obtain ⟨_, _, hlook⟩ := hv
    exact TypeTable.lookup_lt hlook
  cases h with
  | scalar _ _ _ _ => exact nofun
  | load _ _ ht =>
    intro t hmem
    rw [List.mem_singleton.mp hmem]
    exact hvec ht
  | store _ _ ht hv =>
    intro t hmem
    rcases List.mem_cons.mp hmem with rfl | hmem
    · exact hi
    · obtain ⟨e, he, rfl⟩ := List.mem_map.mp hmem
      rcases hv with ⟨_, rfl⟩ | ⟨_, rfl⟩
      · exact absurd he List.not_mem_nil
      · rw [List.mem_singleton.mp he]
        exact hvec ht
  | lanewise _ ht _ hsplats =>
    intro t hmem
    rcases List.mem_cons.mp hmem with rfl | hmem
    · exact hvec ht
    · obtain ⟨e, he, rfl⟩ := List.mem_map.mp hmem
      exact hvec (hsplats e.1 e.2 he).2.2

section

variable {f : Func} {l : NaturalLoop} {p : VectorPlan} {dom : DomTree} {config : VectorConfig}
  (hf : f.Framed) (hp : Shape f l p)
  (hlow : LowersAll tt ⟨f, dom, l, p.loop, config⟩ [(p.loop.iv, .index 1)]
    (f.body p.loop.bodyEntry).dropLast p.steps)

include hf hp hlow

/-- The steps of a plan are instructions of the old body. -/
theorem step_mem {s : InstId × Lowering} (hs : s ∈ p.steps) : s.1 ∈ f.body p.loop.bodyEntry ∧
    s.1 < f.insts.size ∧ ∃ shapes σ, Lowers tt ⟨f, dom, l, p.loop, config⟩ shapes s.1 σ s.2 := by
  obtain ⟨hmem, hlowers⟩ := hlow.exists_lowers hs
  have hmem := (List.dropLast_subset _) hmem
  have hlive := CountedLoop.live_of_mem hp.isLoop hp.counted.bodyEntry_mem
  exact ⟨hmem, hf.inst_lt hlive hmem, hlowers⟩

theorem fits_of_lowersAll : ∀ s ∈ p.steps, Fits f s.1 s.2 := by
  intro s hs
  obtain ⟨_, hlt, _, _, h⟩ := step_mem hf hp hlow hs
  exact h.fits hlt

/-- The types that a plan brings are in the table. -/
theorem tys_lt_of_lowersAll (htys : ∀ t ∈ f.tys, t < tt.size) (hiv : p.ivTy = f.tyOf p.loop.iv)
    (hbool : tt.lookup (LoopNest.Shape.scalar .bool).unnamed = some p.boolTy)
    (hvoid : tt.lookup LoopNest.Shape.void.unnamed = some p.voidTy) : ∀ t ∈ p.tys, t < tt.size := by
  have hinst {i : InstId} (hi : i < f.insts.size) : (f.inst i).ty < tt.size :=
    ((forall_mem_tys.mp htys).2.2.2 i hi).1
  intro t ht
  simp only [VectorPlan.tys, List.mem_cons, List.mem_flatMap] at ht
  rcases ht with rfl | rfl | rfl | ⟨s, hs, ht⟩
  · have hlt := hf.inst_lt hp.header_live hp.mem_header.1
    rw [hiv, tyOf, CountedLoop.iv, operandTy_inst hlt]
    exact hinst hlt
  · exact TypeTable.lookup_lt hbool
  · exact TypeTable.lookup_lt hvoid
  · obtain ⟨_, hlt, _, _, h⟩ := step_mem hf hp hlow hs
    exact h.tys_lt (hinst hlt) t ht

end

end

/-- Code for some instructions of the old body, given the instructions that it may be made from, the
types that it may bring, and the old and the new induction value. -/
structure Copies (old iv : InstId) (T : List TyId) (b : BlockId) (base : Func)
    (srcs done : List InstId) (s : BodyState) (code : List InstId) : Prop where
  name_eq : s.func.name = base.name
  appends : Appends b code base s.func
  tys : ∀ t ∈ s.func.tys, t ∈ base.tys ∨ t ∈ T
  plain : ∀ i ∈ code, (s.func.op i).isPhi = false ∧ (s.func.op i).isTerminator = false
  operands : ∀ i ∈ code, ∀ w ∈ (s.func.op i).operands, Sourced iv base srcs code w
  renamed : ∀ v w, s.renamed.lookup v = some w →
    Inside iv code w ∧ (v = .inst old ∨ ∃ j ∈ done, v = .inst j)
  splatted : ∀ v w, s.splatted.lookup v = some w → Inside iv code w ∧
    (s.renamed.lookup v = none → ∃ i ∈ code, v ∈ (s.func.op i).operands)
  /-- What nothing stands for is used. -/
  used : ∀ j ∈ done, ∀ v ∈ (base.op j).operands, s.renamed.lookup v = none →
    ∃ i ∈ code, v ∈ (s.func.op i).operands

namespace Copies

theorem nil : Copies old iv T b base srcs [] ⟨base, [(.inst old, .inst iv)], []⟩ [] := by
  refine ⟨rfl, .refl base b, fun t ht => .inl ht, nofun, nofun, fun v w hv => ?_, nofun, nofun⟩
  rw [List.lookup_cons] at hv
  split at hv
  · rename_i heq
    cases hv
    exact ⟨⟨iv, rfl, .inl rfl⟩, .inl (eq_of_beq heq)⟩
  · cases hv

variable (h : Copies old iv T b base srcs done s code)

include h

theorem op_eq (hi : i < base.insts.size) : s.func.op i = base.op i := h.appends.op_eq hi

/-- What stands for an operand is computed in the vector loop, or the operand itself. -/
theorem rename_cases (v : Operand) :
    Inside iv code (s.rename v) ∨ s.renamed.lookup v = none ∧ s.rename v = v := by
  rw [BodyState.rename]
  cases hv : s.renamed.lookup v with
  | none => exact .inr ⟨rfl, rfl⟩
  | some w => exact .inl (h.renamed v w hv).1

/-- Adding an instruction. -/
theorem emit (hb : b < base.blocks.size) {d : Draft} (hphi : d.op.isPhi = false)
    (hterm : d.op.isTerminator = false) (hty : d.ty ∈ base.tys ∨ d.ty ∈ T)
    (hslot : ∀ t a, d.op = .alloca t a → t ∈ base.tys ∨ t ∈ T)
    (hops : ∀ w ∈ d.op.operands, Sourced iv base srcs code w) :
    Copies old iv T b base srcs done { s with func := (s.func.appendInst b d).2 }
        (code ++ [s.func.insts.size]) ∧
      (s.func.appendInst b d).2.op s.func.insts.size = d.op := by
  have happ := s.func.appends_appendInst (h.appends.blocks_size_eq ▸ hb) d
  have hnew : (s.func.appendInst b d).2.inst s.func.insts.size = ⟨d.op, d.ty, d.name, some b⟩ := by
    simp
  have hname : (s.func.appendInst b d).2.name = s.func.name := rfl
  generalize (s.func.appendInst b d).2 = k at happ hnew hname
  have hopn : k.op s.func.insts.size = d.op := congrArg Inst.op hnew
  have hcode {j : InstId} (hj : j ∈ code) : k.op j = s.func.op j :=
    happ.op_eq ((h.appends.mem_code j).mp hj).2
  have huse {v : Operand} (hu : ∃ i ∈ code, v ∈ (s.func.op i).operands) :
      ∃ i ∈ code ++ [s.func.insts.size], v ∈ (k.op i).operands := by
    obtain ⟨i, hi, hv⟩ := hu
    exact ⟨i, List.mem_append_left _ hi, hcode hi ▸ hv⟩
  refine ⟨?_, hopn⟩
  constructor
  case name_eq => exact hname.trans h.name_eq
  case appends => exact h.appends.trans happ
  case tys =>
    refine happ.forall_mem_tys h.tys fun i hi => ?_
    rw [List.mem_singleton.mp hi, hopn, hnew]
    exact ⟨hty, hslot⟩
  case plain =>
    intro i hi
    rcases List.mem_append.mp hi with hi | hi
    · rw [hcode hi]
      exact h.plain i hi
    · rw [List.mem_singleton.mp hi, hopn]
      exact ⟨hphi, hterm⟩
  case operands =>
    intro i hi w hw
    rcases List.mem_append.mp hi with hi | hi
    · rw [hcode hi] at hw
      exact (h.operands i hi w hw).append
    · rw [List.mem_singleton.mp hi, hopn] at hw
      exact (hops w hw).append
  case renamed =>
    intro v w hv
    obtain ⟨hin, hsrc⟩ := h.renamed v w hv
    exact ⟨hin.append, hsrc⟩
  case splatted =>
    intro v w hv
    obtain ⟨hin, hu⟩ := h.splatted v w hv
    exact ⟨hin.append, fun hno => huse (hu hno)⟩
  case used => exact fun j hj v hv hno => huse (h.used j hj v hv hno)

/-- Splatting an operand of the old body. -/
theorem splat (hb : b < base.blocks.size) (hi : i ∈ srcs) (hv : v ∈ (base.op i).operands) {t : TyId}
    (ht : t ∈ T) (name : String) :
    ∃ code', Copies old iv T b base srcs done (s.splat b name v t) code' ∧
      ((s.splat b name v t).splatted.lookup v).isSome ∧
      ∀ x, (s.splatted.lookup x).isSome → ((s.splat b name v t).splatted.lookup x).isSome := by
  rw [BodyState.splat]
  split
  · rename_i w hw
    exact ⟨code, h, by simp [hw], fun _ hx => hx⟩
  · have hsrc : Sourced iv base srcs code (s.rename v) := by
      rcases h.rename_cases v with hin | ⟨_, heq⟩
      · exact .inl hin
      · rw [heq]
        exact .inr ⟨i, hi, hv⟩
    dsimp only
    obtain ⟨h', hop⟩ := h.emit hb (d := ⟨.splat (s.rename v), t, some (name ++ ".splat")⟩) rfl rfl
      (.inr ht) nofun fun w hw => List.mem_singleton.mp hw ▸ hsrc
    refine ⟨_, ⟨h'.name_eq, h'.appends, h'.tys, h'.plain, h'.operands, h'.renamed, fun x w hx => ?_,
      h'.used⟩, by simp, fun x hx => ?_⟩
    · rw [List.lookup_cons] at hx
      split at hx
      · rename_i heq
        obtain rfl := eq_of_beq heq
        cases hx
        refine ⟨⟨_, rfl, .inr (by simp)⟩, fun hno => ⟨s.func.insts.size, by simp, ?_⟩⟩
        rw [hop, BodyState.rename, hno]
        exact List.mem_singleton.mpr rfl
      · exact h'.splatted x w hx
    · rw [List.lookup_cons]
      split
      · rfl
      · exact hx

omit h in
/-- Splatting operands of an instruction. -/
theorem splats (hb : b < base.blocks.size) (hi : i ∈ srcs) (name : String) :
    ∀ {splats : List (Operand × TyId)} {s : BodyState} {code : List InstId},
    Copies old iv T b base srcs done s code →
    (∀ e ∈ splats, e.1 ∈ (base.op i).operands ∧ e.2 ∈ T) →
    ∃ code', Copies old iv T b base srcs done
        (splats.foldl (fun s (v, t) => s.splat b name v t) s) code' ∧
      (∀ e ∈ splats,
        ((splats.foldl (fun s (v, t) => s.splat b name v t) s).splatted.lookup e.1).isSome) ∧
      ∀ x, (s.splatted.lookup x).isSome →
        ((splats.foldl (fun s (v, t) => s.splat b name v t) s).splatted.lookup x).isSome
  | [], _, code, h, _ => ⟨code, h, nofun, fun _ hx => hx⟩
  | (v, t) :: splats, s, code, h, hall => by
    obtain ⟨hv, ht⟩ := hall (v, t) List.mem_cons_self
    obtain ⟨_, h₁, hdone, hkeep⟩ := h.splat hb hi hv ht name
    obtain ⟨code₂, h₂, hdone₂, hkeep₂⟩ := Copies.splats hb hi name h₁
      fun e he => hall e (List.mem_cons_of_mem _ he)
    refine ⟨code₂, h₂, fun e he => ?_, fun x hx => hkeep₂ x (hkeep x hx)⟩
    rcases List.mem_cons.mp he with rfl | he
    · exact hkeep₂ _ hdone
    · exact hdone₂ e he

variable {low : Lowering}

/-- Adding the counterpart of an instruction whose operands are given. -/
theorem add (hb : b < base.blocks.size) (hi : i ∈ srcs) (hfit : Fits base i low) {τ : Operand → Operand}
    {t : TyId} (ht : t ∈ base.tys ∨ t ∈ T)
    (hτ : ∀ v ∈ (base.op i).operands, Sourced iv base srcs code (τ v) ∧
      (s.renamed.lookup v = none → τ v = v ∨ ∃ j ∈ code, v ∈ (s.func.op j).operands)) :
    ∃ code', Copies old iv T b base srcs (i :: done) (s.add b i ((base.op i).mapOperands τ) t)
      code' := by
  have hslot : ∀ u a, (base.op i).mapOperands τ = .alloca u a → u ∈ base.tys ∨ u ∈ T :=
    fun u a hop => .inl ((forall_mem_tys.mp fun _ ht => ht).2.2.2 i hfit.lt |>.2 u a
      (alloca_of_mapOperands hop))
  obtain ⟨h', hop⟩ := h.emit hb
    (d := ⟨(base.op i).mapOperands τ, t, (s.func.inst i).name.map (· ++ ".vec")⟩)
    (by rw [isPhi_mapOperands, hfit.not_isPhi])
    (by rw [isTerminator_mapOperands, hfit.not_isTerminator]) ht hslot fun w hw => by
      rw [Op.operands_mapOperands] at hw
      obtain ⟨v, hv, rfl⟩ := List.mem_map.mp hw
      exact (hτ v hv).1
  have hold {v w : Operand} (hno : ((.inst i, w) :: s.renamed).lookup v = none) :
      s.renamed.lookup v = none := by
    rw [List.lookup_cons] at hno
    split at hno
    · cases hno
    · exact hno
  refine ⟨code ++ [s.func.insts.size], ?_⟩
  constructor
  case name_eq => exact h'.name_eq
  case appends => exact h'.appends
  case tys => exact h'.tys
  case plain => exact h'.plain
  case operands => exact h'.operands
  case renamed =>
    intro v w hv
    change ((.inst i, .inst s.func.insts.size) :: s.renamed).lookup v = some w at hv
    rw [List.lookup_cons] at hv
    split at hv
    · rename_i heq
      cases hv
      exact ⟨⟨_, rfl, .inr (by simp)⟩, .inr ⟨i, List.mem_cons_self, eq_of_beq heq⟩⟩
    · obtain ⟨hin, hsrc⟩ := h'.renamed v w hv
      exact ⟨hin, hsrc.imp_right fun ⟨j, hj, heq⟩ => ⟨j, List.mem_cons_of_mem _ hj, heq⟩⟩
  case splatted =>
    intro v w hv
    obtain ⟨hin, hu⟩ := h'.splatted v w hv
    exact ⟨hin, fun hno => hu (hold hno)⟩
  case used =>
    intro j hj v hv hno
    have hno' : s.renamed.lookup v = none := hold hno
    rcases List.mem_cons.mp hj with rfl | hj
    · rcases (hτ v hv).2 hno' with heq | ⟨k, hk, hkv⟩
      · refine ⟨s.func.insts.size, by simp, ?_⟩
        change v ∈ ((s.func.appendInst b _).2.op _).operands
        rw [hop, Op.operands_mapOperands]
        exact List.mem_map.mpr ⟨v, hv, heq⟩
      · refine ⟨k, List.mem_append_left _ hk, ?_⟩
        change v ∈ ((s.func.appendInst b _).2.op _).operands
        rwa [(s.func.appends_appendInst (h.appends.blocks_size_eq ▸ hb) _).op_eq
          ((h.appends.mem_code k).mp hk).2]
    · exact h'.used j hj v hv hno'

/-- What a widened instruction uses in place of an operand. -/
theorem widened_cases {splats : List (Operand × TyId)}
    (hdone : ∀ e ∈ splats, (s.splatted.lookup e.1).isSome) (v : Operand) :
    Inside iv code (s.widened splats v) ∧
        (s.renamed.lookup v = none → ∃ j ∈ code, v ∈ (s.func.op j).operands) ∨
      s.renamed.lookup v = none ∧ s.widened splats v = v ∨
      Inside iv code (s.widened splats v) ∧ s.renamed.lookup v ≠ none := by
  rw [BodyState.widened]
  split
  · rename_i hsome
    obtain ⟨e, he, heq⟩ := List.lookup_isSome_iff.mp hsome
    obtain ⟨w, hw⟩ := Option.isSome_iff_exists.mp (hdone e he)
    rw [eq_of_beq heq, hw]
    exact .inl (h.splatted _ w hw)
  · rw [BodyState.rename]
    cases hv : s.renamed.lookup v with
    | none => exact .inr (.inl ⟨rfl, rfl⟩)
    | some w => exact .inr (.inr ⟨(h.renamed v w hv).1, nofun⟩)

/-- Carrying one instruction over. -/
theorem step (hb : b < base.blocks.size) (hi : i ∈ srcs) (hfit : Fits base i low)
    (hlow : ∀ t ∈ low.tys, t ∈ T) (name : String) :
    ∃ code', Copies old iv T b base srcs (i :: done) (s.step b name i low) code' := by
  cases low with
  | scalar =>
    have hinst : s.func.inst i = base.inst i := h.appends.inst_eq i hfit.lt
    rw [BodyState.step, hinst]
    refine h.add hb hi hfit (.inl ((forall_mem_tys.mp fun _ ht => ht).2.2.2 i hfit.lt).1) fun v hv => ?_
    rcases h.rename_cases v with hin | ⟨_, heq⟩
    · refine ⟨.inl hin, fun hno => .inl ?_⟩
      rw [BodyState.rename, hno]
      rfl
    · rw [heq]
      exact ⟨.inr ⟨i, hi, hv⟩, fun _ => .inl rfl⟩
  | widen t splats =>
    obtain ⟨code₁, h₁, hdone, _⟩ := Copies.splats hb hi name h fun e he =>
      ⟨hfit.splats t splats rfl e he, hlow _ (List.mem_cons_of_mem _ (List.mem_map_of_mem he))⟩
    simp only [BodyState.step]
    generalize splats.foldl (fun s (v, t) => s.splat b name v t) s = s₁ at h₁ hdone ⊢
    rw [h₁.op_eq hfit.lt]
    refine h₁.add hb hi hfit (.inr (hlow t List.mem_cons_self)) fun v hv => ?_
    rcases h₁.widened_cases hdone v with ⟨hin, hu⟩ | ⟨_, heq⟩ | ⟨hin, hno⟩
    · exact ⟨.inl hin, fun hno => .inr (hu hno)⟩
    · rw [heq]
      exact ⟨.inr ⟨i, hi, hv⟩, fun _ => .inl rfl⟩
    · exact ⟨.inl hin, fun hno' => absurd hno' hno⟩

omit h in
/-- Carrying several instructions over. -/
theorem steps (hb : b < base.blocks.size) (name : String) : ∀ {steps : List (InstId × Lowering)}
    {done : List InstId} {s : BodyState} {code : List InstId},
    Copies old iv T b base srcs done s code →
    (∀ x ∈ steps, x.1 ∈ srcs ∧ Fits base x.1 x.2 ∧ ∀ t ∈ x.2.tys, t ∈ T) →
    ∃ done' code', (∀ x ∈ steps, x.1 ∈ done') ∧ (∀ j ∈ done, j ∈ done') ∧
      (∀ j ∈ done', j ∈ done ∨ ∃ x ∈ steps, j = x.1) ∧
      Copies old iv T b base srcs done' (steps.foldl (fun s x => s.step b name x.1 x.2) s) code'
  | [], done, _, code, h, _ => ⟨done, code, nofun, fun _ hj => hj, fun _ hj => .inl hj, h⟩
  | x :: steps, done, s, code, h, hall => by
    obtain ⟨hsrc, hfit, htys⟩ := hall x List.mem_cons_self
    obtain ⟨code₁, h₁⟩ := h.step hb hsrc hfit htys name
    obtain ⟨done', code₂, hmem, hsub, hsup, h₂⟩ := Copies.steps hb name h₁
      fun y hy => hall y (List.mem_cons_of_mem _ hy)
    refine ⟨done', code₂, fun y hy => ?_, fun j hj => hsub j (List.mem_cons_of_mem _ hj),
      fun j hj => ?_, h₂⟩
    · rcases List.mem_cons.mp hy with rfl | hy
      · exact hsub _ List.mem_cons_self
      · exact hmem y hy
    · rcases hsup j hj with hj | ⟨y, hy, heq⟩
      · exact (List.mem_cons.mp hj).elim (fun heq => .inr ⟨x, List.mem_cons_self, heq⟩) .inl
      · exact .inr ⟨y, List.mem_cons_of_mem _ hy, heq⟩

end Copies

end Vectorize

end LoopNest
