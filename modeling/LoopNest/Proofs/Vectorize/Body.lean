import LoopNest.Proofs.Vectorize.Filled

/-!
# The body of a vector loop

The body of a vector loop is emitted instruction by instruction.  `Emits` says that what has been
emitted is typed, and uses the induction value, earlier code of the body, and values from outside
the old loop only.  `Carries` adds what stands for the values of the old body: a scalar for a
scalar, a vector for a value that varies, and splats for uniform values.

One instruction keeps this (`Carries.step`), hence the whole body does (`Carries.steps`).
-/

namespace LoopNest

open Func

namespace Vectorize

variable {tt : TypeTable} {c : Context} {base g k : Func} {iv i : InstId} {b : BlockId}
  {code : List InstId} {v w : Operand}

/-! ## Operands -/

/-- A value from outside the loop. -/
structure Outside (c : Context) (v : Operand) : Prop where
  invariant : c.natural.Invariant c.func v
  listed : ∀ j, v = .inst j → ∀ d, c.func.owner j = some d → j ∈ c.func.body d

/-- An operand that new code can use. -/
structure Ready (c : Context) (iv : InstId) (g : Func) (code : List InstId) (w : Operand) : Prop where
  typed : ∃ t, g.operandTy w = .ok t
  available : Inside iv code w ∨ Outside c w

theorem Ready.mono (h : Ready c iv g code w) (hk : g.KeepsTypes k) : Ready c iv k code w := by
  obtain ⟨t, ht⟩ := h.typed
  exact ⟨⟨t, hk.operandTy_eq w t ht⟩, h.available⟩

/-! ## Emitted code -/

/-- An instruction that was emitted after some code. -/
structure Emitted (tt : TypeTable) (c : Context) (iv : InstId) (g : Func) (code : List InstId)
    (i : InstId) : Prop where
  not_isPhi : (g.op i).isPhi = false
  not_isTerminator : (g.op i).isTerminator = false
  typed : ∃ ty, Typing.resultTy tt g (g.op i) (some (g.inst i).ty) = .ok ty ∧
    tt.lookup ty = some (g.inst i).ty
  operands : ∀ w ∈ (g.op i).operands, Ready c iv g code w

theorem Emitted.mono (h : Emitted tt c iv g code i) (hk : g.KeepsTypes k)
    (hop : k.op i = g.op i) (hi : (k.inst i).ty = (g.inst i).ty) (hg : ∀ t ∈ g.tys, t < tt.size) :
    Emitted tt c iv k code i := by
  obtain ⟨ty, hty, hlook⟩ := h.typed
  refine ⟨hop ▸ h.not_isPhi, hop ▸ h.not_isTerminator, ⟨ty, ?_, ?_⟩, fun w hw => ?_⟩
  · rw [hop, hi]
    exact hk.resultTy_eq hg (TypeTable.lookup_lt hlook) hty
  · rw [hi]
    exact hlook
  · exact (h.operands w (hop ▸ hw)).mono hk

/-- The code that was emitted into a block. -/
structure Emits (tt : TypeTable) (c : Context) (iv : InstId) (b : BlockId) (base g : Func)
    (code : List InstId) : Prop where
  appends : Appends b code base g
  tys_lt : ∀ t ∈ g.tys, t < tt.size
  emitted : ∀ pre i post, code = pre ++ i :: post → Emitted tt c iv g pre i

theorem Emits.nil (hbase : ∀ t ∈ base.tys, t < tt.size) : Emits tt c iv b base base [] :=
  ⟨.refl base b, hbase, fun pre i post h => by simp at h⟩

/-- Emitting one more instruction. -/
theorem Emits.appendInst (h : Emits tt c iv b base g code) (hb : b < base.blocks.size) {d : Draft}
    (hphi : d.op.isPhi = false) (hterm : d.op.isTerminator = false) {ty : Ty}
    (hty : Typing.resultTy tt g d.op (some d.ty) = .ok ty) (hlook : tt.lookup ty = some d.ty)
    (hops : ∀ w ∈ d.op.operands, Ready c iv g code w)
    (hslot : ∀ t a, d.op = .alloca t a → t < tt.size) :
    Emits tt c iv b base (g.appendInst b d).2 (code ++ [g.insts.size]) ∧
      g.KeepsTypes (g.appendInst b d).2 ∧
      (g.appendInst b d).2.operandTy (.inst g.insts.size) = .ok d.ty := by
  have happ := g.appends_appendInst (h.appends.blocks_size_eq ▸ hb) d
  have hnew : (g.appendInst b d).2.inst g.insts.size = ⟨d.op, d.ty, d.name, some b⟩ := by simp
  have hsize : g.insts.size < (g.appendInst b d).2.insts.size := by simp
  generalize (g.appendInst b d).2 = k at happ hnew hsize
  have hopn : k.op g.insts.size = d.op := congrArg Inst.op hnew
  have hlt : d.ty < tt.size := TypeTable.lookup_lt hlook
  refine ⟨?_, happ.keepsTypes, by rw [operandTy_inst hsize, hnew]⟩
  refine ⟨h.appends.trans happ, happ.forall_mem_tys h.tys_lt fun i hi => ?_, fun pre i post heq => ?_⟩
  · rw [List.mem_singleton.mp hi, hopn, hnew]
    exact ⟨hlt, hslot⟩
  · rcases List.eq_nil_or_concat post with rfl | ⟨post', x, rfl⟩
    · -- It is the new one.
      obtain ⟨rfl, hlast⟩ := List.append_inj' heq rfl
      obtain rfl := List.singleton_inj.mp hlast
      refine ⟨hopn ▸ hphi, hopn ▸ hterm, ⟨ty, ?_, ?_⟩, fun w hw => ?_⟩
      · rw [hopn, hnew]
        exact happ.keepsTypes.resultTy_eq h.tys_lt hlt hty
      · rw [hnew]
        exact hlook
      · exact (hops w (hopn ▸ hw)).mono happ.keepsTypes
    · have heq' : code ++ [g.insts.size] = (pre ++ i :: post') ++ [x] := by simpa using heq
      obtain ⟨hcode, _⟩ := List.append_inj' heq' rfl
      have hmem : i ∈ code := hcode ▸ by simp
      have heq := happ.inst_eq i ((h.appends.mem_code i).mp hmem).2
      exact (h.emitted pre i post' hcode).mono happ.keepsTypes (congrArg Inst.op heq)
        (congrArg Inst.ty heq) h.tys_lt

/-! ## The old body -/

/-- What is assumed of the loop whose body is carried over. -/
structure Source (tt : TypeTable) (c : Context) (base : Func) : Prop where
  sound : c.func.Sound tt
  isLoop : IsLoop (.ofFunc c.func) c.natural
  header_eq : c.loop.header = c.natural.header
  bodyEntry_mem : c.loop.bodyEntry ∈ c.natural.blocks
  bodyEntry_edge : (FlowGraph.ofFunc c.func).Edge c.natural.header c.loop.bodyEntry
  /-- There are no vectors in the body. -/
  scalar : c.func.ScalarBlock tt c.loop.bodyEntry
  /-- It is still there when it is carried over. -/
  keepsTypes : c.func.KeepsTypes base
  inst_eq : ∀ i ∈ c.func.body c.loop.bodyEntry, i < base.insts.size ∧ base.inst i = c.func.inst i

variable {shapes : LaneShapes} {σ : LaneShape} {low : Lowering}

/-- A place in the old body, with the lane shapes of what comes before. -/
structure At (c : Context) (shapes : LaneShapes) (i : InstId) (rest : List InstId) : Prop where
  body_eq : ∃ done, c.func.body c.loop.bodyEntry = done ++ i :: rest ∧
    ∀ j ∈ done, shapes.lookup (.inst j) ≠ none

theorem At.mem_body {rest : List InstId} (hat : At c shapes i rest) :
    i ∈ c.func.body c.loop.bodyEntry := by
  obtain ⟨done, hbody, _⟩ := hat.body_eq
  rw [hbody]
  simp

namespace Source

variable (hsrc : Source tt c base)

include hsrc

theorem live : c.loop.bodyEntry ∈ c.func.layout :=
  CountedLoop.live_of_mem hsrc.isLoop hsrc.bodyEntry_mem

theorem operandTy_eq (hi : i ∈ c.func.body c.loop.bodyEntry) (hv : v ∈ (c.func.op i).operands) :
    c.func.operandTy v = .ok (c.func.tyOf v) := by
  obtain ⟨t, ht⟩ := operandTy_of_exists (hsrc.sound.wellFormed.operand_exists _ hsrc.live i hi v hv)
  rw [Typing.tyOf_of_operandTy ht]
  exact ht

/-- An operand without a lane shape of its own comes from outside. -/
theorem outside {rest : List InstId} (hat : At c shapes i rest)
    (hphi : (c.func.op i).isPhi = false) (hv : v ∈ (c.func.op i).operands)
    (hnone : shapes.lookup v = none) (h : laneShape c shapes v = .ok σ) :
    Outside c v ∧ σ = .uniform := by
  have hf := hsrc.sound.wellFormed
  have hi := hat.mem_body
  obtain ⟨done, hbody, hdone⟩ := hat.body_eq
  unfold laneShape at h
  rw [hnone] at h
  cases v with
  | inst j =>
    dsimp only at h
    split at h
    · cases h
    rename_i hne
    cases h
    obtain ⟨d, hd, hdom, hsame⟩ := hf.use_dominated _ hsrc.live
      (hsrc.isLoop.reachable_mem hsrc.bodyEntry_mem) i hi hphi j hv
    have hdb : d ≠ c.loop.bodyEntry := fun heq => hdone j (hsame heq done rest hbody) hnone
    rw [hd, hsrc.header_eq] at hne
    have hinv := hsrc.isLoop.invariant_of_dominates hd (hdom hdb) hdb
      (fun heq => hne (congrArg some heq)) hsrc.bodyEntry_edge
    refine ⟨⟨hinv, fun j' hj d' hd' => ?_⟩, rfl⟩
    cases hj
    exact usesListed_iff.mp hsrc.sound.usesListed _ hsrc.live i hi j hv d' hd'
  | param k =>
    cases h
    exact ⟨⟨trivial, nofun⟩, rfl⟩
  | const k =>
    cases h
    exact ⟨⟨trivial, nofun⟩, rfl⟩

end Source

/-! ## What stands for the old values -/

/-- What stands for a value of the old body. -/
structure StandsFor (tt : TypeTable) (c : Context) (iv : InstId) (g : Func) (code : List InstId)
    (v : Operand) (σ : LaneShape) (w : Operand) : Prop where
  ready : Ready c iv g code w
  scalar : σ ≠ .varying → g.operandTy w = .ok (c.func.tyOf v)
  vector : σ = .varying → ∃ u, VectorOf tt c.config.width (c.func.tyOf v) u ∧ g.operandTy w = .ok u

/-- What stands for the old values, after some of the old body. -/
structure Carries (tt : TypeTable) (c : Context) (iv : InstId) (b : BlockId) (base : Func)
    (shapes : LaneShapes) (s : BodyState) (code : List InstId) : Prop where
  emits : Emits tt c iv b base s.func code
  renamed : ∀ v σ, shapes.lookup v = some σ → ∃ w, s.renamed.lookup v = some w ∧
    StandsFor tt c iv s.func code v σ w
  kept : ∀ v, shapes.lookup v = none → s.renamed.lookup v = none
  splatted : ∀ v w, s.splatted.lookup v = some w → StandsFor tt c iv s.func code v .varying w

theorem StandsFor.append {code' : List InstId} (h : StandsFor tt c iv g code v σ w)
    (hk : g.KeepsTypes k) : StandsFor tt c iv k (code ++ code') v σ w := by
  refine ⟨⟨(h.ready.mono hk).typed, h.ready.available.imp_left Inside.append⟩,
    fun hσ => hk.operandTy_eq _ _ (h.scalar hσ), fun hσ => ?_⟩
  obtain ⟨u, hu, hty⟩ := h.vector hσ
  exact ⟨u, hu, hk.operandTy_eq _ _ hty⟩

/-- The lane shape of an operand of a widened instruction. -/
def widenedShape : LaneShape → LaneShape
  | .uniform => .varying
  | σ => σ

theorem StandsFor.replaced {τ : Operand → Operand}
    (h : StandsFor tt c iv g code v (widenedShape σ) (τ v)) (hσ : laneShape c shapes v = .ok σ) :
    Replaced tt c shapes g τ v := by
  constructor
  · intro haddress
    rw [hσ] at haddress
    cases haddress
    exact h.scalar (by simp [widenedShape])
  · intro hvector
    refine h.vector ?_
    rcases hvector with hv | hv
    · rw [hσ] at hv
      cases hv
      rfl
    · rw [hσ] at hv
      cases hv
      rfl

namespace Carries

variable {s : BodyState} {rest : List InstId}

/-- What stands for an operand of the next instruction. -/
theorem standsFor_rename (h : Carries tt c iv b base shapes s code) (hsrc : Source tt c base)
    (hat : At c shapes i rest) (hphi : (c.func.op i).isPhi = false)
    (hv : v ∈ (c.func.op i).operands) (hσ : laneShape c shapes v = .ok σ) :
    StandsFor tt c iv s.func code v σ (s.rename v) := by
  cases hlook : shapes.lookup v with
  | some σ' =>
    obtain rfl : σ' = σ := by
      unfold laneShape at hσ
      rw [hlook] at hσ
      exact Except.ok.inj hσ
    obtain ⟨w, hw, hstands⟩ := h.renamed v σ' hlook
    rw [BodyState.rename, hw]
    exact hstands
  | none =>
    obtain ⟨hout, rfl⟩ := hsrc.outside hat hphi hv hlook hσ
    have hty := h.emits.appends.keepsTypes.operandTy_eq _ _
      (hsrc.keepsTypes.operandTy_eq _ _ (hsrc.operandTy_eq hat.mem_body hv))
    rw [BodyState.rename, h.kept v hlook]
    exact ⟨⟨⟨_, hty⟩, .inr hout⟩, fun _ => hty, by rintro ⟨⟩⟩

/-- Splatting a uniform operand. -/
theorem splat (h : Carries tt c iv b base shapes s code) (hsrc : Source tt c base)
    (hb : b < base.blocks.size) (hat : At c shapes i rest) (hphi : (c.func.op i).isPhi = false)
    (hv : v ∈ (c.func.op i).operands) (hσ : laneShape c shapes v = .ok .uniform) {t : TyId}
    (ht : VectorOf tt c.config.width (c.func.tyOf v) t) (name : String) :
    ∃ code', Carries tt c iv b base shapes (s.splat b name v t) code' ∧
      ((s.splat b name v t).splatted.lookup v).isSome ∧
      ∀ x, (s.splatted.lookup x).isSome → ((s.splat b name v t).splatted.lookup x).isSome := by
  unfold BodyState.splat
  cases hlook : s.splatted.lookup v with
  | some w =>
    refine ⟨code, h, ?_, fun x hx => hx⟩
    simp [hlook]
  | none =>
    dsimp only
    have hstands := h.standsFor_rename hsrc hat hphi hv hσ
    have hno := (hsrc.scalar i hat.mem_body).2 v hv
    obtain ⟨e, hscalar, hlook', hvector⟩ := ht.shape_eq hno
    have hty : Typing.resultTy tt s.func (.splat (s.rename v)) (some t) = .ok (tt.ty t) :=
      Typing.resultTy_splat.mpr ⟨_, e, _, hstands.scalar (by simp), hscalar, hvector, rfl⟩
    have hlook : tt.lookup (tt.ty t) = some t := by
      rw [TypeTable.ty_of_lookup hlook']
      exact hlook'
    obtain ⟨hemits, hkeeps, hnew⟩ := h.emits.appendInst
      (d := ⟨.splat (s.rename v), t, some (name ++ ".splat")⟩) hb rfl rfl hty hlook
      (fun w hw => List.mem_singleton.mp hw ▸ hstands.ready) nofun
    refine ⟨_, ⟨hemits, fun x σ hx => ?_, h.kept, fun x w hx => ?_⟩, ?_, fun x hx => ?_⟩
    · obtain ⟨w, hw, hstands⟩ := h.renamed x σ hx
      exact ⟨w, hw, hstands.append hkeeps⟩
    · rw [List.lookup_cons] at hx
      split at hx
      · rename_i heq
        obtain rfl := eq_of_beq heq
        cases hx
        exact ⟨⟨⟨t, hnew⟩, .inl ⟨_, rfl, .inr (by simp)⟩⟩, nofun, fun _ => ⟨t, ht, hnew⟩⟩
      · exact (h.splatted x w hx).append hkeeps
    · simp
    · rw [List.lookup_cons]
      split
      · rfl
      · exact hx

/-- Splatting the uniform operands of an instruction. -/
theorem splats (hsrc : Source tt c base) (hb : b < base.blocks.size) (hat : At c shapes i rest)
    (hphi : (c.func.op i).isPhi = false) (name : String) : ∀ {splats : List (Operand × TyId)} {s : BodyState}
    {code : List InstId}, Carries tt c iv b base shapes s code →
    (∀ v u, (v, u) ∈ splats → v ∈ (c.func.op i).operands ∧ laneShape c shapes v = .ok .uniform ∧
      VectorOf tt c.config.width (c.func.tyOf v) u) →
    ∃ code', Carries tt c iv b base shapes
        (splats.foldl (fun s (v, t) => s.splat b name v t) s) code' ∧
      (∀ v u, (v, u) ∈ splats → ((splats.foldl (fun s (v, t) => s.splat b name v t) s).splatted.lookup
        v).isSome) ∧
      ∀ x, (s.splatted.lookup x).isSome →
        ((splats.foldl (fun s (v, t) => s.splat b name v t) s).splatted.lookup x).isSome
  | [], s, code, h, _ => ⟨code, h, fun _ _ hmem => absurd hmem List.not_mem_nil, fun _ hx => hx⟩
  | (v, t) :: splats, s, code, h, hall => by
    obtain ⟨hv, hσ, ht⟩ := hall v t List.mem_cons_self
    obtain ⟨code₁, h₁, hdone, hkeep⟩ := h.splat hsrc hb hat hphi hv hσ ht name
    obtain ⟨code₂, h₂, hdone₂, hkeep₂⟩ := Carries.splats hsrc hb hat hphi name h₁
      fun x u hx => hall x u (List.mem_cons_of_mem _ hx)
    refine ⟨code₂, h₂, fun x u hx => ?_, fun x hx => hkeep₂ x (hkeep x hx)⟩
    rcases List.mem_cons.mp hx with heq | hx
    · cases heq
      exact hkeep₂ v hdone
    · exact hdone₂ x u hx

/-- What stands for an operand of a widened instruction. -/
theorem standsFor_widened (h : Carries tt c iv b base shapes s code) (hsrc : Source tt c base)
    (hat : At c shapes i rest) (hphi : (c.func.op i).isPhi = false)
    {splats : List (Operand × TyId)}
    (hfrom : ∀ v u, (v, u) ∈ splats → v ∈ (c.func.op i).operands ∧
      laneShape c shapes v = .ok .uniform ∧ VectorOf tt c.config.width (c.func.tyOf v) u)
    (hall : ∀ v ∈ (c.func.op i).operands, laneShape c shapes v = .ok .uniform → ∃ u, (v, u) ∈ splats)
    (hdone : ∀ v u, (v, u) ∈ splats → (s.splatted.lookup v).isSome) :
    ∀ v ∈ (c.func.op i).operands, ∀ {σ}, laneShape c shapes v = .ok σ →
      StandsFor tt c iv s.func code v (widenedShape σ) (s.widened splats v) := by
  intro v hv σ hσ
  unfold BodyState.widened
  split
  · rename_i hsome
    obtain ⟨⟨x, u⟩, hmem, heq⟩ := List.lookup_isSome_iff.mp hsome
    obtain rfl : v = x := eq_of_beq heq
    obtain ⟨_, huni, _⟩ := hfrom v u hmem
    rw [hσ] at huni
    cases huni
    obtain ⟨w, hw⟩ := Option.isSome_iff_exists.mp (hdone v u hmem)
    rw [hw]
    exact h.splatted v w hw
  · rename_i hnone
    have hne : σ ≠ .uniform := by
      rintro rfl
      obtain ⟨u, hu⟩ := hall v hv hσ
      exact hnone (List.lookup_isSome_iff.mpr ⟨_, hu, beq_self_eq_true v⟩)
    have hsame : widenedShape σ = σ := by
      cases σ with
      | uniform => exact absurd rfl hne
      | _ => rfl
    rw [hsame]
    exact h.standsFor_rename hsrc hat hphi hv hσ

/-- Adding the counterpart of an instruction. -/
theorem add (h : Carries tt c iv b base shapes s code) (hsrc : Source tt c base)
    (hb : b < base.blocks.size) (hat : At c shapes i rest) {op : Op} {t : TyId}
    (hphi : op.isPhi = false) (hterm : op.isTerminator = false) {ty : Ty}
    (hty : Typing.resultTy tt s.func op (some t) = .ok ty) (hlook : tt.lookup ty = some t)
    (hops : ∀ w ∈ op.operands, Ready c iv s.func code w)
    (hslot : ∀ u a, op = .alloca u a → u < tt.size)
    (hscalar : σ ≠ .varying → t = (c.func.inst i).ty)
    (hvector : σ = .varying → VectorOf tt c.config.width (c.func.inst i).ty t) :
    ∃ code', Carries tt c iv b base ((.inst i, σ) :: shapes) (s.add b i op t) code' := by
  obtain ⟨hemits, hkeeps, hnew⟩ := h.emits.appendInst
    (d := ⟨op, t, (s.func.inst i).name.map (· ++ ".vec")⟩) hb hphi hterm hty hlook hops hslot
  have htyi : c.func.tyOf (.inst i) = (c.func.inst i).ty :=
    Typing.tyOf_of_operandTy (operandTy_inst (hsrc.sound.wellFormed.inst_lt hsrc.live hat.mem_body))
  refine ⟨_, hemits, fun x σ' hx => ?_, fun x hx => ?_, fun x w hx => ?_⟩
  · rw [List.lookup_cons] at hx
    split at hx
    · rename_i heq
      obtain rfl := eq_of_beq heq
      cases hx
      refine ⟨.inst s.func.insts.size, by simp [BodyState.add], ⟨⟨t, hnew⟩, .inl ⟨_, rfl, .inr (by simp)⟩⟩,
        fun hσ => ?_, fun hσ => ?_⟩
      · rw [htyi, ← hscalar hσ]
        exact hnew
      · rw [htyi]
        exact ⟨t, hvector hσ, hnew⟩
    · rename_i heq
      obtain ⟨w, hw, hstands⟩ := h.renamed x σ' hx
      refine ⟨w, ?_, hstands.append hkeeps⟩
      simp only [BodyState.add, List.lookup_cons, heq]
      exact hw
  · rw [List.lookup_cons] at hx
    split at hx
    · cases hx
    · rename_i heq
      simp only [BodyState.add, List.lookup_cons, heq]
      exact h.kept x hx
  · exact (h.splatted x w hx).append hkeeps

/-- Carrying one instruction over. -/
theorem step (h : Carries tt c iv b base shapes s code) (hsrc : Source tt c base)
    (hb : b < base.blocks.size) (hat : At c shapes i rest) (hl : Lowers tt c shapes i σ low)
    (name : String) :
    ∃ code', Carries tt c iv b base ((.inst i, σ) :: shapes) (s.step b name i low) code' := by
  obtain ⟨hphi, hterm⟩ := hl.not_isPhi
  have hi := hat.mem_body
  have hinst : ∀ {code : List InstId} {s : BodyState}, Carries tt c iv b base shapes s code →
      s.func.inst i = c.func.inst i := fun h => by
    obtain ⟨hlt, heq⟩ := hsrc.inst_eq i hi
    rw [h.emits.appends.inst_eq i hlt, heq]
  obtain ⟨ty, hty, hlook⟩ := hsrc.sound.wellTyped _ hsrc.live i hi
  cases low with
  | scalar =>
    have hshapes : ∀ v ∈ (c.func.op i).operands, ∃ σ', laneShape c shapes v = .ok σ' ∧
        σ' ≠ .varying := by
      cases hl with
      | scalar _ _ _ hops => exact hops
    have hσ : σ ≠ .varying := by
      cases hl with
      | scalar _ _ hs _ => exact hs
    have hstands : ∀ v ∈ (c.func.op i).operands, Ready c iv s.func code (s.rename v) ∧
        s.func.operandTy (s.rename v) = .ok (c.func.tyOf v) := fun v hv => by
      obtain ⟨σ', hσ', hne⟩ := hshapes v hv
      have := h.standsFor_rename hsrc hat hphi hv hσ'
      exact ⟨this.ready, this.scalar hne⟩
    simp only [BodyState.step]
    rw [hinst h]
    refine h.add hsrc hb hat ?_ ?_ (?_ : _ = Except.ok ty) hlook ?_ ?_ (fun _ => rfl) fun h => absurd h hσ
    · rw [isPhi_mapOperands]
      exact hphi
    · rw [isTerminator_mapOperands]
      exact hterm
    · refine Typing.resultTy_extends (.refl tt) (hsrc.keepsTypes.trans h.emits.appends.keepsTypes).ret_eq
        (hsrc.sound.tys_lt _ List.mem_cons_self) (TypeTable.lookup_lt hlook) (fun v hv t ht => ?_) hty
      rw [(hstands v hv).2, Typing.tyOf_of_operandTy ht]
      exact ⟨rfl, hsrc.sound.tys_lt t (mem_tys_of_operandTy ht)⟩
    · intro w hw
      rw [Op.operands_mapOperands] at hw
      obtain ⟨v, hv, rfl⟩ := List.mem_map.mp hw
      exact (hstands v hv).1
    · intro u a hop
      exact (forall_mem_tys.mp hsrc.sound.tys_lt).2.2.2 i
        (hsrc.sound.wellFormed.inst_lt hsrc.live hi) |>.2 u a (alloca_of_mapOperands hop)
  | widen t splats =>
    obtain ⟨hfrom, hall, hshapes⟩ := hl.splats
    obtain ⟨code₁, h₁, hdone, _⟩ := Carries.splats hsrc hb hat hphi name h hfrom
    simp only [BodyState.step]
    generalize splats.foldl (fun s (v, t) => s.splat b name v t) s = s₁ at h₁ hdone ⊢
    have hstands := h₁.standsFor_widened hsrc hat hphi hfrom hall hdone
    rw [ Func.op, hinst h₁]
    obtain ⟨ty', hty', hlook'⟩ := resultTy_widen hl hty hlook (hsrc.scalar i hi).1 (hsrc.scalar i hi).2
      (g := s₁.func) (σ := s₁.widened splats) fun v hv => by
        obtain ⟨σ', hσ'⟩ := hshapes v hv
        exact (hstands v hv hσ').replaced hσ'
    refine h₁.add hsrc hb hat ?_ ?_ hty' hlook' ?_ ?_ ?_ ?_
    · rw [isPhi_mapOperands]
      exact hphi
    · rw [isTerminator_mapOperands]
      exact hterm
    · intro w hw
      rw [Op.operands_mapOperands] at hw
      obtain ⟨v, hv, rfl⟩ := List.mem_map.mp hw
      obtain ⟨σ', hσ'⟩ := hshapes v hv
      exact (hstands v hv hσ').ready
    · intro u a hop
      exact (forall_mem_tys.mp hsrc.sound.tys_lt).2.2.2 i
        (hsrc.sound.wellFormed.inst_lt hsrc.live hi) |>.2 u a (alloca_of_mapOperands hop)
    · intro hσ
      cases hl with
      | load _ _ _ => exact absurd rfl hσ
      | store _ _ _ _ => rfl
      | lanewise _ _ _ _ => exact absurd rfl hσ
    · intro hσ
      cases hl with
      | load _ _ ht => exact ht
      | store _ _ _ _ => cases hσ
      | lanewise _ ht _ _ => exact ht

/-- Carrying the body over. -/
theorem steps (hsrc : Source tt c base) (hb : b < base.blocks.size) (name : String) {t : InstId}
    {is : List InstId} {steps : List (InstId × Lowering)} (hl : LowersAll tt c shapes is steps) :
    ∀ {s : BodyState} {code : List InstId}, Carries tt c iv b base shapes s code →
    (∃ done, c.func.body c.loop.bodyEntry = done ++ (is ++ [t]) ∧
      ∀ j ∈ done, shapes.lookup (.inst j) ≠ none) →
    ∃ shapes' code', Carries tt c iv b base shapes'
      (steps.foldl (fun s (i, low) => s.step b name i low) s) code' := by
  induction hl with
  | nil =>
    intro s code h _
    exact ⟨_, code, h⟩
  | @cons shapes i is σ low steps hl _ ih =>
    rintro s code h ⟨done, hbody, hdone⟩
    have hat : At c shapes i (is ++ [t]) := ⟨done, by simpa using hbody, hdone⟩
    obtain ⟨code₁, h₁⟩ := h.step hsrc hb hat hl name
    refine ih h₁ ⟨done ++ [i], by simpa using hbody, fun j hj => ?_⟩
    rw [List.lookup_cons]
    split
    · exact nofun
    · rename_i hne
      rcases List.mem_append.mp hj with hj | hj
      · exact hdone j hj
      · rw [List.mem_singleton.mp hj, beq_self_eq_true] at hne
        cases hne

end Carries

/-- The induction value stands for the old one. -/
theorem Carries.nil {old : Operand} (hbase : ∀ t ∈ base.tys, t < tt.size)
    (hiv : base.operandTy (.inst iv) = .ok (c.func.tyOf old)) :
    Carries tt c iv b base [(old, .index 1)] ⟨base, [(old, .inst iv)], []⟩ [] := by
  refine ⟨.nil hbase, fun v σ hv => ?_, fun v hv => ?_, nofun⟩
  · rw [List.lookup_cons] at hv
    split at hv
    · rename_i heq
      obtain rfl := eq_of_beq heq
      cases hv
      exact ⟨.inst iv, by simp, ⟨⟨_, hiv⟩, .inl ⟨iv, rfl, .inl rfl⟩⟩, fun _ => hiv, nofun⟩
    · cases hv
  · rw [List.lookup_cons] at hv ⊢
    split at hv
    · cases hv
    · rfl

/-- The old body, carried over by a plan into a function with the induction value of a vector
loop. -/
abbrev carried (p : VectorPlan) (n : VectorLoop) (base : Func) : BodyState :=
  p.steps.foldl (fun s (i, low) => s.step n.blocks.body p.base i low)
    ⟨base, [(p.loop.iv, .inst n.iv)], []⟩

/-- What was emitted into the body of the vector loop carries the old body over, and it is still
there. -/
theorem carries_of_emission {p : VectorPlan} {n : VectorLoop} {f : Func}
    (hem : Emission p n f base g) (hsrc : Source tt c base)
    (hlow : LowersAll tt c [(p.loop.iv, .index 1)] (c.func.body c.loop.bodyEntry).dropLast p.steps)
    (htys : ∀ t ∈ base.tys, t < tt.size) (hiv : p.ivTy = c.func.tyOf p.loop.iv) :
    (∃ shapes, Carries tt c n.iv n.blocks.body base shapes (carried p n base) n.code) ∧
      (carried p n base).func.KeepsTypes g ∧ ∀ i ∈ n.code,
        g.op i = (carried p n base).func.op i ∧ (g.inst i).ty = ((carried p n base).func.inst i).ty := by
  have hinit : Carries tt c n.iv n.blocks.body base [(p.loop.iv, .index 1)]
      ⟨base, [(p.loop.iv, .inst n.iv)], []⟩ [] := .nil htys (hiv ▸ hem.iv_ty)
  obtain ⟨t, ht⟩ := hsrc.sound.wellFormed.ends _ hsrc.live
  obtain ⟨⟨front, hbody⟩, _⟩ := terminator?_eq_some.mp ht
  rw [hbody, List.dropLast_concat] at hlow
  obtain ⟨shapes, code, hc⟩ := Carries.steps hsrc hem.body_lt p.base hlow hinit
    ⟨[], by rw [hbody]; rfl, fun _ hj => absurd hj List.not_mem_nil⟩
  have happ := (carried p n base).func.appends_appendInst
    (hc.emits.appends.blocks_size_eq ▸ hem.body_lt) ⟨.br n.blocks.latch, p.voidTy, none⟩
  -- Both lists of instructions are what the block got.
  have heq : code = n.code :=
    List.append_inj_left' ((hc.emits.appends.trans happ).code_unique hem.appends) rfl
  subst heq
  refine ⟨⟨shapes, hc⟩, happ.keepsTypes.trans hem.keepsTypes, fun i hi => ?_⟩
  have hlt := ((hc.emits.appends.mem_code i).mp hi).2
  exact ⟨(hem.op_eq i hi).trans (happ.op_eq hlt),
    (hem.ty_eq i hi).trans (congrArg Inst.ty (happ.inst_eq i hlt))⟩

/-- What was emitted into the body of the vector loop. -/
theorem emitted_of_emission {p : VectorPlan} {n : VectorLoop} {f : Func}
    (hem : Emission p n f base g) (hsrc : Source tt c base)
    (hlow : LowersAll tt c [(p.loop.iv, .index 1)] (c.func.body c.loop.bodyEntry).dropLast p.steps)
    (htys : ∀ t ∈ base.tys, t < tt.size) (hiv : p.ivTy = c.func.tyOf p.loop.iv)
    {pre post : List InstId} (hcode : n.code = pre ++ i :: post) : Emitted tt c n.iv g pre i := by
  obtain ⟨⟨shapes, hc⟩, hkeeps, hinst⟩ := carries_of_emission hem hsrc hlow htys hiv
  obtain ⟨hop, hty⟩ := hinst i (hcode ▸ by simp)
  exact (hc.emits.emitted pre i post hcode).mono hkeeps hop hty hc.emits.tys_lt

end Vectorize

end LoopNest
