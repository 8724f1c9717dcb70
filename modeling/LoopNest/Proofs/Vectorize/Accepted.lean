import LoopNest.Proofs.Accepted
import LoopNest.Proofs.Typing
import LoopNest.Proofs.Vectorize.Body
import LoopNest.Proofs.Vectorize.Framed

/-!
# A function with a vector loop is sound

The types of the vector loop come from how its body was emitted (`emitted_of_emission`).  Each
condition of a sound function that a function in order need not meet is one case split over `Member`.

Uses in kept blocks are dominated because kept blocks keep their dominance, and nothing outside
uses what the old loop computes.  The new blocks use what comes before them in the vector loop, or
what is computed before the old loop and therefore dominates the preheader (`Before`).

The other two conditions of the pass are kept, too: a loop of the new function is the vector loop,
whose header is marked, or has the header and the kept blocks of an old one.
-/

namespace LoopNest

open Func FlowGraph

/-- What comes before the first place of an element comes before each of its places. -/
theorem mem_of_split {α : Type} (front : List α) {rest pre post : List α} {i j : α}
    (heq : front ++ i :: rest = pre ++ i :: post) (hi : i ∉ front) (hj : j ∈ front) : j ∈ pre := by
  rcases List.append_eq_append_iff.mp heq with ⟨mid, rfl, _⟩ | ⟨mid, rfl, hmid⟩
  · exact List.mem_append_left _ hj
  · cases mid with
    | nil => simpa using hj
    | cons x mid =>
      obtain ⟨rfl, _⟩ := List.cons_eq_cons.mp hmid
      exact absurd (by simp) hi

namespace Vectorize

variable {tt : TypeTable} {c : Context} {l : NaturalLoop} {p : VectorPlan} {n : VectorLoop}
  {f g : Func} {b d x y : BlockId} {i j : InstId} {v : Operand}

/-- An operand that is computed before a loop, if it is computed at all. -/
def Before (f : Func) (l : NaturalLoop) (p : VectorPlan) (v : Operand) : Prop :=
  ∀ j, v = .inst j → ∃ d, f.owner j = some d ∧ d ∈ f.layout ∧ d ∉ l.blocks ∧ j ∈ f.body d ∧
    (ofFunc f).Dominates d p.loop.preheader

/-- What is usable in the preheader is computed before the loop. -/
theorem Planned.before (hp : Planned tt f l p) (hf : f.WellFormed) {v : Operand} {t : TyId}
    (hv : Usable f p.loop.preheader v t) : Before f l p v := fun j hj => by
  obtain ⟨d, hd, hlive, hlist, hdom, _⟩ := hv.inst_usable j hj
  have hdom : (ofFunc f).Dominates d p.loop.preheader := by
    by_cases heq : d = p.loop.preheader
    · exact heq ▸ .refl
    · exact hdom heq
  refine ⟨d, hd, hlive, fun hmem => hp.counted.preheader_out ?_, hlist, hdom⟩
  -- Otherwise the preheader is a latch.
  have hr := CountedLoop.preheader_reachable hf.entry_predecessors hp.isLoop hp.counted
  exact hp.isLoop.latch_mem ((hp.isLoop.mem_latches _).mpr
    ⟨hp.edge_preheader.2, hr, (hp.isLoop.dominates hmem).trans hdom⟩)

/-- A sound function, and the same with a vector loop. -/
structure TypedSplicing (tt : TypeTable) (c : Context) (l : NaturalLoop) (p : VectorPlan)
    (n : VectorLoop) (f g : Func) : Prop extends Splicing l p n f g where
  sound : f.Sound tt
  planned : Planned tt f l p
  stop_usable : Usable f p.loop.preheader n.stop p.ivTy
  outside : ∀ v, Outside c v → Before f l p v
  emitted : ∀ pre i post, n.code = pre ++ i :: post → Emitted tt c n.iv g pre i
  tys_lt : ∀ t ∈ g.tys, t < tt.size

/-- An operand that has a type, and is listed in a block if it is computed. -/
structure Sited (g : Func) (v : Operand) : Prop where
  typed : ∃ t, g.operandTy v = .ok t
  listed : ∀ j, v = .inst j → ∃ d ∈ g.layout, g.owner j = some d ∧ j ∈ g.body d

namespace TypedSplicing

variable (h : TypedSplicing tt c l p n f g)

include h

theorem wellFormed : f.WellFormed := h.sound.wellFormed

/-! ## Operands -/

/-- What a kept block uses is kept. -/
theorem kept_operand (hb : Kept l n f b) (hi : i ∈ f.body b)
    (hj : Operand.inst j ∈ (f.op i).operands) :
    ∃ d, Kept l n f d ∧ f.owner j = some d ∧ g.owner j = some d ∧ j ∈ f.body d := by
  have hex := h.wellFormed.operand_exists b hb.1 i hi _ hj
  obtain ⟨d, hd⟩ : ∃ d, f.owner j = some d := by
    simp only [Verify.operandExists, isLiveInst, Bool.and_eq_true] at hex
    cases ho : f.owner j with
    | none => simp [ho] at hex
    | some d => exact ⟨d, rfl⟩
  have hlive := live_of_operandExists hex hd
  have hlist := usesListed_iff.mp h.sound.usesListed b hb.1 i hi j hj d hd
  have hkd : Kept l n f d := ⟨hlive, fun hm hmem =>
    h.planned.uses d hmem j hlist b hb.1 (hb.2 hm) i hi hj⟩
  exact ⟨d, hkd, hd, h.owner_eq d hkd j hlist, hlist⟩

theorem kept_of_before (hv : Before f l p v) (hj : v = .inst j) :
    ∃ d, Kept l n f d ∧ g.owner j = some d ∧ j ∈ f.body d ∧
      (ofFunc g).Dominates d p.loop.preheader := by
  obtain ⟨d, hd, hlive, hout, hlist, hdom⟩ := hv j hj
  have hkd : Kept l n f d := ⟨hlive, fun _ => hout⟩
  exact ⟨d, hkd, h.owner_eq d hkd j hlist, hlist, h.dominates_kept hkd h.kept_preheader hdom⟩

theorem sited_of_before {t : TyId} (hty : f.operandTy v = .ok t) (hv : Before f l p v) :
    Sited g v := by
  refine ⟨⟨t, h.keepsTypes.operandTy_eq v t hty⟩, fun j hj => ?_⟩
  obtain ⟨d, hkd, hd, hlist, _⟩ := h.kept_of_before hv hj
  exact ⟨d, h.live_of_kept hkd, hd, h.body_eq d hkd ▸ hlist⟩

theorem before_start : Before f l p p.loop.start :=
  h.planned.before h.wellFormed (h.planned.usable_start h.sound)

theorem before_stop : Before f l p n.stop := h.planned.before h.wellFormed h.stop_usable

theorem sited_start : Sited g p.loop.start :=
  h.sited_of_before (h.planned.usable_start h.sound).operandTy_eq h.before_start

theorem sited_stop : Sited g n.stop := h.sited_of_before h.stop_usable.operandTy_eq h.before_stop

theorem sited_new (hb : b ∈ [n.blocks.header, n.blocks.body, n.blocks.latch]) (hi : i ∈ g.body b) :
    Sited g (.inst i) := by
  have hown := h.newLoop.owner_of_mem hb hi
  refine ⟨⟨_, operandTy_inst (owner_lt hown)⟩, fun j hj => ?_⟩
  cases hj
  exact ⟨b, h.live_of_new (List.mem_append_left _ hb), hown, hi⟩

theorem sited_iv : Sited g (.inst n.iv) :=
  h.sited_new (b := n.blocks.header) (by simp) (by simp [h.newLoop.header_body])

theorem sited_cond : Sited g (.inst n.cond) :=
  h.sited_new (b := n.blocks.header) (by simp) (by simp [h.newLoop.header_body])

theorem sited_next : Sited g (.inst n.next) :=
  h.sited_new (b := n.blocks.latch) (by simp) (by simp [h.newLoop.latch_body])

/-- What emitted code uses. -/
theorem emitted_operand {pre post : List InstId} (hcode : n.code = pre ++ i :: post)
    (hj : Operand.inst j ∈ (g.op i).operands) : j = n.iv ∨ j ∈ pre ∨
    ∃ d, Kept l n f d ∧ g.owner j = some d ∧ j ∈ f.body d ∧
      (ofFunc g).Dominates d p.loop.preheader := by
  rcases ((h.emitted pre i post hcode).operands _ hj).available with
    ⟨k, heq, hk⟩ | hout
  · cases heq
    exact hk.imp_right .inl
  · exact .inr (.inr (h.kept_of_before (h.outside _ hout) rfl))

theorem sited_operand (hm : Member l p n f g b i) (hv : v ∈ (g.op i).operands) : Sited g v := by
  cases hm with
  | kept hb hi =>
    rcases h.mem_operands hb hi hv with hv | rfl
    · obtain ⟨t, ht⟩ := operandTy_of_exists (h.wellFormed.operand_exists b hb.1 i hi v hv)
      refine ⟨⟨t, h.keepsTypes.operandTy_eq v t ht⟩, fun j hj => ?_⟩
      obtain ⟨d, hkd, _, hd, hlist⟩ := h.kept_operand hb hi (hj ▸ hv)
      exact ⟨d, h.live_of_kept hkd, hd, h.body_eq d hkd ▸ hlist⟩
    · exact h.sited_stop
  | iv =>
    rw [h.newLoop.iv.op_eq] at hv
    simp only [Op.operands, List.map_cons, List.map_nil, List.mem_cons, List.not_mem_nil,
      or_false] at hv
    rcases hv with rfl | rfl
    · exact h.sited_start
    · exact h.sited_next
  | cond =>
    rw [h.newLoop.cond.op_eq] at hv
    simp only [Op.operands, List.mem_cons, List.not_mem_nil, or_false] at hv
    rcases hv with rfl | rfl
    · exact h.sited_iv
    · exact h.sited_stop
  | branch =>
    rw [h.newLoop.branch.op_eq, Op.operands, List.mem_singleton] at hv
    exact hv ▸ h.sited_cond
  | code hi =>
    obtain ⟨pre, post, hcode⟩ := List.append_of_mem hi
    refine ⟨((h.emitted pre i post hcode).operands v hv).typed, fun j hj => ?_⟩
    subst hj
    rcases h.emitted_operand hcode hv with rfl | hj | ⟨d, hkd, hd, hlist, _⟩
    · exact h.sited_iv.listed _ rfl
    · refine (h.sited_new (b := n.blocks.body) (by simp) ?_).listed j rfl
      rw [h.newLoop.body_body, hcode]
      simp [hj]
    · exact ⟨d, h.live_of_kept hkd, hd, h.body_eq d hkd ▸ hlist⟩
  | jump =>
    rw [h.newLoop.jump.op_eq] at hv
    exact absurd hv List.not_mem_nil
  | next =>
    rw [h.newLoop.next.op_eq] at hv
    simp only [Op.operands, List.mem_cons, List.not_mem_nil, or_false] at hv
    rcases hv with rfl | rfl
    · exact h.sited_iv
    · exact ⟨⟨_, h.newLoop.step_ty⟩, by rintro _ ⟨⟩⟩
  | back =>
    rw [h.newLoop.back.op_eq] at hv
    exact absurd hv List.not_mem_nil
  | leave _ _ hleave =>
    rw [hleave.op_eq] at hv
    exact absurd hv List.not_mem_nil

/-! ## Uses -/

/-- What is computed before the loop is computed before the new blocks. -/
theorem dominates_of_before (hv : Before f l p v) (hj : v = .inst j) (hb : b ∈ n.blocks.all) :
    ∃ d, g.owner j = some d ∧ d ≠ b ∧ (ofFunc g).Dominates d b := by
  obtain ⟨d, hkd, hd, _, hdom⟩ := h.kept_of_before hv hj
  exact ⟨d, hd, fun heq => h.not_mem_of_kept hkd (heq ▸ hb), hdom.trans (h.dominates_new hb)⟩

theorem use_dominated (hm : Member l p n f g b i) (hr : (ofFunc g).Reachable b)
    (hphi : (g.op i).isPhi = false) (hj : Operand.inst j ∈ (g.op i).operands) :
    ∃ d, g.owner j = some d ∧ (d ≠ b → (ofFunc g).Dominates d b) ∧
      (d = b → ∀ pre post, g.body b = pre ++ i :: post → j ∈ pre) := by
  have houtside : ∀ {b}, (∃ d, g.owner j = some d ∧ d ≠ b ∧ (ofFunc g).Dominates d b) →
      ∃ d, g.owner j = some d ∧ (d ≠ b → (ofFunc g).Dominates d b) ∧
        (d = b → ∀ pre post, g.body b = pre ++ i :: post → j ∈ pre) := by
    rintro b ⟨d, hd, hne, hdom⟩
    exact ⟨d, hd, fun _ => hdom, fun heq => absurd heq hne⟩
  cases hm with
  | kept hb hi =>
    have hsame : Operand.inst j ∈ (f.op i).operands ∧ (f.op i).isPhi = false := by
      rcases h.op_cases hb hi with ⟨_, heq⟩ | ⟨_, _, heq⟩ | ⟨_, _, _, _, _, _, heq⟩
      · exact heq ▸ ⟨hj, hphi⟩
      · rw [heq, operands_retarget] at hj
        rw [heq, isPhi_retarget] at hphi
        exact ⟨hj, hphi⟩
      · rw [heq] at hphi
        cases hphi
    have hr := h.reachable_old (h.not_mem_of_kept hb) hr
    obtain ⟨d, hd, hdom, hpos⟩ := h.wellFormed.use_dominated b hb.1 hr i hi hsame.2 j hsame.1
    obtain ⟨d', hkd, hd', hown, _⟩ := h.kept_operand hb hi hsame.1
    obtain rfl : d = d' := Option.some.inj (hd.symm.trans hd')
    refine ⟨d, hown, fun hne => h.dominates_kept hkd hb (hdom hne), fun heq => ?_⟩
    rw [h.body_eq b hb]
    exact hpos heq
  | iv =>
    rw [h.newLoop.iv.op_eq] at hphi
    cases hphi
  | cond =>
    rw [h.newLoop.cond.op_eq] at hj
    simp only [Op.operands, List.mem_cons, List.not_mem_nil, or_false] at hj
    rcases hj with heq | heq
    · cases heq
      refine ⟨_, h.newLoop.iv.owner_eq, fun hne => absurd rfl hne, fun _ pre post hbody => ?_⟩
      rw [h.newLoop.header_body] at hbody
      refine mem_of_split [n.iv] hbody (fun hmem => ?_) (List.mem_singleton.mpr rfl)
      rw [List.mem_singleton.mp hmem, h.newLoop.iv.op_eq] at hphi
      cases hphi
    · exact houtside (h.dominates_of_before h.before_stop heq.symm n.header_mem)
  | branch =>
    rw [h.newLoop.branch.op_eq, Op.operands, List.mem_singleton] at hj
    cases hj
    refine ⟨_, h.newLoop.cond.owner_eq, fun hne => absurd rfl hne, fun _ pre post hbody => ?_⟩
    rw [h.newLoop.header_body] at hbody
    refine mem_of_split [n.iv, n.cond] hbody (fun hmem => ?_) (by simp)
    have hop := h.newLoop.branch.op_eq
    simp only [List.mem_cons, List.not_mem_nil, or_false] at hmem
    rcases hmem with heq | heq
    · rw [heq, h.newLoop.iv.op_eq] at hop
      cases hop
    · rw [heq, h.newLoop.cond.op_eq] at hop
      cases hop
  | code hi =>
    -- Look at the first place of the user.
    obtain ⟨front, rest, hcode, hfront⟩ := List.eq_append_cons_of_mem hi
    rcases h.emitted_operand hcode hj with rfl | hmem | ⟨d, hkd, hd, _, hdom⟩
    · exact houtside ⟨_, h.newLoop.iv.owner_eq, h.ne_blocks.1, h.header_dominates n.body_mem⟩
    · have hown := h.newLoop.owner_eq j (hcode ▸ List.mem_append_left _ hmem)
      refine ⟨_, hown, fun hne => absurd rfl hne, fun _ pre post hbody => ?_⟩
      rw [h.newLoop.body_body, hcode, List.append_assoc] at hbody
      exact mem_of_split front hbody hfront hmem
    · exact houtside ⟨d, hd, fun heq => h.not_mem_of_kept hkd (heq ▸ n.body_mem),
        hdom.trans (h.dominates_new n.body_mem)⟩
  | jump =>
    rw [h.newLoop.jump.op_eq] at hj
    exact absurd hj List.not_mem_nil
  | next =>
    rw [h.newLoop.next.op_eq] at hj
    simp only [Op.operands, List.mem_cons, List.not_mem_nil, or_false, reduceCtorEq] at hj
    cases hj
    exact houtside ⟨_, h.newLoop.iv.owner_eq, h.ne_blocks.2.1, h.header_dominates n.latch_mem⟩
  | back =>
    rw [h.newLoop.back.op_eq] at hj
    exact absurd hj List.not_mem_nil
  | leave _ _ hleave =>
    rw [hleave.op_eq] at hj
    exact absurd hj List.not_mem_nil

/-! ## Phis -/

theorem phi_dominated (hm : Member l p n f g b i) {incoming : List (Operand × BlockId)}
    (hop : g.op i = .phi incoming) {q : BlockId} (he : (Operand.inst j, q) ∈ incoming)
    (hd : g.owner j = some d) : (ofFunc g).Dominates d q := by
  -- What is taken from a kept block is kept, too.
  have hkept : ∀ {b} {incoming : List (Operand × BlockId)}, Kept l n f b → i ∈ f.body b →
      f.op i = .phi incoming → (Operand.inst j, q) ∈ incoming → Kept l n f q →
      (ofFunc g).Dominates d q := by
    intro b incoming hb hi hop he hq
    obtain ⟨d', hkd, hd', hown, _⟩ := h.kept_operand hb hi
      (by rw [hop]; exact List.mem_map_of_mem he)
    obtain rfl : d = d' := Option.some.inj (hd.symm.trans hown)
    exact h.dominates_kept hkd hq (h.wellFormed.phi_dominated b hb.1 i hi incoming hop j q he d hd')
  rcases h.phi_cases hm hop with ⟨hb, hi, hh, hx, hop'⟩ | ⟨m, incoming', hm', rfl, hi, hop', rfl⟩ |
    ⟨rfl, rfl⟩
  · have hq := ((h.phi_sources hm hop).2 q).mp (List.mem_map_of_mem he)
    obtain ⟨hlive, _⟩ := (f.mem_predecessors _ _).mp ((h.mem_predecessors_kept hb hh hx).mp hq)
    have hlive' := ((g.mem_predecessors _ _).mp hq).1
    exact hkept hb hi hop' he (h.kept_of_mem_layout hlive' (h.not_mem_of_live hlive))
  · rcases mem_resumed he with heq | ⟨he, _⟩
    · obtain ⟨hstop, rfl⟩ := Prod.mk.inj heq
      obtain ⟨d', hown, _, hdom⟩ := h.dominates_of_before h.before_stop hstop.symm
        (VectorLoop.middle_mem hm')
      exact Option.some.inj (hd.symm.trans hown) ▸ hdom
    · have hlive := ((f.mem_predecessors _ _).mp
        (((h.wellFormed.phi_sources _ h.planned.header_live i hi incoming' hop').2 q).mp
          (List.mem_map_of_mem he))).1
      exact hkept (h.kept_header hm') hi hop' he (kept_of_middle hm' hlive)
  · simp only [List.mem_cons, List.not_mem_nil, or_false] at he
    rcases he with heq | heq
    · obtain ⟨hstart, rfl⟩ := Prod.mk.inj heq
      obtain ⟨d', _, hown, _, hdom⟩ := h.kept_of_before h.before_start hstart.symm
      exact Option.some.inj (hd.symm.trans hown) ▸ hdom
    · cases heq
      rw [h.newLoop.next.owner_eq] at hd
      cases hd
      exact .refl

/-! ## The whole function -/

theorem wellFormed_spliced : g.WellFormed := by
  constructor
  case owner_eq => exact h.framed_spliced.owner_eq
  case ends => exact h.framed_spliced.ends
  case terminator_eq => exact h.framed_spliced.terminator_eq
  case phi_first => exact h.framed_spliced.phi_first
  case successor_live => exact h.framed_spliced.successor_live
  case entry_predecessors => exact h.framed_spliced.entry_predecessors
  case phi_sources => exact h.framed_spliced.phi_sources
  case operand_exists =>
    intro b hb i hi v hv
    obtain ⟨⟨t, ht⟩, hlist⟩ := h.sited_operand (h.member hb hi) hv
    refine operandExists_of_operandTy ht fun j hj => ?_
    obtain ⟨d, hd, hown, _⟩ := hlist j hj
    exact ⟨d, hd, hown⟩
  case phi_dominated =>
    exact fun b hb i hi incoming hop j q he d hd => h.phi_dominated (h.member hb hi) hop he hd
  case use_dominated =>
    exact fun b hb hr i hi hphi j hj => h.use_dominated (h.member hb hi) hr hphi hj

theorem usesListed_spliced : g.UsesListed := by
  refine usesListed_iff.mpr fun b hb i hi j hj d hd => ?_
  obtain ⟨d', _, hown, hlist⟩ := (h.sited_operand (h.member hb hi) hj).listed j rfl
  exact Option.some.inj (hd.symm.trans hown) ▸ hlist

/-! ## Types -/

theorem wellTyped_spliced : g.WellTyped tt := by
  have hvoid := h.planned.voidTy_eq
  have hbool := h.planned.boolTy_eq
  obtain ⟨hidx, _, _, hincoming, _⟩ := h.planned.operandTy_eq h.sound
  have hstop := h.keepsTypes.operandTy_eq _ _ h.stop_usable.operandTy_eq
  have hiv : g.operandTy (.inst n.iv) = .ok p.ivTy := by
    rw [operandTy_inst (owner_lt h.newLoop.iv.owner_eq), h.newLoop.iv.ty_eq]
  obtain ⟨s, hshape, hint⟩ := hidx.shape_eq
  have hbr : ∀ {t : BlockId} {i : InstId}, g.op i = .br t → (g.inst i).ty = p.voidTy →
      ∃ ty, Typing.resultTy tt g (g.op i) (some (g.inst i).ty) = .ok ty ∧
        tt.lookup ty = some (g.inst i).ty := fun hop hty => by
    rw [hop, hty]
    exact ⟨_, rfl, hvoid⟩
  intro b hb i hi
  cases h.member hb hi with
  | kept hk hif =>
    obtain ⟨ty, hres, hlook⟩ := h.sound.wellTyped b hk.1 i hif
    have hlt := TypeTable.lookup_lt hlook
    rw [h.ty_eq i (h.wellFormed.inst_lt hk.1 hif)]
    refine ⟨ty, ?_, hlook⟩
    have hsame : ∀ {o : Op}, Typing.resultTy tt f o (some (f.inst i).ty) = .ok ty →
        Typing.resultTy tt g o (some (f.inst i).ty) = .ok ty := fun ho =>
      h.keepsTypes.resultTy_eq h.sound.tys_lt hlt ho
    rcases h.op_cases hk hif with ⟨_, heq⟩ | ⟨_, _, heq⟩ | ⟨m, incoming, hm, rfl, rfl, hop, heq⟩
    · exact heq ▸ hsame hres
    · rw [heq, Typing.resultTy_retarget]
      exact hsame hres
    · have hty : (f.inst p.loop.induction).ty = p.ivTy := by
        have := (h.planned.operandTy_eq h.sound).2.1
        exact Except.ok.inj ((operandTy_inst (h.wellFormed.inst_lt hk.1 hif)).symm.trans this)
      rw [hop, hty] at hres
      obtain ⟨_, rfl⟩ := Typing.resultTy_phi.mp hres
      rw [heq, hty]
      refine Typing.resultTy_phi.mpr ⟨fun v hv => ?_, rfl⟩
      obtain ⟨e, he, rfl⟩ := List.mem_map.mp hv
      rcases mem_resumed he with rfl | ⟨he, _⟩
      · exact hstop
      · exact h.keepsTypes.operandTy_eq _ _ (hincoming incoming hop _ (List.mem_map_of_mem he))
  | iv =>
    rw [h.newLoop.iv.op_eq, h.newLoop.iv.ty_eq]
    refine ⟨_, Typing.resultTy_phi.mpr ⟨fun v hv => ?_, rfl⟩, hidx.lookup_eq⟩
    simp only [List.map_cons, List.map_nil, List.mem_cons, List.not_mem_nil, or_false] at hv
    rcases hv with rfl | rfl
    · exact h.keepsTypes.operandTy_eq _ _ (h.planned.usable_start h.sound).operandTy_eq
    · rw [operandTy_inst (owner_lt h.newLoop.next.owner_eq), h.newLoop.next.ty_eq]
  | cond =>
    rw [h.newLoop.cond.op_eq, h.newLoop.cond.ty_eq]
    exact ⟨_, Typing.resultTy_icmp.mpr ⟨p.ivTy, s, none, Typing.operandPair_iff.mpr ⟨hiv, hstop,
      Typing.scalarOrVector_eq_ok.mpr (.inl ⟨hshape, rfl⟩)⟩, hint, rfl⟩, hbool⟩
  | branch =>
    rw [h.newLoop.branch.op_eq, h.newLoop.branch.ty_eq]
    refine ⟨_, Typing.resultTy_condBr.mpr
      ⟨p.boolTy, ?_, TypeTable.shape_of_lookup hbool, rfl⟩, hvoid⟩
    rw [operandTy_inst (owner_lt h.newLoop.cond.owner_eq), h.newLoop.cond.ty_eq]
  | code hi =>
    obtain ⟨pre, post, hcode⟩ := List.append_of_mem hi
    exact (h.emitted pre i post hcode).typed
  | jump => exact hbr h.newLoop.jump.op_eq h.newLoop.jump.ty_eq
  | next =>
    rw [h.newLoop.next.op_eq, h.newLoop.next.ty_eq]
    refine ⟨_, Typing.resultTy_binary.mpr ⟨p.ivTy, s, none, Typing.operandPair_iff.mpr ⟨hiv,
      h.newLoop.step_ty, Typing.scalarOrVector_eq_ok.mpr (.inl ⟨hshape, rfl⟩)⟩, ?_, rfl⟩,
      hidx.lookup_eq⟩
    simp [BinaryOp.admits, BinaryOp.isFloat, hint]
  | back => exact hbr h.newLoop.back.op_eq h.newLoop.back.ty_eq
  | leave _ _ hleave => exact hbr hleave.op_eq hleave.ty_eq

theorem sound_spliced : g.Sound tt :=
  ⟨h.wellFormed_spliced, h.wellTyped_spliced, h.usesListed_spliced, h.tys_lt⟩

/-! ## The next round -/

/-- There are no vectors in the header of the vector loop. -/
theorem scalarBlock_header : g.ScalarBlock tt n.blocks.header := by
  have hidx := (h.planned.operandTy_eq h.sound).1.lanes_eq
  have hbool := lanes_bool h.planned.boolTy_eq
  have hvoid : tt.lanes? p.voidTy = none := by
    simp [TypeTable.lanes?, TypeTable.shape_of_lookup h.planned.voidTy_eq, Shape.unnamed]
  have hinst : ∀ {i : InstId} {op : Op} {t : TyId} {b : BlockId}, Holds g i op t b →
      tt.lanes? t = none → tt.lanes? (g.tyOf (.inst i)) = none := fun hi ht => by
    rwa [Typing.tyOf_of_operandTy (operandTy_inst (owner_lt hi.owner_eq)), hi.ty_eq]
  have hiv := hinst h.newLoop.iv hidx
  have hindex : ∀ {v : Operand}, f.operandTy v = .ok p.ivTy → tt.lanes? (g.tyOf v) = none :=
    fun hv => by rwa [Typing.tyOf_of_operandTy (h.keepsTypes.operandTy_eq _ _ hv)]
  have hstart := hindex (h.planned.usable_start h.sound).operandTy_eq
  have hstop := hindex h.stop_usable.operandTy_eq
  intro i hi
  simp only [h.newLoop.header_body, List.mem_cons, List.not_mem_nil, or_false] at hi
  rcases hi with rfl | rfl | rfl
  · rw [h.newLoop.iv.op_eq, h.newLoop.iv.ty_eq]
    simp [Op.operands, hidx, hstart, hinst h.newLoop.next hidx]
  · rw [h.newLoop.cond.op_eq, h.newLoop.cond.ty_eq]
    simp [Op.operands, hbool, hiv, hstop]
  · rw [h.newLoop.branch.op_eq, h.newLoop.branch.ty_eq]
    simp [Op.operands, hvoid, hinst h.newLoop.cond hbool]

/-- Kept blocks get no vectors. -/
theorem scalarBlock_kept (hb : Kept l n f b) (hscalar : f.ScalarBlock tt b) :
    g.ScalarBlock tt b := by
  intro i hi
  rw [h.body_eq b hb] at hi
  obtain ⟨hty, hops⟩ := hscalar i hi
  rw [h.ty_eq i (h.wellFormed.inst_lt hb.1 hi)]
  refine ⟨hty, fun v hv => ?_⟩
  rcases h.mem_operands hb hi hv with hv | rfl
  · obtain ⟨t, ht⟩ := operandTy_of_exists (h.wellFormed.operand_exists b hb.1 i hi v hv)
    rw [Typing.tyOf_of_operandTy (h.keepsTypes.operandTy_eq v t ht), ← Typing.tyOf_of_operandTy ht]
    exact hops v hv
  · rw [Typing.tyOf_of_operandTy (h.keepsTypes.operandTy_eq _ _ h.stop_usable.operandTy_eq)]
    exact (h.planned.operandTy_eq h.sound).1.lanes_eq

theorem guarded_spliced (hguard : f.Guarded tt) : g.Guarded tt := by
  intro k hk hmark b hb hs
  have hlive : ∀ {b}, b ∈ k.blocks → b ∈ g.layout := fun hb => CountedLoop.live_of_mem hk hb
  have hedge := (edge_ofFunc g k.header b).mpr ⟨hlive hk.header_mem, hlive hb, hs⟩
  by_cases hheader : k.header ∈ n.blocks.all
  · rw [(h.eq_header hk hheader).1, h.marked] at hmark
    cases hmark
  by_cases hnew : b ∈ n.blocks.all
  · exact (h.eq_preheader_of_edge hedge hheader hnew).2 ▸ h.scalarBlock_header
  have hkb := h.kept_of_mem_layout (hlive hb) hnew
  have hkh := h.kept_of_mem_layout (hlive hk.header_mem) hheader
  have hold := ((h.edge_kept hkh hkb).mp hedge).1
  obtain ⟨k', hk', heq, hb'⟩ := h.exists_loop hk hheader hb hnew
  refine h.scalarBlock_kept hkb (hguard k' hk' ?_ b hb' ?_)
  · rw [heq]
    by_contra hmark'
    rw [Bool.not_eq_false] at hmark'
    rw [h.still_marked _ hmark'] at hmark
    cases hmark
  · rw [heq]
    exact ((edge_ofFunc f _ _).mp hold).2.2

end TypedSplicing

end Vectorize

end LoopNest
