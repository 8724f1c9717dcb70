import LoopNest.Proofs.Machine.Extends
import LoopNest.Proofs.Vectorize.Pruned
import LoopNest.Proofs.Vectorize.Stages
import LoopNest.Proofs.Vectorize.Verified

/-!
# One round after the other

`Between` is what holds between two rounds of the pass.  It relates a function to the same function
without some blocks that are never reached: the pass makes the same rounds in both
(`Between.tidied_round`), the verifier keeps accepting the second one (`Between.apply`), and each
round preserves its results (`Between.answers_apply`).  So the pass as a whole does
(`Between.sweep`).  At the start the second function is the part of the first one that is reached
(`between_reached`).
-/

namespace LoopNest

open Func FlowGraph

namespace Func

variable {tt tt' : TypeTable} {f g : Func} {b : BlockId} {i : InstId} {args : List Datum}

theorem mem_operands_of_pointer? {o : Op} {p : Operand} (h : o.pointer? = some p) :
    p ∈ o.operands := by
  cases o <;> simp_all [Op.pointer?, Op.operands]

/-- The types in a block are in the table. -/
structure TypesKnown (tt : TypeTable) (f : Func) (b : BlockId) : Prop where
  ty_lt : ∀ i ∈ f.body b, (f.inst i).ty < tt.size
  tyOf_lt : ∀ i ∈ f.body b, ∀ v ∈ (f.op i).operands, f.tyOf v < tt.size

theorem Sound.typesKnown (h : f.Sound tt) (hb : b ∈ f.layout) : TypesKnown tt f b where
  ty_lt i hi := ((forall_mem_tys.mp h.tys_lt).2.2.2 i (h.wellFormed.inst_lt hb hi)).1
  tyOf_lt i hi v hv := by
    obtain ⟨t, htv⟩ := operandTy_of_exists (h.wellFormed.operand_exists b hb i hi v hv)
    rw [Typing.tyOf_of_operandTy htv]
    exact h.tys_lt t (mem_tys_of_operandTy htv)

theorem Sound.typesIn (h : f.Sound tt) : f.TypesIn tt (· ∈ f.layout) where
  ty_lt _ hb := (h.typesKnown hb).ty_lt
  slot_lt _ hb i hi t a hop :=
    ((forall_mem_tys.mp h.tys_lt).2.2.2 i (h.wellFormed.inst_lt hb hi)).2 t a hop

theorem TypesKnown.accessTy?_lt (h : TypesKnown tt f b) (hi : i ∈ f.body b) {t : TyId}
    (ht : f.accessTy? i = some t) : t < tt.size := by
  unfold accessTy? at ht
  split at ht
  · cases ht
    exact h.ty_lt i hi
  · rename_i v p hop
    cases ht
    exact h.tyOf_lt i hi v (by rw [hop]; simp [Op.operands])
  · cases ht

theorem Elementwise.extends (h : f.Elementwise tt b) (ht : tt.Extends tt')
    (hk : TypesKnown tt f b) : f.Elementwise tt' b where
  scalar i hi := ⟨(lanes_extends ht (hk.ty_lt i hi)).trans (h.scalar i hi).1, fun v hv =>
    (lanes_extends ht (hk.tyOf_lt i hi v hv)).trans ((h.scalar i hi).2 v hv)⟩
  wide i hi s hs hint := by
    rw [ht.shape_eq_of_lt (hk.ty_lt i hi)] at hs
    exact h.wide i hi s hs hint
  stored i hi t hty := by
    rw [ht.shape_eq_of_lt (hk.accessTy?_lt hi hty)]
    exact h.stored i hi t hty
  alike i hi j hj p q t u hp hq hti htj hroot hne := by
    rw [ht.shape_eq_of_lt (hk.accessTy?_lt hi hti), ht.shape_eq_of_lt (hk.accessTy?_lt hj htj)]
    exact h.alike i hi j hj p q t u hp hq hti htj hroot hne

/-- The accesses and the types of the block are the same; phis may have fewer entries. -/
theorem Elementwise.congr (he : f.Elementwise tt b) (hbody : g.body b = f.body b)
    (hop : ∀ i ∈ f.body b, Alike (f.op i) (g.op i))
    (hops : ∀ i ∈ f.body b, ∀ v ∈ (g.op i).operands, v ∈ (f.op i).operands)
    (hty : ∀ i ∈ f.body b, (g.inst i).ty = (f.inst i).ty)
    (htyOf : ∀ i ∈ f.body b, ∀ v ∈ (g.op i).operands, g.tyOf v = f.tyOf v)
    (hplace : ∀ i ∈ f.body b, ∀ v ∈ (g.op i).operands, g.place v = f.place v) :
    g.Elementwise tt b := by
  have haccess (i : InstId) (hi : i ∈ f.body b) : g.accessTy? i = f.accessTy? i := by
    unfold accessTy?
    rcases hop i hi with heq | ⟨hphi, hphi'⟩
    · rw [heq, hty i hi]
      split
      · rfl
      · rename_i v p hopi
        rw [htyOf i hi v (by rw [heq, hopi]; simp [Op.operands])]
      · rfl
    · obtain ⟨_, h⟩ := Op.exists_of_isPhi hphi
      obtain ⟨_, h'⟩ := Op.exists_of_isPhi hphi'
      rw [h, h']
  have hpointer (i : InstId) (hi : i ∈ f.body b) {p : Operand} (hp : (g.op i).pointer? = some p) :
      (f.op i).pointer? = some p := by
    rcases hop i hi with heq | ⟨-, hphi⟩
    · rwa [← heq]
    · obtain ⟨_, h⟩ := Op.exists_of_isPhi hphi
      rw [h] at hp
      cases hp
  constructor
  case scalar =>
    intro i hi
    rw [hbody] at hi
    rw [hty i hi]
    refine ⟨(he.scalar i hi).1, fun v hv => ?_⟩
    rw [htyOf i hi v hv]
    exact (he.scalar i hi).2 v (hops i hi v hv)
  case wide =>
    rw [hbody]
    intro i hi
    rw [hty i hi]
    exact he.wide i hi
  case stored =>
    rw [hbody]
    intro i hi
    rw [haccess i hi]
    exact he.stored i hi
  case alike =>
    rw [hbody]
    intro i hi j hj p q t u hp hq
    rw [haccess i hi, haccess j hj, hplace i hi p (mem_operands_of_pointer? hp),
      hplace j hj q (mem_operands_of_pointer? hq)]
    exact he.alike i hi j hj p q t u (hpointer i hi hp) (hpointer j hj hq)

theorem DataTyped.extends (h : f.DataTyped tt args) (ht : tt.Extends tt')
    (hlt : ∀ t ∈ f.tys, t < tt.size) : f.DataTyped tt' args := by
  obtain ⟨_, hparams, hconsts, _⟩ := forall_mem_tys.mp hlt
  refine ⟨fun x hx => ?_, ?_⟩
  · rw [Datum.OfType, ht.shape_eq_of_lt (hconsts x hx)]
    exact h.literals x hx
  · have hargs := (List.forall₂_and_left _ _).mpr
      ⟨fun q hq => hparams q (Array.mem_toList_iff.mp hq), h.args⟩
    refine hargs.imp fun q d hq => ?_
    rw [Datum.OfType, ht.shape_eq_of_lt hq.1]
    exact hq.2

end Func

namespace Vectorize

variable {tt tt' : TypeTable} {f g : Func} {b : BlockId} {i : InstId} {args : List Datum}
  {k l : NaturalLoop} {p : VectorPlan} {config : VectorConfig}

theorem SameCode.elementwise (h : SameCode f g k) {known : Operand → Prop} (hk : f.Closed known)
    (hw : k.Within known f) (hb : b ∈ k.blocks) (he : f.Elementwise tt b) : g.Elementwise tt b := by
  have hop (i : InstId) (hi : i ∈ f.body b) : g.op i = f.op i := h.op_eq b hb i hi
  refine he.congr (h.body_eq b hb) (fun i hi => .inl (hop i hi))
    (fun i hi v hv => hop i hi ▸ hv) (fun i hi => ?_) (fun i hi v hv => ?_) fun i hi v hv => ?_
  · exact (lt_of_operandTy (h.operandTy_eq _ _ (operandTy_inst (hk.lt (hw b hb i hi).1)))).2
  · exact h.tyOf_eq hk ((hw b hb i hi).2 v (hop i hi ▸ hv))
  · exact h.place_eq hk ((hw b hb i hi).2 v (hop i hi ▸ hv))

/-- The literal of a constant is of its type. -/
def LiteralTyped (tt : TypeTable) (x : Constant) : Prop := x.literal.raw.OfType tt x.ty

/-- What holds between two rounds of a function, and of the same function without some blocks that are
never reached. -/
structure Between (D : List BlockId) (base : Func) (e : BlockId) (tt : TypeTable)
    (args : List Datum) (f g : Func) : Prop extends Tidied D (LiteralTyped tt) f g where
  rooted : Rooted base e (fun _ => False) f
  entry_out : e ∉ D
  vectorizable : g.Vectorizable tt
  /-- The loops that are left to vectorize. -/
  elementwise : ∀ k ∈ innermostLoops (ofFunc g), Unmarked g k → ∀ b ∈ k.blocks, g.Elementwise tt b
  args : g.ArgsTyped tt args

namespace Between

variable {D : List BlockId} {base : Func} {e : BlockId}
  (h : Between D base e tt args f g)

include h

theorem pruned : Pruned D base e f g :=
  ⟨h.toWithout, h.rooted, h.entry_out, h.vectorizable.sound.wellFormed.framed⟩

theorem data : g.DataTyped tt args := ⟨h.constants, h.args⟩

theorem mono (ht : tt.Extends tt') : Between D base e tt' args f g where
  toWithout := h.toWithout
  listedOnce := h.listedOnce
  uncalled := h.uncalled
  constants := (h.data.extends ht h.vectorizable.sound.tys_lt).literals
  rooted := h.rooted
  entry_out := h.entry_out
  vectorizable := h.vectorizable.extends ht
  elementwise k hk hmark b hb := (h.elementwise k hk hmark b hb).extends ht
    (h.vectorizable.sound.typesKnown (CountedLoop.live_of_mem (isLoop_of_innermost hk) hb))
  args := (h.data.extends ht h.vectorizable.sound.tys_lt).args

variable (hl : l ∈ innermostLoops (ofFunc f))
  (hplan : plan config f (ofFunc f) (.ofGraph (ofFunc f)) l tt = (.ok p, tt'))

include hl hplan

theorem round (hpos : 0 < config.width) (hlt : config.width < 2 ^ 32) :
    ∃ n T, Round tt' config args l p n T g (apply config g p) := by
  have hg := h.pruned.mem_innermostLoops hl
  have hplan := h.pruned.plan_eq_of_plan hl hplan h.vectorizable.sound
  have hs := h.vectorizable.sound
  obtain ⟨hext, hplanned, hlow⟩ := planned_of_plan hs (isLoop_of_innermost hg) hplan
  obtain ⟨T, hacc, hdec⟩ := decided_of_plan hs.wellFormed h.listedOnce hs.usesListed hg hplan
  have h' := h.mono hext
  obtain ⟨n, hstop, hstep, hprep, hsplicing⟩ := splicing_apply h'.vectorizable hplanned hlow
  have hel := h'.elementwise l hg hplanned.unmarked
  refine ⟨n, T, h'.vectorizable.sound, hplanned, h'.vectorizable.guarded, ?_, hprep, hsplicing, hstop,
    hstep, ?_, hpos, hlt⟩
  · exact ⟨hacc, hdec, h'.vectorizable.sound.wellTyped, hel _ hplanned.isLoop.header_mem,
      hel _ hplanned.counted.bodyEntry_mem, h'.data⟩
  · have hknown := hs.wellFormed.closed_present hs.usesListed
    have hw := hs.within_present hplanned.isLoop
    rw [(Untouched.refl g.Present g l).vectorEnd_eq hknown hplanned.isLoop hw hplanned.counted
      (fun v hv => hs.tys_lt _ hv.1.tyOf_mem) (.refl tt) hext]
    exact vectorEnd_of_plan hplan

end Between

/-- The loops that are left after a round were left before, and have their code. -/
theorem Round.unmarked_cases {n : VectorLoop} {T : LaneShapes} (r : Round tt config args l p n T f g)
    (hl : l ∈ innermostLoops (ofFunc f)) (hk : k ∈ innermostLoops (ofFunc g)) (hmark : Unmarked g k) :
    k ∈ innermostLoops (ofFunc f) ∧ Unmarked f k ∧ SameCode f g k := by
  have hs := r.splicing.toSplicing
  have hi := r.prepares.inserts
  have hf := r.wellFormed.framed
  have hgraph : ofFunc (ended config f p) = ofFunc f := hi.ofFunc_eq hf
  have hinner : Innermost (ofFunc (ended config f p)) l := hgraph ▸ innermost_of_mem hl
  have hold := (hs.marked_cases hinner hk).resolve_left fun hcase => by
    cases hmark.symm.trans hcase.2
  have hbeside : Beside l k p n (ended config f p) g :=
    ⟨hs, hinner, innermost_of_mem hold.1, hold.2.2⟩
  have hkf : k ∈ innermostLoops (ofFunc f) := hgraph ▸ hold.1
  refine ⟨hkf, ?_, SameCode.trans ?_ hbeside.sameCode⟩
  · rw [Unmarked, ← hi.vectorized_eq]
    exact Bool.eq_false_iff.mpr fun hb => Bool.eq_false_iff.mp hmark (hs.still_marked _ hb)
  · exact (untouched_of_inserts hi hf (r.wellFormed.closed_present r.sound.usesListed)
      (isLoop_of_innermost hkf) fun hb => hbeside.ne_preheader hb rfl).toSameCode

namespace Between

variable {D : List BlockId} {base : Func} {e : BlockId}
  (h : Between D base e tt args f g) (hl : l ∈ innermostLoops (ofFunc f))
  (hplan : plan config f (ofFunc f) (.ofGraph (ofFunc f)) l tt = (.ok p, tt'))

include h hl hplan

theorem tidied_round : Tidied D (LiteralTyped tt') (apply config f p) (apply config g p) := by
  have hg := h.pruned.mem_innermostLoops hl
  have hplan' := h.pruned.plan_eq_of_plan hl hplan h.vectorizable.sound
  have hs := h.vectorizable.sound
  obtain ⟨hext, hp, hlow⟩ := planned_of_plan hs (isLoop_of_innermost hg) hplan'
  have h' := h.mono hext
  have htight := h.pruned.tight hl hplan
  obtain ⟨hph, -⟩ := hp.edge_preheader
  have hlive {b : BlockId} (hb : b ∈ l.blocks) : b ∈ g.layout :=
    CountedLoop.live_of_mem hp.isLoop hb
  have hblocks : ∀ b ∈ p.loop.header :: p.loop.latch :: p.loop.body, b ∈ l.blocks := by
    intro b hb
    rcases List.mem_cons.mp hb with rfl | hb
    · exact hp.counted.header_eq ▸ hp.isLoop.header_mem
    rcases List.mem_cons.mp hb with rfl | hb
    · exact CountedLoop.latch_mem hp.isLoop hp.counted
    · rw [hp.counted.body_eq] at hb
      exact (List.mem_filter.mp hb).1
  refine tidied_apply h'.toTidied config ?_ hph ?_ (fun v => ?_) (fun x hx => ?_) fun b hb => ?_
  · obtain ⟨t, ht⟩ := hs.wellFormed.ends _ hph
    exact h.blocks_eq ▸ lt_blocks_size (mem_body_of_terminator ht).1
  · exact (h.mem_layout.mp (hlive (hblocks _ List.mem_cons_self))).2
  · obtain ⟨s, hs, hint⟩ := (hp.operandTy_eq h'.vectorizable.sound).1.shape_eq
    rw [LiteralTyped, Datum.OfType, hs]
    exact hint
  · have hx : x.1 ∈ f.body p.loop.bodyEntry := by
      refine List.mem_of_mem_dropLast ?_
      rw [← h.body_eq, ← hlow.map_fst]
      exact List.mem_map_of_mem hx
    obtain ⟨hphi, hcall, -⟩ := htight.plain _ hx
    exact ⟨h.body_lt _ (h.mem_layout.mp (hlive hp.counted.bodyEntry_mem)).1 _ hx, hphi, hcall⟩
  · exact (h.mem_layout.mp (hlive (hblocks b hb))).2

/-- Vectorizing a loop as planned. -/
theorem apply (hpos : 0 < config.width) (hlt : config.width < 2 ^ 32) :
    Between D base e tt' args (apply config f p) (apply config g p) := by
  obtain ⟨n, T, r⟩ := h.round hl hplan hpos hlt
  have hg := h.pruned.mem_innermostLoops hl
  have hplan' := h.pruned.plan_eq_of_plan hl hplan h.vectorizable.sound
  have htight := h.pruned.tight hl hplan
  have h' := h.mono (planned_of_plan h.vectorizable.sound (isLoop_of_innermost hg) hplan').1
  have hparams : (Vectorize.apply config g p).params = g.params :=
    r.splicing.params_eq.trans r.prepares.inserts.params_eq
  constructor
  case toTidied => exact h.tidied_round hl hplan
  case rooted =>
    exact (keepsRoot_apply config htight.isLoop htight.counted).rooted _ _ h.rooted
  case entry_out => exact h.entry_out
  case vectorizable => exact h.vectorizable.apply (isLoop_of_innermost hg) hplan'
  case elementwise =>
    intro k hk hmark b hb
    obtain ⟨hkg, hmark', hsame⟩ := r.unmarked_cases hg hk hmark
    exact hsame.elementwise (r.wellFormed.closed_present r.sound.usesListed)
      (r.sound.within_present (isLoop_of_innermost hkg)) hb (h'.elementwise k hkg hmark' b hb)
  case args =>
    unfold ArgsTyped
    rw [hparams]
    exact h'.args

end Between

/-! ## Runs -/

/-- What a function and the part of it that is reached have in common at first. -/
theorem between_reached {f : Func} (hs : f.Sound tt) (honce : f.ListedOnce) (hcall : f.CallFree)
    {e : BlockId} (he : f.entry? = some e) (hew : ∀ b ∈ f.layout, f.Elementwise tt b)
    (hd : f.DataTyped tt args) : Between f.unreached f e tt args f f.reached := by
  have hw := hs.wellFormed.without_reached
  have hs' := hs.reached he
  have hlive (b : BlockId) (hb : b ∈ f.reached.layout) : b ∈ f.layout := (hw.mem_layout.mp hb).1
  have hpruned : Pruned f.unreached f e f f.reached :=
    { toWithout := hw, rooted := hs.wellFormed.rooted he, entry_out := not_mem_unreached he,
      framed := hs.wellFormed.framed_reached he }
  have helem (b : BlockId) (hb : b ∈ f.reached.layout) : f.reached.Elementwise tt b := by
    have hclosed := hs'.wellFormed.closed_present hs'.usesListed
    refine (hew b (hlive b hb)).congr (hw.body_eq b) (fun i _ => hw.alike i)
      (fun i hi v hv => hw.mem_operands hb (hw.body_eq b ▸ hi) hv) (fun i _ => hw.ty_eq i)
      (fun i _ v _ => hw.tyOf_eq v) fun i hi v hv => (hpruned.grown.place_eq hclosed ?_).symm
    exact hs'.wellFormed.present_operand hs'.usesListed hb (hw.body_eq b ▸ hi) hv
  have hblock {l : NaturalLoop} (hl : IsLoop (ofFunc f.reached) l) {b : BlockId} (hb : b ∈ l.blocks) :
      b ∈ f.reached.layout := blocks_ofFunc f.reached ▸ (hl.reachable_mem hb).live
  constructor
  case toTidied =>
    refine ⟨hw, fun b hb => hw.body_eq b ▸ honce b (hlive b hb), fun b hb i hi => ?_, ?_⟩
    · rw [(hw.alike i).isCall_eq]
      exact Op.isCall_eq_false.mpr (hcall b (hlive b hb) i (hw.body_eq b ▸ hi))
    · exact hw.constants_eq ▸ hd.literals
  case rooted => exact hpruned.rooted
  case entry_out => exact hpruned.entry_out
  case vectorizable =>
    refine ⟨hs', fun l hl _ b hb _ => (helem b (hblock hl hb)).scalar, ?_⟩
    exact singleEntry_of_reachable fun b hb => hs.wellFormed.reachable_of_mem_reached he hb
  case elementwise => exact fun k hk _ b hb => helem b (hblock (isLoop_of_innermost hk) hb)
  case args => exact hd.args

/-- Where the first function runs to its end, so does the second, with the same result and the same
regions. -/
def Answers (args : List Datum) (e : BlockId) (rs₀ : Array Region) (tt : TypeTable) (f : Func)
    (tt' : TypeTable) (g : Func) : Prop :=
  ∀ d rs k, Executes tt f args none e ⟨fun _ => none, rs₀⟩ d rs k →
    ∃ k', Executes tt' g args none e ⟨fun _ => none, rs₀⟩ d rs k'

theorem Answers.trans {e : BlockId} {rs₀ : Array Region} {tt'' : TypeTable} {f' g' : Func}
    (h : Answers args e rs₀ tt f tt' f') (h' : Answers args e rs₀ tt' f' tt'' g') :
    Answers args e rs₀ tt f tt'' g' := by
  intro d rs k hex
  obtain ⟨k', hex⟩ := h d rs k hex
  exact h' d rs k' hex

theorem answers_extends (hs : f.Sound tt) (hc : tt.Closed) (ht : tt.Extends tt') {e : BlockId}
    (he : f.entry? = some e) (rs₀ : Array Region) : Answers args e rs₀ tt f tt' f :=
  fun _ _ k hex => ⟨k, hex.extends ht hc hs.typesIn hs.wellFormed.successor_live (List.mem_of_head? he)⟩

namespace Between

variable {D : List BlockId} {base : Func} {e : BlockId} {rs₀ : Array Region}

theorem entry?_eq (h : Between D base e tt args f g) : g.entry? = some e :=
  h.pruned.entry?_eq.trans h.rooted.entry_eq

theorem separate (h : Between D base e tt args f g) {nb : Nat} (hsep : Separate base args nb) :
    Separate g args nb := by
  have hparams : g.params = base.params := h.params_eq.trans h.rooted.interface.params_eq
  exact ⟨hsep.region_lt, hparams ▸ hsep.region_ne⟩

theorem answers_apply (h : Between D base e tt args f g) (hl : l ∈ innermostLoops (ofFunc f))
    (hplan : plan config f (ofFunc f) (.ofGraph (ofFunc f)) l tt = (.ok p, tt'))
    (hc : tt.Closed) (hsep : Separate base args rs₀.size)
    (hpos : 0 < config.width) (hlt : config.width < 2 ^ 32) :
    Answers args e rs₀ tt g tt' (Vectorize.apply config g p) := by
  obtain ⟨n, T, r⟩ := h.round hl hplan hpos hlt
  have hgrows := grows_plan config f (ofFunc f) (.ofGraph (ofFunc f)) l tt
  rw [hplan] at hgrows
  refine (answers_extends h.vectorizable.sound hc hgrows.ext h.entry?_eq rs₀).trans ?_
  exact fun d rs k hex => r.executes (h.separate hsep) h.entry?_eq rfl hex

/-- The pass keeps the runs. -/
theorem sweep (hpos : 0 < config.width) (hlt : config.width < 2 ^ 32)
    (hsep : Separate base args rs₀.size) : ∀ (fuel : Nat) (rejected : List BlockId) {tt : TypeTable}
    {f g : Func}, Between D base e tt args f g → tt.Closed →
    ∃ g', Between D base e (Vectorize.sweep config fuel rejected tt f).types args
        (Vectorize.sweep config fuel rejected tt f).func g' ∧
      Answers args e rs₀ tt g (Vectorize.sweep config fuel rejected tt f).types g'
  | 0, _, _, _, g, h, _ => ⟨g, h, fun _ _ k hex => ⟨k, hex⟩⟩
  | fuel + 1, rejected, tt, f, g, h, hc => by
    obtain ⟨hext, hplan⟩ := firstPlan_spec config f (ofFunc f) (.ofGraph (ofFunc f))
      (innermostLoops (ofFunc f)) rejected tt
    rw [sweep_succ]
    generalize firstPlan config f (ofFunc f) (.ofGraph (ofFunc f)) (innermostLoops (ofFunc f))
      rejected tt = x at hext hplan ⊢
    obtain ⟨found, rejected', tt', log⟩ := x
    cases found with
    | none =>
      exact ⟨g, h.mono hext.ext, answers_extends h.vectorizable.sound hc hext.ext h.entry?_eq rs₀⟩
    | some p =>
      obtain ⟨l, hl, tt₁, hext₁, hp⟩ := hplan p rfl
      have h₁ := h.mono hext₁.ext
      obtain ⟨g', hbetween, hanswers⟩ := sweep hpos hlt hsep fuel (p.loop.header :: rejected')
        (h₁.apply hl hp hpos hlt) (hext.closed hc)
      refine ⟨g', hbetween, ?_⟩
      refine (answers_extends h.vectorizable.sound hc hext₁.ext h.entry?_eq rs₀).trans ?_
      exact (h₁.answers_apply hl hp (hext₁.closed hc) hsep hpos hlt).trans hanswers

end Between

end Vectorize

end LoopNest
