import LoopNest.Proofs.Vectorize.Accepted
import LoopNest.Proofs.Vectorize.Swept

/-!
# Vectorized functions are accepted

The pass goes on from a function that it has changed itself.  `Func.Vectorizable` collects what
one round relies on, and a round keeps it (`Vectorizable.apply`), hence the whole pass does
(`Vectorizable.sweep`).  So the verifier accepts what comes out (`Func.verify_vectorize`).

Two of the conditions cannot be dropped.  A vector that is stored to a pointer to its lanes is taken
for a scalar and splatted (`verify_vectorize_fill_vector`), and a block that is never reached keeps
its branch into a loop that is erased (`verify_vectorize_fill_stray`).
-/

namespace LoopNest

open Func FlowGraph

variable {tt tt' : TypeTable} {config : VectorConfig} {f g : Func} {l : NaturalLoop}
  {p : VectorPlan}

/-- What the pass relies on. -/
structure Func.Vectorizable (tt : TypeTable) (f : Func) : Prop where
  sound : f.Sound tt
  guarded : f.Guarded tt
  singleEntry : f.SingleEntry

theorem Func.Sound.verify_eq_ok (h : f.Sound tt) : f.verify tt = .ok () := by
  cases hd : f.isDeclaration with
  | false => exact (Func.verify_eq_ok_iff hd).mpr ⟨h.wellFormed, h.wellTyped⟩
  | true => exact Func.verify_of_isDeclaration hd

theorem Func.sound_of_verify (hverify : f.verify tt = .ok ()) (huses : f.UsesListed)
    (htys : ∀ t ∈ f.tys, t < tt.size) : f.Sound tt := by
  cases hd : f.isDeclaration with
  | false => exact ⟨wellFormed_of_verify hd hverify, wellTyped_of_verify hd hverify, huses, htys⟩
  | true =>
    -- Nothing is live in a declaration.
    have hnil : f.layout = [] := List.isEmpty_iff.mp hd
    have hno : ∀ {b}, b ∉ f.layout := fun {b} hb => by
      rw [hnil] at hb
      exact absurd hb List.not_mem_nil
    refine ⟨?_, fun b hb => absurd hb hno, huses, htys⟩
    constructor
    case entry_predecessors => exact fun e he => absurd (List.mem_of_head? he) hno
    all_goals exact fun b hb => absurd hb hno

namespace Vectorize

/-- What comes from outside the old loop is computed before it. -/
theorem Planned.before_of_outside (hp : Planned tt f l p) (hf : f.WellFormed) {dom : DomTree}
    (hi : Inserts p.loop.preheader f g) {v : Operand}
    (hv : Outside ⟨f, dom, l, p.loop, config⟩ v) : Before g l p v := by
  rintro j rfl
  obtain ⟨d, hd, hout, hdom⟩ := hv.invariant
  have hlist := hv.listed j rfl d hd
  have hlive : d ∈ f.layout :=
    FlowGraph.blocks_ofFunc f ▸ (hdom.reachable hp.isLoop.reachable).live
  refine ⟨d, (hi.owner_eq (owner_lt hd)).trans hd, hi.layout_eq ▸ hlive, hout,
    hi.mem_body hf.framed hlive hlist, ?_⟩
  rw [hi.ofFunc_eq hf.framed]
  exact hdom.of_edge hp.edge_preheader.2 fun heq => hout (heq ▸ hp.isLoop.header_mem)

/-- The body of the old loop, when it is carried over. -/
theorem source_of_entered (hs : f.Sound tt) (hp : Planned tt f l p) (hguard : f.Guarded tt)
    {config : VectorConfig} {dom : DomTree} (hprep : Prepares tt p.loop.preheader f g)
    {k : VectorBlocks} {h h' : Func} (hent : Entered l p k g h) (hbelow : h.Below h') :
    Source tt ⟨f, dom, l, p.loop, config⟩ h' := by
  have hlive := CountedLoop.live_of_mem hp.isLoop hp.counted.bodyEntry_mem
  have hsucc : p.loop.bodyEntry ∈ f.successors l.header :=
    (CountedLoop.header_successors hp.counted).mpr (.inl rfl)
  refine ⟨hs, hp.isLoop, hp.counted.header_eq, hp.counted.bodyEntry_mem,
    (FlowGraph.edge_ofFunc f _ _).mpr ⟨hp.header_live, hlive, hsucc⟩, ?_,
    hprep.inserts.keepsTypes.trans (hent.keepsTypes.trans hbelow.keepsTypes), fun i hi => ?_⟩
  · exact hguard l hp.isLoop hp.unmarked _ hp.counted.bodyEntry_mem hsucc
  · have hlt := hs.wellFormed.inst_lt hlive hi
    have hlt' := Nat.lt_of_lt_of_le hlt hprep.inserts.size_le
    have hlt'' : i < h.insts.size := hent.size_eq ▸ hlt'
    refine ⟨Nat.lt_of_lt_of_le hlt'' hbelow.size_le, ?_⟩
    rw [hbelow.inst_eq i hlt'', hent.inst_eq i hlt', if_neg, op, hprep.inserts.inst_eq i hlt]
    exact (hprep.planned hs hp).terminator_ne hprep.sound.wellFormed.framed (hprep.live hlive)
      hp.counted.bodyEntry_mem (hprep.inserts.mem_body hs.wellFormed.framed hlive hi)

theorem splicing_apply (h : f.Vectorizable tt) (hp : Planned tt f l p) {dom : DomTree}
    (hlow : LowersAll tt ⟨f, dom, l, p.loop, config⟩ [(p.loop.iv, .index 1)]
      (f.body p.loop.bodyEntry).dropLast p.steps) :
    ∃ n, n.stop = (emitEnd f p (.ofNat config.width)).1 ∧ n.width = .ofNat config.width ∧
      Prepares tt p.loop.preheader f (emitEnd f p (.ofNat config.width)).2 ∧
      TypedSplicing tt ⟨f, dom, l, p.loop, config⟩ l p n (emitEnd f p (.ofNat config.width)).2
        (apply config f p) := by
  have hs := h.sound
  have hf := hs.wellFormed.framed
  obtain ⟨hprep, hstop⟩ := computes_emitEnd hs hp (Int64.ofNat config.width)
  obtain ⟨n, hn, hwidth, hspliced⟩ := spliced_apply hf hp.toShape config hprep.inserts
    (fits_of_lowersAll hf hp.toShape hlow)
  refine ⟨n, hn, hwidth, hprep, ?_⟩
  rw [← hn] at hstop
  generalize (emitEnd f p (Int64.ofNat config.width)).2 = g at hprep hstop hspliced
  have hs' := hprep.sound
  have hp' := hprep.planned hs hp
  have htys := tys_lt_of_lowersAll hf hp.toShape hlow hs.tys_lt hp.ivTy_eq hp.boolTy_eq hp.voidTy_eq
  obtain ⟨k, base, hent, hem⟩ := hspliced.emission
  have hbase : ∀ t ∈ base.tys, t < tt.size := fun t ht =>
    (hem.tys t ht).elim (hent.forall_mem_tys hs'.tys_lt t) (htys t)
  have hsrc : Source tt ⟨f, dom, l, p.loop, config⟩ base :=
    source_of_entered hs hp h.guarded hprep hent hem.below
  refine ⟨⟨hspliced, hs'.wellFormed.framed, hp'.toShape,
    hprep.singleEntry hs h.singleEntry⟩, hs', hp', hstop, ?_, ?_, ?_⟩
  · exact fun v hv => hp.before_of_outside hs.wellFormed hprep.inserts hv
  · exact fun pre i post hcode => emitted_of_emission hem hsrc hlow hbase hp.ivTy_eq hcode
  · exact fun t ht => (hspliced.made.tys t ht).elim (hs'.tys_lt t) (htys t)

end Vectorize

namespace Func

open Vectorize

theorem Vectorizable.extends (h : f.Vectorizable tt) (ht : tt.Extends tt') :
    f.Vectorizable tt' := by
  refine ⟨h.sound.extends ht, fun l hl hmark b hb hs i hi => ?_, h.singleEntry⟩
  have hlive := CountedLoop.live_of_mem hl hb
  have hlt := (forall_mem_tys.mp h.sound.tys_lt).2.2.2 i (h.sound.wellFormed.inst_lt hlive hi) |>.1
  obtain ⟨hty, hops⟩ := h.guarded l hl hmark b hb hs i hi
  refine ⟨(lanes_extends ht hlt).trans hty, fun v hv => ?_⟩
  obtain ⟨t, htv⟩ := operandTy_of_exists (h.sound.wellFormed.operand_exists b hlive i hi v hv)
  have := hops v hv
  rw [Typing.tyOf_of_operandTy htv] at this ⊢
  exact (lanes_extends ht (h.sound.tys_lt t (mem_tys_of_operandTy htv))).trans this

/-- Vectorizing a loop as planned. -/
theorem Vectorizable.apply (h : f.Vectorizable tt) (hl : IsLoop (ofFunc f) l)
    (hp : plan config f (ofFunc f) (.ofGraph (ofFunc f)) l tt = (.ok p, tt')) :
    (Vectorize.apply config f p).Vectorizable tt' := by
  obtain ⟨hext, hplanned, hlow⟩ := planned_of_plan h.sound hl hp
  have h' := h.extends hext
  obtain ⟨n, _, _, hprep, hs⟩ := splicing_apply h' hplanned hlow
  exact ⟨hs.sound_spliced, hs.guarded_spliced (hprep.guarded h'.sound h'.guarded),
    hs.singleEntry_spliced⟩

theorem Vectorizable.sweep (config : VectorConfig) : ∀ (fuel : Nat) (rejected : List BlockId)
    {tt : TypeTable} {f : Func}, f.Vectorizable tt →
    (Vectorize.sweep config fuel rejected tt f).func.Vectorizable
      (Vectorize.sweep config fuel rejected tt f).types
  | 0, _, _, _, h => h
  | fuel + 1, rejected, tt, f, h => by
    obtain ⟨hext, hplan⟩ := firstPlan_spec config f (ofFunc f) (.ofGraph (ofFunc f))
      (innermostLoops (ofFunc f)) rejected tt
    rw [sweep_succ]
    generalize firstPlan config f (ofFunc f) (.ofGraph (ofFunc f)) (innermostLoops (ofFunc f))
      rejected tt = x at hext hplan ⊢
    obtain ⟨found, rejected', tt', log⟩ := x
    cases found with
    | none => exact h.extends hext.ext
    | some p =>
      obtain ⟨l, hl, tt₁, hext₁, hp⟩ := hplan p rfl
      exact Vectorizable.sweep config fuel _ ((h.extends hext₁.ext).apply (isLoop_of_innermost hl) hp)

theorem Vectorizable.vectorize (h : f.Vectorizable tt) (config : VectorConfig) :
    (f.vectorize config tt).func.Vectorizable (f.vectorize config tt).types := by
  unfold Func.vectorize
  split
  · exact h
  · exact h.sweep config _ []

end Func

/-- The verifier accepts what becomes of a function that it accepts, if the used instructions are
listed and the types are in the table, no loop has vectors yet, and loops are entered at their
headers only. -/
theorem Func.verify_vectorize (hverify : f.verify tt = .ok ()) (huses : f.UsesListed)
    (htys : ∀ t ∈ f.tys, t < tt.size) (hguard : f.Guarded tt) (hsingle : f.SingleEntry) :
    (f.vectorize config tt).func.verify (f.vectorize config tt).types = .ok () := by
  unfold Func.vectorize
  split
  · exact hverify
  · have h : f.Vectorizable tt := ⟨sound_of_verify hverify huses htys, hguard, hsingle⟩
    exact (h.sweep config (f.blocks.size + 1) []).sound.verify_eq_ok

/-! ## Filling an array -/

namespace Vectorize

/-- The types of `fill`. -/
def fillTypes : TypeTable :=
  ⟨#[⟨none, .void⟩, ⟨none, .scalar .bool⟩, ⟨none, .scalar ⟨.sint, 8⟩⟩, ⟨none, .scalar ⟨.float, 4⟩⟩,
    ⟨none, .pointer 3⟩, ⟨none, .vector 2 ⟨.float, 4⟩⟩]⟩

/-- Stores an operand to some elements.  A block that is never reached may lead to the latch. -/
def fill (v : Operand) (count : Int64) (stray : Bool) : Func where
  name := "fill"
  params := #[⟨"x", 4, true⟩, ⟨"v", 5, false⟩]
  ret := 0
  blocks := #[⟨"entry", [0], false⟩, ⟨"header", [1, 2, 3], false⟩, ⟨"body", [4, 5, 6], false⟩,
    ⟨"latch", [7, 8], false⟩, ⟨"exit", [9], false⟩, ⟨"dead", [10], false⟩]
  insts := #[⟨.br 1, 0, none, some 0⟩, ⟨.phi [(.const 0, 0), (.inst 7, 3)], 2, none, some 1⟩,
    ⟨.icmp .ult (.inst 1) (.const 2), 1, none, some 1⟩, ⟨.condBr (.inst 2) 2 4, 0, none, some 1⟩,
    ⟨.gep (.param 0) (.inst 1), 4, none, some 2⟩, ⟨.store v (.inst 4), 0, none, some 2⟩,
    ⟨.br 3, 0, none, some 2⟩, ⟨.binary .add (.inst 1) (.const 1), 2, none, some 3⟩,
    ⟨.br 1, 0, none, some 3⟩, ⟨.ret none, 0, none, some 4⟩, ⟨.br 3, 0, none, some 5⟩]
  constants := #[⟨2, .int 0⟩, ⟨2, .int 1⟩, ⟨2, .int count⟩, ⟨3, .f32 ⟨1065353216⟩⟩]
  layout := if stray then [0, 1, 2, 3, 4, 5] else [0, 1, 2, 3, 4]

end Vectorize

open Vectorize

/-- Ten elements in vectors of four leave a rest. -/
theorem Func.verify_vectorize_fill :
    ((fill (.const 3) 10 false).verify fillTypes = .ok () ∧ (fill (.const 3) 10 false).UsesListed ∧
      (∀ t ∈ (fill (.const 3) 10 false).tys, t < fillTypes.size) ∧
      (fill (.const 3) 10 false).Guarded fillTypes ∧ (fill (.const 3) 10 false).SingleEntry) ∧
    ((fill (.const 3) 10 false).vectorize .standard fillTypes).changed = true ∧
    ((fill (.const 3) 10 false).vectorize .standard fillTypes).func.verify
      ((fill (.const 3) 10 false).vectorize .standard fillTypes).types = .ok () :=
  ⟨⟨by decide +kernel, by decide +kernel, by decide +kernel, by decide +kernel, by decide +kernel⟩,
    by decide +kernel, Func.verify_vectorize (by decide +kernel) (by decide +kernel)
      (by decide +kernel) (by decide +kernel) (by decide +kernel)⟩

/-- A vector is stored to a pointer to its lanes. -/
theorem Func.verify_vectorize_fill_vector :
    (fill (.param 1) 8 false).verify fillTypes = .ok () ∧
    ((fill (.param 1) 8 false).vectorize .standard fillTypes).func.verify
      ((fill (.param 1) 8 false).vectorize .standard fillTypes).types ≠ .ok () := by
  decide +kernel

/-- A block that is never reached leads into the loop. -/
theorem Func.verify_vectorize_fill_stray :
    (fill (.const 3) 8 true).verify fillTypes = .ok () ∧
    ((fill (.const 3) 8 true).vectorize .standard fillTypes).func.verify
      ((fill (.const 3) 8 true).vectorize .standard fillTypes).types ≠ .ok () := by
  decide +kernel

end LoopNest
