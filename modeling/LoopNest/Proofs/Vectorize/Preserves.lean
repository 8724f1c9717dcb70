import LoopNest.Pass.Pipeline
import LoopNest.Proofs.Vectorize.Ended
import LoopNest.Proofs.Vectorize.Rounds

/-!
# Vectorization preserves results

The rounds of the pass are followed in the part of the function that is reached
(`Between.sweep`).  That part runs like the function itself, before the pass and after it, so a run
that succeeds does so after the pass, with the same result and the same regions (`run_vectorize`).

The verifier accepts blocks that list an instruction twice.  If that is the terminator of the
preheader, the pass puts code behind its first listing, where it is never executed
(`run_vectorize_fillTo_twice`).
-/

namespace LoopNest

open Func FlowGraph

namespace Vectorize

variable {D : List BlockId} {base f g : Func} {e : BlockId} {tt tt' : TypeTable} {args : List Datum}
  {config : VectorConfig} {l : NaturalLoop}

/-! ## No decision gets stuck -/

namespace Between

variable (h : Between D base e tt args f g)
include h

/-- What a loop uses is grounded, since it is in the part that stays. -/
theorem anchored (hl : l ∈ innermostLoops (ofFunc f)) : f.Anchored l := by
  have hs := h.vectorizable.sound
  have hf := hs.wellFormed
  have hloop := isLoop_of_innermost hl
  have hclosed := hf.closed_present hs.usesListed
  have hlive : ∀ b ∈ l.blocks, b ∈ g.layout := fun b hb => h.pruned.live_of_mem hl hb
  have reached : ∀ b, (ofFunc f).Reachable b → (ofFunc g).Reachable b := fun b hr =>
    h.pruned.trims.reachable_iff.mpr hr
  have hheader := hlive _ hloop.header_mem
  -- A phi of the header takes the same in the part that stays.
  have incoming : ∀ i ∈ f.phis l.header, ∀ q, (ofFunc f).Reachable q → ∀ v,
      f.incoming? i q = some v → i ∈ g.phis l.header ∧ g.incoming? i q = some v := by
    intro i hi q hq v hv
    have hout := (h.mem_layout.mp (h.pruned.live_of_reachable hq)).2
    refine ⟨by rwa [h.phis_eq], ?_⟩
    rw [h.incoming?_eq hheader (mem_body_of_phis hi) hout]
    exact hv
  constructor
  · intro b hb i hi
    rw [← h.body_eq] at hi
    exact Nat.lt_of_lt_of_le (hf.inst_lt (hlive b hb) hi) h.pruned.grown.size_le
  · intro b hb i hi hphi v hv
    have hop := (h.alike i).eq_of_not_isPhi hphi
    rw [← h.body_eq] at hi
    rw [← hop] at hv hphi
    exact (hf.grounded_use hs.usesListed (reached b (hloop.reachable_mem hb)) hi hphi hv).grown
      h.pruned.grown hclosed (hf.present_operand hs.usesListed (hlive b hb) hi hv)
  · intro i hi q hpre v hv
    have honly := CountedLoop.mem_preheader_iff hpre
    have hdom := CountedLoop.only_dominates h.pruned.entry_predecessors hloop ((honly q).mpr rfl).1
      fun a ha hout => (honly a).mp ⟨ha, hout⟩
    obtain ⟨hi', hv'⟩ := incoming i hi q (hdom.reachable hloop.reachable) v hv
    exact h.pruned.grown.toKeepsTypes.exists_of
      (hf.present_incoming hs.usesListed hheader hi' hv').1
  · intro i hi q hq v hv
    have hr := hloop.reachable_mem (hloop.latch_mem hq)
    obtain ⟨hi', hv'⟩ := incoming i hi q hr v hv
    exact (hf.grounded_incoming hs.usesListed hheader hi' (reached q hr) hv').grown h.pruned.grown
      hclosed (hf.present_incoming hs.usesListed hheader hi' hv')

theorem planStuck_eq_false (hl : l ∈ innermostLoops (ofFunc f)) (tt₁ : TypeTable) :
    planStuck config f (ofFunc f) (.ofGraph (ofFunc f)) l tt₁ = false :=
  planStuck_eq_false_of_anchored (h.anchored hl) (isLoop_of_innermost hl) config tt₁

omit h in
theorem sweepStuck_eq_false (hpos : 0 < config.width) (hlt : config.width < 2 ^ 32) :
    ∀ (fuel : Nat) (rejected : List BlockId) {tt : TypeTable} {f g : Func},
    Between D base e tt args f g → sweepStuck config fuel rejected tt f = false
  | 0, _, _, _, _, _ => rfl
  | fuel + 1, rejected, tt, f, g, h => by
    obtain ⟨-, hplan⟩ := firstPlan_spec config f (ofFunc f) (.ofGraph (ofFunc f))
      (innermostLoops (ofFunc f)) rejected tt
    rw [sweepStuck_succ, firstStuck_eq_false _ _ _ fun l hl tt₁ => h.planStuck_eq_false hl tt₁,
      Bool.false_or]
    generalize firstPlan config f (ofFunc f) (.ofGraph (ofFunc f)) (innermostLoops (ofFunc f))
      rejected tt = x at hplan ⊢
    obtain ⟨found, rejected', tt', log⟩ := x
    cases found with
    | none => rfl
    | some p =>
      obtain ⟨l, hl, tt₁, hext, hp⟩ := hplan p rfl
      exact sweepStuck_eq_false hpos hlt fuel _ ((h.mono hext.ext).apply hl hp hpos hlt)

/-! ## Runs -/

/-- The blocks that stay are in order, in the function itself too. -/
theorem orderly : f.Orderly (· ∈ g.layout) := by
  have hf := h.vectorizable.sound.wellFormed
  constructor
  case entry_used =>
    intro e' he
    exact List.mem_of_head? (h.pruned.entry?_eq.trans he)
  case inst_lt => exact fun b hb i hi => h.body_lt b (h.mem_layout.mp hb).1 i hi
  case no_call =>
    intro b hb i hi
    rw [← Op.isCall_eq_false, ← (h.alike i).isCall_eq]
    exact h.uncalled b hb i (h.body_eq b ▸ hi)
  case ends =>
    intro b hb
    rw [← h.terminator?_eq]
    exact hf.ends b hb
  case terminator_eq =>
    intro b hb i hi ht
    rw [← h.terminator?_eq]
    exact hf.terminator_eq b hb i (h.body_eq b ▸ hi) ((h.alike i).isTerminator_eq.trans ht)
  case successor_used =>
    intro b hb c hc
    exact hf.successor_live b hb c (h.successors_eq b ▸ hc)

theorem executes_iff {d : Datum} {rs₀ rs : Array Region} {n : Nat} :
    Executes tt g args none e ⟨fun _ => none, rs₀⟩ d rs n ↔
      Executes tt f args none e ⟨fun _ => none, rs₀⟩ d rs n :=
  h.toWithout.executes_iff h.vectorizable.sound.wellFormed.framed
    (List.mem_of_head? h.entry?_eq) fun _ h => by cases h

end Between

/-- A run that succeeds has a counterpart after the pass. -/
theorem answers_vectorize (config : VectorConfig) (h : Between D base e tt args f g) (hc : tt.Closed)
    {rs₀ : Array Region} (hsep : Separate base args rs₀.size) (hlt : config.width < 2 ^ 32) :
    f.vectorizeStuck config tt = false ∧
    ∃ g', Between D base e (f.vectorize config tt).types args (f.vectorize config tt).func g' ∧
      Answers args e rs₀ tt f (f.vectorize config tt).types (f.vectorize config tt).func := by
  unfold Func.vectorizeStuck Func.vectorize
  by_cases hwidth : config.width < 2
  · rw [if_pos hwidth, if_pos hwidth]
    exact ⟨rfl, g, h, fun _ _ k hex => ⟨k, hex⟩⟩
  · rw [if_neg hwidth, if_neg hwidth]
    have hpos : 0 < config.width := by omega
    refine ⟨Between.sweepStuck_eq_false hpos hlt _ _ h, ?_⟩
    obtain ⟨g', h', hanswers⟩ := Between.sweep hpos hlt hsep (f.blocks.size + 1) [] h hc
    refine ⟨g', h', fun d rs k hex => ?_⟩
    obtain ⟨k', hex'⟩ := hanswers d rs k (h.executes_iff.mpr hex)
    exact ⟨k', h'.executes_iff.mp hex'⟩

/-- The program after the pass. -/
def vectorized (config : VectorConfig) (P : Program) (id : FuncId) (f : Func) : Program :=
  { P with types := (f.vectorize config P.types).types }.setFunc id (f.vectorize config P.types).func

theorem run_of_func? (config : VectorConfig) {P : Program} {id : FuncId} (hf : P.func? id = some f)
    (hd : f.isDeclaration = false) (hstuck : f.vectorizeStuck config P.types = false) :
    (Pass.vectorize config).run P id = ⟨.ok (f.vectorize config P.types).changed,
        vectorized config P id f, (f.vectorize config P.types).log⟩ ∧
      (vectorized config P id f).func? id = some (f.vectorize config P.types).func := by
  have hlt : id < P.funcs.size := (Array.getElem?_eq_some_iff.mp hf).1
  refine ⟨?_, by simp [vectorized, Program.setFunc, Program.func?, hlt]⟩
  simp only [Pass.run, Pass.stuckOn, hf, hd, hstuck, Bool.false_eq_true, if_false]
  rfl

/-- Vectorization preserves results.  The function is accepted by the verifier, lists no instruction
twice, and what it uses stands in the block that it records.  It makes no calls, and its blocks
work on single elements.  Where it succeeds on data of its types, with pointers to existing regions
and different regions for different `noalias` parameters, the pass does not get stuck, and the
function that it leaves succeeds too, with the same result and the same regions. -/
theorem run_vectorize (config : VectorConfig) {P : Program} {id : FuncId} {m m₁ : Memory}
    {limit n₁ : Nat} {d : Datum} (hf : P.func? id = some f) (hv : f.verify P.types = .ok ())
    (honce : f.ListedOnce) (huses : f.UsesListed) (htys : ∀ t ∈ f.tys, t < P.types.size)
    (hc : P.types.Closed) (hcall : f.CallFree) (hew : ∀ b ∈ f.layout, f.Elementwise P.types b)
    (hlit : f.LiteralsTyped P.types) (hargs : f.ArgsTyped P.types args)
    (hsep : Separate f args m.regions.size) (hwidth : config.width < 2 ^ 32)
    (hrun : P.run f args m limit = ⟨.ok d, m₁, n₁⟩) :
    (Pass.vectorize config).isStuck P id = false ∧
    ∃ changed q log g n₂, (Pass.vectorize config).run P id = ⟨.ok changed, q, log⟩ ∧
      q.func? id = some g ∧ ∀ limit', n₂ ≤ limit' →
        ∃ m₂, q.run g args m limit' = ⟨.ok d, m₂, n₂⟩ ∧ m₂.regions = m₁.regions := by
  have hs := Func.sound_of_verify hv huses htys
  obtain ⟨e, he, hlen, -, hex⟩ :=
    (Program.run_ok_iff (hs.wellFormed.orderly hcall)).mp ⟨m₁, hrun, rfl⟩
  have hd := Func.isDeclaration_of_live (List.mem_of_head? he)
  obtain ⟨hstuck, g', h', hanswers⟩ := answers_vectorize config
    (between_reached hs honce hcall he hew ⟨hlit, hargs⟩) hc hsep hwidth
  refine ⟨by simp [Pass.isStuck, Pass.stuckOn, hf, hstuck], ?_⟩
  obtain ⟨n₂, hex'⟩ := hanswers d m₁.regions n₁ hex
  obtain ⟨hpass, hg⟩ := run_of_func? config hf hd hstuck
  refine ⟨_, _, _, _, n₂, hpass, hg, fun limit' hle => (Program.run_ok_iff h'.orderly).mpr ?_⟩
  exact ⟨e, h'.rooted.entry_eq,
    (congrArg Array.size h'.rooted.interface.params_eq).trans hlen, hle, hex'⟩

/-- Stores 1 to the first `n` elements, with given instructions in the entry. -/
def fillTo (entry : List InstId) : Func where
  name := "fill"
  params := #[⟨"x", 4, true⟩, ⟨"n", 2, false⟩]
  ret := 0
  blocks := #[⟨"entry", entry, false⟩, ⟨"header", [1, 2, 3], false⟩, ⟨"body", [4, 5, 6], false⟩,
    ⟨"latch", [7, 8], false⟩, ⟨"exit", [9], false⟩]
  insts := #[⟨.br 1, 0, none, some 0⟩, ⟨.phi [(.const 0, 0), (.inst 7, 3)], 2, none, some 1⟩,
    ⟨.icmp .ult (.inst 1) (.param 1), 1, none, some 1⟩, ⟨.condBr (.inst 2) 2 4, 0, none, some 1⟩,
    ⟨.gep (.param 0) (.inst 1), 4, none, some 2⟩, ⟨.store (.const 2) (.inst 4), 0, none, some 2⟩,
    ⟨.br 3, 0, none, some 2⟩, ⟨.binary .add (.inst 1) (.const 1), 2, none, some 3⟩,
    ⟨.br 1, 0, none, some 3⟩, ⟨.ret none, 0, none, some 4⟩]
  constants := #[⟨2, .int 0⟩, ⟨2, .int 1⟩, ⟨3, .f32 ⟨1065353216⟩⟩]
  layout := [0, 1, 2, 3, 4]

/-- The program of `fillTo`. -/
abbrev fillProgram (entry : List InstId) : Program := ⟨fillTypes, #[fillTo entry]⟩

/-- A region of six elements, each with the given bytes. -/
def sixElements (bytes : List UInt8) : Memory :=
  ⟨#[((List.replicate 6 bytes).flatten).toArray], 0, 0⟩

theorem separate_fillTo (entry : List InstId) (n : Int64) :
    Separate (fillTo entry) [.ptr ⟨0, 0⟩, .int n] 1 := by
  refine ⟨fun k q hq => ?_, fun k l pk pl qk ql hkl _ _ _ _ hk hl => ?_⟩
  · rcases k with _ | _ | k <;> simp at hq
    subst hq
    decide
  · rcases k with _ | _ | k <;> simp at hk
    rcases l with _ | _ | l <;> simp at hl
    exact absurd rfl hkl

/-- Six elements are filled by one vector and two turns of the old loop. -/
theorem run_vectorize_fillTo :
    ((fillTo [0]).verify fillTypes = .ok () ∧ (fillTo [0]).ListedOnce ∧
      ∀ b ∈ (fillTo [0]).layout, (fillTo [0]).Elementwise fillTypes b) ∧
    (fillProgram [0]).run (fillTo [0]) [.ptr ⟨0, 0⟩, .int 6] (sixElements [0, 0, 0, 0]) 60 =
      ⟨.ok .void, ⟨(sixElements [0, 0, 128, 63]).regions, 0, 6⟩, 53⟩ ∧
    ((fillTo [0]).vectorize .standard fillTypes).changed = true ∧
    (Pass.vectorize .standard).isStuck (fillProgram [0]) 0 = false ∧
    ∃ changed q log g n, (Pass.vectorize .standard).run (fillProgram [0]) 0 = ⟨.ok changed, q, log⟩ ∧
      q.func? 0 = some g ∧ ∀ limit, n ≤ limit → ∃ m,
        q.run g [.ptr ⟨0, 0⟩, .int 6] (sixElements [0, 0, 0, 0]) limit = ⟨.ok .void, m, n⟩ ∧
          m.regions = (sixElements [0, 0, 128, 63]).regions := by
  have hverify : (fillTo [0]).verify fillTypes = .ok () := by decide +kernel
  have hew : ∀ b ∈ (fillTo [0]).layout, (fillTo [0]).Elementwise fillTypes b := by decide +kernel
  have hrun : (fillProgram [0]).run (fillTo [0]) [.ptr ⟨0, 0⟩, .int 6] (sixElements [0, 0, 0, 0]) 60 =
      ⟨.ok .void, ⟨(sixElements [0, 0, 128, 63]).regions, 0, 6⟩, 53⟩ := by cbv
  have hargs : (fillTo [0]).ArgsTyped fillTypes [.ptr ⟨0, 0⟩, .int 6] :=
    .cons (by decide) (.cons (by decide) .nil)
  have hpass := run_vectorize .standard (m := sixElements [0, 0, 0, 0])
    (show (fillProgram [0]).func? 0 = some (fillTo [0]) from rfl) hverify (by decide) (by decide)
    (by decide) (by decide) (by decide) hew (by decide) hargs (separate_fillTo [0] 6) (by decide) hrun
  exact ⟨⟨hverify, by decide, hew⟩, hrun, by decide +kernel, hpass⟩

/-- The instruction without a value that a run failed at. -/
def undefined? : Except Fault Datum → Option InstId
  | .error (.malformed (.undefinedValue i)) => some i
  | _ => none

theorem eq_of_undefined? {r : Except Fault Datum} {i : InstId} (h : undefined? r = some i) :
    r = .error (.malformed (.undefinedValue i)) := by
  unfold undefined? at h
  split at h
  · rw [Option.some.inj h]
  · cases h

/-- If the terminator of the entry is listed twice, the run leaves the entry before the end of the
vector loop is computed. -/
theorem run_vectorize_fillTo_twice :
    ((fillTo [0, 0]).verify fillTypes = .ok () ∧ (fillTo [0, 0]).UsesListed ∧
      (fillTo [0, 0]).CallFree ∧ (fillTo [0, 0]).LiteralsTyped fillTypes ∧
      ∀ b ∈ (fillTo [0, 0]).layout, (fillTo [0, 0]).Elementwise fillTypes b) ∧
    (fillTo [0, 0]).ArgsTyped fillTypes [.ptr ⟨0, 0⟩, .int 6] ∧
    Separate (fillTo [0, 0]) [.ptr ⟨0, 0⟩, .int 6] 1 ∧
    (fillProgram [0, 0]).run (fillTo [0, 0]) [.ptr ⟨0, 0⟩, .int 6] (sixElements [0, 0, 0, 0]) 60 =
      ⟨.ok .void, ⟨(sixElements [0, 0, 128, 63]).regions, 0, 6⟩, 53⟩ ∧
    ∃ q g, ((Pass.vectorize .standard).run (fillProgram [0, 0]) 0).program = q ∧
      q.func? 0 = some g ∧
      (q.run g [.ptr ⟨0, 0⟩, .int 6] (sixElements [0, 0, 0, 0]) 60).result =
        .error (.malformed (.undefinedValue 15)) := by
  refine ⟨⟨by decide +kernel, by decide, by decide, by decide, by decide +kernel⟩,
    .cons (by decide) (.cons (by decide) .nil), separate_fillTo [0, 0] 6, by cbv, ?_⟩
  obtain ⟨hpass, hg⟩ := run_of_func? .standard
    (show (fillProgram [0, 0]).func? 0 = some (fillTo [0, 0]) from rfl) rfl (by decide +kernel)
  refine ⟨vectorized .standard (fillProgram [0, 0]) 0 (fillTo [0, 0]),
    ((fillTo [0, 0]).vectorize .standard fillTypes).func, by rw [hpass], hg, ?_⟩
  exact eq_of_undefined? (by decide +kernel)

end Vectorize

end LoopNest
