import LoopNest.Proofs.Builder.Laid
import LoopNest.Proofs.Graph.Forest

/-!
# The loops of a tree of calls

A function that is built from one entry block by a tree of calls of `Build.loop`, with any straight
code in between, has one loop for each call.  The loop around a loop is that of the call in whose
body the call was made, and each loop is recognized as the counted loop that the call has built, in
steps of one (`Build.Whole.loop_per_call`).

The forest is found from the flow graph, which `Laid` describes; the counted loop from the
instructions, which `LoopCall.Coded` lists.
-/

namespace LoopNest

open LoopCall FlowGraph LoopForest

/-- A list of blocks, each once, that holds one block is that block alone. -/
theorem eq_singleton_of_mem_iff {l : List BlockId} {x : BlockId} (hl : l.Nodup)
    (h : ∀ b, b ∈ l ↔ b = x) : l = [x] :=
  List.perm_singleton.mp ((List.perm_ext_iff_of_nodup hl (List.nodup_singleton x)).mpr fun b =>
    (h b).trans List.mem_singleton.symm)

/-- A value that can be used in a block: a parameter, a constant, or an instruction of a block that
dominates it. -/
def Func.ReadyAt (f : Func) (b : BlockId) : Operand → Prop
  | .inst i => ∃ d, f.owner i = some d ∧ (FlowGraph.ofFunc f).Dominates d b
  | _ => True

/-- The loops of a function are loops of its flow graph. -/
theorem isLoop_ofFunc {f : Func} {i : LoopId} (hi : i ∈ (LoopForest.ofFunc f).ids) :
    IsLoop (FlowGraph.ofFunc f) ((LoopForest.ofFunc f).loop i) :=
  isLoop_loop (coherent_ofFunc f) hi

namespace Laid

section

variable {f : Func} {calls : Calls} {there : Nat} (h : Laid f 0 calls there)
  (hlayout : f.layout = List.range (there + 1)) (hend : f.successors there = [])
  {c d : LoopCall} {i j : LoopId}
include h

/-- Calls are told apart by the blocks before them. -/
theorem eq_of_before (hc : c ∈ calls.all) (hd : d ∈ calls.all) (heq : c.before = d.before) :
    c = d := List.inj_on_of_nodup_map h.nodup hc hd heq

/-- One call is inside another one exactly when it begins in its loop. -/
theorem inside_iff_covers (hc : c ∈ calls.all) (hd : d ∈ calls.all) :
    c.Inside d ↔ d ≠ c ∧ d.Covers (c.before + 1) := by
  have hle := (h.frame c hc).1.le_last
  have hle' := (h.frame d hd).1.le_last
  constructor
  · rintro ⟨hlow, hhigh⟩
    refine ⟨?_, by omega, by omega⟩
    rintro rfl
    omega
  · rintro ⟨hne, hlow, hhigh⟩
    cases h.apart c hc d hd with
    | same h => exact absurd h.symm hne
    | inside h => exact h
    | around h =>
      obtain ⟨h₁, h₂⟩ := h
      omega
    | earlier h => omega
    | later h => omega

include hlayout hend

/-! ## The forest -/

/-- The call of a loop. -/
theorem exists_call (hi : i ∈ (LoopForest.ofFunc f).ids) :
    ∃ c ∈ calls.all, ((LoopForest.ofFunc f).loop i).header = (c.before + 1 : Nat) := by
  have hl := isLoop_ofFunc hi
  obtain ⟨p, hp⟩ := List.exists_mem_of_ne_nil _ hl.latches_ne
  obtain ⟨he, -, hd⟩ := (hl.mem_latches p).mp hp
  obtain ⟨c, hc, -, heq⟩ := h.backEdge hlayout hend he hd
  exact ⟨c, hc, heq⟩

/-- The loop of a call. -/
theorem exists_loop_of_call (hc : c ∈ calls.all) :
    ∃ i ∈ (LoopForest.ofFunc f).ids,
      ((LoopForest.ofFunc f).loop i).header = (c.before + 1 : Nat) := by
  obtain ⟨hframe, -, hlast⟩ := h.frame c hc
  have hle := hframe.le_last
  refine exists_loop (p := c.last) (coherent_ofFunc f)
    ((h.edge_header_iff hlayout hend hc).mpr (.inr rfl)) (h.reachable hlayout hend (by omega)) ?_
  exact h.header_dominates hlayout hend hc ⟨by omega, Nat.le_refl _⟩

/-- Loops are inside one another as their calls are. -/
theorem header_mem_iff (hi : i ∈ (LoopForest.ofFunc f).ids) (hj : j ∈ (LoopForest.ofFunc f).ids)
    (hc : c ∈ calls.all) (hd : d ∈ calls.all)
    (hic : ((LoopForest.ofFunc f).loop i).header = (c.before + 1 : Nat))
    (hjd : ((LoopForest.ofFunc f).loop j).header = (d.before + 1 : Nat)) :
    j ≠ i ∧ ((LoopForest.ofFunc f).loop i).header ∈ ((LoopForest.ofFunc f).loop j).blocks ↔
      c.Inside d := by
  rw [hic, h.mem_blocks_iff hlayout hend (isLoop_ofFunc hj) hd hjd, h.inside_iff_covers hc hd]
  refine and_congr_left fun _ => not_congr ⟨?_, ?_⟩
  · rintro rfl
    exact h.eq_of_before hd hc (Nat.succ.inj (hjd.symm.trans hic))
  · rintro rfl
    exact header_injective hj hi (hjd.trans hic.symm)

/-- The loop around the loop of a call is that of the call in whose body it was made. -/
theorem parent?_eq {e : LoopCall × Option LoopCall} (he : e ∈ calls.within Option.none)
    (hi : i ∈ (LoopForest.ofFunc f).ids)
    (hie : ((LoopForest.ofFunc f).loop i).header = (e.1.before + 1 : Nat)) :
    ((LoopForest.ofFunc f).parent? i).map (fun j => ((LoopForest.ofFunc f).loop j).header) =
      e.2.map fun c => c.built.header := by
  have hg := coherent_ofFunc f
  obtain ⟨hmem, ⟨hout, hnone⟩ | ⟨c, hc, hout, hin, hleast⟩⟩ := h.parent Option.none e he
  · have hno : (LoopForest.ofFunc f).parent? i = Option.none := by
      refine (parent?_eq_none_iff hg hi).mpr fun k hk hne hcov => ?_
      obtain ⟨d, hd, hkd⟩ := h.exists_call hlayout hend hk
      exact hnone d hd ((h.header_mem_iff hlayout hend hi hk hmem hd hie hkd).mp ⟨hne, hcov⟩)
    rw [hno, hout]
    rfl
  · obtain ⟨j, hj, hjc⟩ := h.exists_loop_of_call hlayout hend hc
    have hsome : (LoopForest.ofFunc f).parent? i = some j := by
      refine (parent?_eq_some_iff hg hi).mpr
        ⟨⟨hj, (h.header_mem_iff hlayout hend hi hj hmem hc hie hjc).mpr hin⟩,
          fun k hk hne hcov b hb => ?_⟩
      obtain ⟨d, hd, hkd⟩ := h.exists_call hlayout hend hk
      have hind := (h.header_mem_iff hlayout hend hi hk hmem hd hie hkd).mp ⟨hne, hcov⟩
      replace hb := (h.mem_blocks_iff hlayout hend (isLoop_ofFunc hj) hc hjc).mp hb
      refine (h.mem_blocks_iff hlayout hend (isLoop_ofFunc hk) hd hkd).mpr ?_
      rcases hleast d hd hind with rfl | ⟨hlow, hhigh⟩
      · exact hb
      · obtain ⟨h₁, h₂⟩ := hb
        exact ⟨by omega, by omega⟩
    rw [hsome, hout, Option.map_some, Option.map_some, hjc, (h.frame c hc).1.header_eq]

/-- The loops directly inside the loop of a call are those of the calls that its body made. -/
theorem mem_children_iff {e : LoopCall × Option LoopCall} (he : e ∈ calls.within Option.none)
    (hi : i ∈ (LoopForest.ofFunc f).ids)
    (hie : ((LoopForest.ofFunc f).loop i).header = (e.1.before + 1 : Nat)) :
    j ∈ (LoopForest.ofFunc f).children i ↔ j ∈ (LoopForest.ofFunc f).ids ∧
      ∃ d ∈ calls.within Option.none, d.2 = some e.1 ∧
        ((LoopForest.ofFunc f).loop j).header = d.1.built.header := by
  have hmem := (h.parent Option.none e he).1
  rw [children, List.mem_filter, beq_iff_eq]
  refine and_congr_right fun hj => ?_
  constructor
  · intro hp
    obtain ⟨c, hc, hjc⟩ := h.exists_call hlayout hend hj
    rw [← calls.map_fst_within Option.none, List.mem_map] at hc
    obtain ⟨d, hd, rfl⟩ := hc
    have hparent := h.parent?_eq hlayout hend hd hj hjc
    obtain ⟨hdmem, ⟨hout, -⟩ | ⟨p, hpmem, hout, -⟩⟩ := h.parent Option.none d hd
    · rw [hp, hout] at hparent
      cases hparent
    · rw [hp, hout, Option.map_some, Option.map_some, hie, (h.frame p hpmem).1.header_eq] at hparent
      have heq := h.eq_of_before hpmem hmem (Nat.succ.inj (Option.some.inj hparent)).symm
      exact ⟨d, hd, heq ▸ hout, hjc.trans (h.frame d.1 hdmem).1.header_eq.symm⟩
  · rintro ⟨d, hd, hout, hjd⟩
    rw [(h.frame d.1 (h.parent Option.none d hd).1).1.header_eq] at hjd
    have hparent := h.parent?_eq hlayout hend hd hj hjd
    rw [hout, Option.map_some, Option.map_eq_some_iff] at hparent
    obtain ⟨k, hk, hheader⟩ := hparent
    have hkids := ((parent?_eq_some_iff (coherent_ofFunc f) hj).mp hk).1.1
    rw [(h.frame e.1 hmem).1.header_eq, ← hie] at hheader
    exact hk.trans (congrArg some (header_injective hkids hi hheader))

/-- There is one loop for each call. -/
theorem headers_perm :
    ((LoopForest.ofFunc f).loops.toList.map NaturalLoop.header).Perm
      (calls.all.map fun c => c.built.header) := by
  have hheaders : (calls.all.map fun c => c.built.header) =
      (calls.all.map before).map (· + 1) := by
    rw [List.map_map]
    exact List.map_congr_left fun c hc => (h.frame c hc).1.header_eq
  have hnodup : (calls.all.map fun c => c.built.header).Nodup := by
    rw [hheaders]
    exact h.nodup.map fun a b hab => Nat.succ.inj hab
  refine (List.perm_ext_iff_of_nodup (nodup_headers (FlowGraph.ofFunc f)) hnodup).mpr fun b => ?_
  rw [mem_headers_iff, List.mem_map]
  constructor
  · rintro ⟨i, hi, rfl⟩
    obtain ⟨c, hc, hic⟩ := h.exists_call hlayout hend hi
    exact ⟨c, hc, (h.frame c hc).1.header_eq.trans hic.symm⟩
  · rintro ⟨c, hc, rfl⟩
    obtain ⟨i, hi, hic⟩ := h.exists_loop_of_call hlayout hend hc
    exact ⟨i, hi, hic.trans (h.frame c hc).1.header_eq.symm⟩

/-! ## Recognition -/

section

variable {l : NaturalLoop} (hl : IsLoop (FlowGraph.ofFunc f) l) (hc : c ∈ calls.all)
  (hheader : l.header = (c.before + 1 : Nat))
include hl hc hheader

/-- What can be used before a loop is invariant in it. -/
theorem invariant_of_readyAt {v : Operand} (hv : f.ReadyAt c.before v) : l.Invariant f v := by
  cases v with
  | param k => trivial
  | const k => trivial
  | inst j =>
    obtain ⟨d, hd, hdom⟩ := hv
    have hlast := (h.frame c hc).2.2
    have hle := (h.frame c hc).1.le_last
    refine ⟨d, hd, fun hmem => ?_, ?_⟩
    · -- The header would dominate the block before it, which has a smaller number.
      have hheader := h.header_dominates hlayout hend hc
        ((h.mem_blocks_iff hlayout hend hl hc hheader).mp hmem)
      refine not_dominates_iff.mpr ⟨0, entry_eq hlayout, ?_⟩ (hheader.trans hdom)
      exact (h.via_le hlayout hend c.before (by omega)).mono fun x hx =>
        Nat.ne_of_lt (Nat.lt_succ_of_le hx)
    · rw [hheader]
      exact hdom.trans (h.before_dominates hlayout hend hc)

theorem latches_eq (hlatches : l.latches.Nodup) : l.latches = [c.built.latch] :=
  eq_singleton_of_mem_iff hlatches fun _ => h.mem_latches_iff hlayout hend hl hc hheader

/-- A branch out of the loop of a call leads from its header to its exit. -/
theorem leaves_loop {a b : Nat} (ha : a ∈ l.blocks) (hs : b ∈ f.successors a)
    (hb : b ∉ l.blocks) : a = l.header ∧ b = c.built.exit := by
  obtain ⟨hframe, -, hlast⟩ := h.frame c hc
  rw [h.mem_blocks_iff hlayout hend hl hc hheader] at ha hb
  obtain ⟨-, hhigh⟩ := id ha
  obtain ⟨d, hd, hleads⟩ := h.exists_leads hend (by omega) hs
  rw [hheader, hframe.exit_eq]
  exact h.leaves hlayout hend hc ((h.edge_iff hlayout hend).mpr ⟨d, hd, hleads⟩) ha hb

theorem exit_not_mem : c.built.exit ∉ l.blocks := by
  intro hmem
  have hcov := (h.mem_blocks_iff hlayout hend hl hc hheader).mp hmem
  rw [(h.frame c hc).1.exit_eq] at hcov
  exact Nat.not_succ_le_self _ hcov.2

theorem exitingBlocks_eq (hblocks : l.blocks.Nodup) : l.exitingBlocks f = [l.header] := by
  obtain ⟨hframe, -, hlast⟩ := h.frame c hc
  refine eq_singleton_of_mem_iff (hblocks.filter _) fun b => ?_
  rw [NaturalLoop.exitingBlocks, List.mem_filter, List.any_eq_true]
  constructor
  · rintro ⟨hb, y, hy, hout⟩
    refine (h.leaves_loop hlayout hend hl hc hheader hb hy ?_).1
    simpa [NaturalLoop.contains] using hout
  · rintro rfl
    refine ⟨hl.header_mem, c.built.exit, ?_, ?_⟩
    · rw [hheader, hframe.test, hframe.exit_eq]
      exact List.mem_cons_of_mem _ List.mem_cons_self
    · simpa [NaturalLoop.contains] using h.exit_not_mem hlayout hend hl hc hheader

/-- The loop of a call is a counted loop. -/
theorem isCounted {φ cond next : InstId} {one : Operand} (hlatches : l.latches.Nodup)
    (hblocks : l.blocks.Nodup) (hcoded : c.Coded f φ cond next one)
    (hstart : f.ReadyAt c.before c.start) (hstop : f.ReadyAt c.before c.stop) :
    CountedLoop.IsCounted f l {
      preheader := c.here, header := l.header, latch := c.built.latch, exit := c.built.exit
      body := l.blocks.filter fun b => b ≠ l.header ∧ b ≠ c.built.latch
      bodyEntry := c.built.body, induction := φ, start := c.start, bound := c.stop, step := 1
      cond, next } := by
  obtain ⟨hframe, -, hlast⟩ := h.frame c hc
  have hle := hframe.le_last
  have hmem : ∀ {b : Nat}, b ∈ l.blocks ↔ c.Covers b :=
    h.mem_blocks_iff hlayout hend hl hc hheader
  have hheaderCall : c.built.header = l.header := hframe.header_eq.trans hheader.symm
  have hpre : c.before ∉ l.blocks := fun hb => Nat.lt_irrefl _ (hmem.mp hb).1
  have henter : f.successors c.before = [l.header] := hheader ▸ hframe.enter
  have hfrom : c.before ∈ f.predecessors l.header := by
    rw [hheader]
    exact (mem_predecessors_iff hlayout (by omega)).mpr
      ((h.edge_header_iff hlayout hend hc).mpr (.inl rfl))
  have hlatch : c.last ∈ l.blocks := hmem.mpr ⟨by omega, Nat.le_refl _⟩
  have hbody : c.built.body ∈ l.blocks := by
    rw [hframe.body_eq]
    exact hmem.mpr ⟨by omega, by omega⟩
  have hentries : ∀ p ∈ f.predecessors l.header, p ∉ l.blocks → p = c.before := by
    intro p hp hout
    rw [hheader] at hp
    rw [mem_predecessors_iff hlayout (by omega), h.edge_header_iff hlayout hend hc] at hp
    refine hp.resolve_right ?_
    rintro rfl
    exact hout hlatch
  have hexits : ∀ p ∈ f.predecessors c.built.exit, p ∈ l.blocks := by
    intro p hp
    rw [hframe.exit_eq, mem_predecessors_iff hlayout hlast, h.edge_exit_iff hlayout hend hc] at hp
    rw [hp]
    exact hmem.mpr ⟨by omega, by omega⟩
  exact {
    header_eq := rfl
    preheader_out := hpre
    preheader_mem := hfrom
    eq_preheader := hentries
    preheader_succ := henter
    latches_eq := h.latches_eq hlayout hend hl hc hheader hlatches
    exiting_eq := h.exitingBlocks_eq hlayout hend hl hc hheader hblocks
    exit_pred := hexits
    exitBranch := hheaderCall ▸ hcoded.branch
    bodyEntry_mem := hbody
    exit_out := h.exit_not_mem hlayout hend hl hc hheader
    phis_eq := hheaderCall ▸ hcoded.phis_eq
    start_eq := hcoded.start_eq
    next_eq := hcoded.next_eq
    start_inv := h.invariant_of_readyAt hlayout hend hl hc hheader hstart
    cond_op := hcoded.cond_op
    cond_owner := hheaderCall ▸ hcoded.cond_owner
    bound_inv := h.invariant_of_readyAt hlayout hend hl hc hheader hstop
    next_op := by
      simp [CountedLoop.addedConstant?, CountedLoop.iv, hcoded.next_op, hcoded.one_eq]
    next_owner := hcoded.next_owner
    step_pos := Int.zero_lt_one
    body_eq := rfl }

end

end

end Laid

/-! ## Whole functions -/

theorem Func.Arranged.listed {f : Func} (hf : f.Arranged) : f.Listed := by
  intro b i hi
  have howner := hf.owner_eq b i hi
  by_contra hge
  rw [Func.owner, Func.inst, Array.getElem?_eq_none (Nat.le_of_not_lt hge)] at howner
  cases howner

theorem Func.successors_of_ret {f : Func} {b : BlockId} {t : InstId} {v : Option Operand}
    (ht : f.terminator? b = some t) (hop : f.op t = .ret v) : f.successors b = [] := by
  simp [successors, ht, hop, Op.targets]

/-- What a loop is recognized as, and the call that has built it. -/
structure LoopCall.Matches (c : LoopCall) (k : CountedLoop) : Prop where
  preheader_eq : k.preheader = c.here
  header_eq : k.header = c.built.header
  bodyEntry_eq : k.bodyEntry = c.built.body
  latch_eq : k.latch = c.built.latch
  exit_eq : k.exit = c.built.exit
  iv_eq : k.iv = c.built.induction
  start_eq : k.start = c.start
  bound_eq : k.bound = c.stop
  step_eq : k.step = 1

namespace Build

/-- A function that was built from one entry block by straight code and loops, and closed by a
return. -/
inductive Whole (calls : Calls) : Func → Prop where
  | close {types : TypeTable} {name label : String} {params : Array Param} {ret : TyId}
      {entry there : BlockId} {v : Option Operand} {s₁ s₂ s₃ : Site}
      (hentry : block label ⟨types, .declare name params ret⟩ = (.ok entry, s₁))
      (hcode : Emits s₁ entry calls s₂ there) (hret : Build.ret there v s₂ = (.ok (), s₃)) :
      Whole calls s₃.func

namespace Whole

variable {calls : Calls} {f : Func}

/-- The blocks of the function, the return in the last of them, and the instructions of calls. -/
theorem exists_laid (h : Whole calls f) : ∃ there, Laid f 0 calls there ∧
    f.layout = List.range (there + 1) ∧
    (∃ t v, f.terminator? there = some t ∧ f.op t = .ret v) ∧
    ∀ c ∈ calls.all, ∃ φ cond next one, c.Coded f φ cond next one := by
  obtain ⟨hentry, hcode, hret⟩ := h
  rename_i types name label params ret entry there v s₁ s₂ s₃
  have htidy : Site.Tidy ⟨types, .declare name params ret⟩ := ⟨Func.arranged_declare _ _ _, rfl⟩
  have htidy₁ := htidy.block hentry
  have htidy₂ := htidy₁.emits hcode
  have htidy₃ := htidy₂.effect rfl hret
  obtain ⟨rfl, rfl⟩ := block_eq_ok.mp hentry
  have hready : Site.Ready ⟨types, ((Func.declare name params ret).addBlock label).2⟩ 0 :=
    ⟨htidy₁.arranged.listed, Nat.zero_lt_one⟩
  have hready₂ := (hcode.continues hready).ready
  have hgrows := (continues_of_effect rfl hready₂.listed hret).grows.func
  have hlast := hcode.last hready rfl
  refine ⟨there, hcode.laid hready rfl hgrows htidy₃.arranged, ?_, ?_,
    hcode.coded hready hgrows htidy₃.arranged⟩
  · rw [htidy₃.layout_eq, blocks_size_of_effect hret, hlast]
  · obtain ⟨t, ht, hop⟩ := terminator?_of_effect rfl rfl hret (.refl _) htidy₃.arranged
    exact ⟨t, v, ht, hop⟩

/-- The function has one loop for each call.  The loop around a loop is that of the call in whose
body the call was made, if any, and the loops directly inside are those of the calls that its own
body made.  Each loop is recognized as the counted loop that the call has built, provided that its
bounds can be used in the block before it. -/
theorem loop_per_call (h : Whole calls f)
    (hready : ∀ c ∈ calls.all, f.ReadyAt c.here c.start ∧ f.ReadyAt c.here c.stop) :
    (calls.all.map fun c => c.built.header).Nodup ∧
    ((LoopForest.ofFunc f).loops.toList.map NaturalLoop.header).Perm
      (calls.all.map fun c => c.built.header) ∧
    ∀ e ∈ calls.within none, ∃ i ∈ (LoopForest.ofFunc f).ids,
      ((LoopForest.ofFunc f).loop i).header = e.1.built.header ∧
      ((LoopForest.ofFunc f).parent? i).map (fun j => ((LoopForest.ofFunc f).loop j).header) =
        e.2.map (fun c => c.built.header) ∧
      (∀ j, j ∈ (LoopForest.ofFunc f).children i ↔ j ∈ (LoopForest.ofFunc f).ids ∧
        ∃ d ∈ calls.within none, d.2 = some e.1 ∧
          ((LoopForest.ofFunc f).loop j).header = d.1.built.header) ∧
      ∃ k, CountedLoop.recognize f (.ofFunc f) (.ofGraph (.ofFunc f))
        ((LoopForest.ofFunc f).loop i) = .ok k ∧ e.1.Matches k := by
  obtain ⟨there, hlaid, hlayout, ⟨t, v, ht, hop⟩, hcoded⟩ := h.exists_laid
  have hend := Func.successors_of_ret ht hop
  have hnodup : f.layout.Nodup := hlayout ▸ List.nodup_range
  have hperm := hlaid.headers_perm hlayout hend
  refine ⟨hperm.nodup_iff.mp (nodup_headers (FlowGraph.ofFunc f)), hperm, fun e he => ?_⟩
  have hmem := (hlaid.parent none e he).1
  obtain ⟨i, hi, hheader⟩ := hlaid.exists_loop_of_call hlayout hend hmem
  have heq := hheader.trans (hlaid.frame e.1 hmem).1.header_eq.symm
  obtain ⟨φ, cond, next, one, hcode⟩ := hcoded e.1 hmem
  obtain ⟨_, hlatches⟩ := latches_loop hi
  obtain ⟨_, hblocks⟩ := blocks_loop hi
  have hcounted := hlaid.isCounted hlayout hend (isLoop_ofFunc hi) hmem hheader
    (hlatches ▸ hnodup.filter _) (hblocks ▸ (blocks_ofFunc f ▸ hnodup).filter _) hcode
    (hready e.1 hmem).1 (hready e.1 hmem).2
  exact ⟨i, hi, heq, hlaid.parent?_eq hlayout hend he hi hheader,
    fun j => hlaid.mem_children_iff hlayout hend he hi hheader, _,
    CountedLoop.recognize_of_isCounted hcounted hnodup,
    ⟨rfl, heq, rfl, rfl, rfl, hcode.induction_eq.symm, rfl, rfl, rfl⟩⟩

/-! ### Two nested loops -/

theorem eq_ok_of_toOption {α : Type} {x : Except BuildError α × Site} {a : α}
    (h : x.1.toOption = some a) : x = (.ok a, x.2) := by
  obtain ⟨_ | b, s⟩ := x
  · cases h
  · cases h
    rfl

/-- The body of the outer loop: a loop up to its induction value. -/
def triangleBody (here : BlockId) (i : Operand) : Build BlockId := do
  let inner ← loop here (.const 0) i "j" fun b _ => pure b
  return inner.exit

/-- The outer loop, up to the parameter, and the loop in its body. -/
def triangleCalls : Calls :=
  .call ⟨0, .const 0, .param 0, ⟨1, 2, 7, 8, .inst 1⟩⟩
    (.call ⟨2, .const 0, .inst 1, ⟨3, 4, 5, 6, .inst 4⟩⟩ .none .none) .none

/-- The entry block, with the constant 0. -/
def triangleStart : Site := (constant .i64 (.int 0) (block "entry" Site.counting).2).2

/-- The body of the outer loop begins. -/
def triangleOpen : Site := (openLoop 0 (.const 0) (.param 0) "i" triangleStart).2

/-- The body of the outer loop ends. -/
def triangleFilled : Site := (loop 2 (.const 0) (.inst 1) "j" (fun b _ => pure b) triangleOpen).2

/-- After both loops. -/
def triangleEnd : Site := (loop 0 (.const 0) (.param 0) "i" triangleBody triangleStart).2

/-- A function with two nested loops. -/
def triangle : Func := (Build.ret 8 none triangleEnd).2.func

theorem whole_triangle : Whole triangleCalls triangle := by
  have hentry : block "entry" Site.counting = (.ok 0, _) := eq_ok_of_toOption (by decide +kernel)
  have hzero : constant .i64 (.int 0) (block "entry" Site.counting).2 = (.ok (.const 0), _) :=
    eq_ok_of_toOption (by decide +kernel)
  have hopen : openLoop 0 (.const 0) (.param 0) "i" triangleStart =
      (.ok ⟨"i", .i64, 1, 2, .inst 1, .inst 2⟩, triangleOpen) :=
    eq_ok_of_toOption (by decide +kernel)
  have hopen' : openLoop 2 (.const 0) (.inst 1) "j" triangleOpen =
      (.ok ⟨"j", .i64, 3, 4, .inst 4, .inst 5⟩, _) := eq_ok_of_toOption (by decide +kernel)
  have hinner : loop 2 (.const 0) (.inst 1) "j" (fun b _ => pure b) triangleOpen =
      (.ok ⟨3, 4, 5, 6, .inst 4⟩, triangleFilled) := eq_ok_of_toOption (by decide +kernel)
  have hbody : triangleBody 2 (.inst 1) triangleOpen = (.ok 6, triangleFilled) :=
    bind_eq_ok.mpr ⟨_, _, hinner, rfl⟩
  have houter : loop 0 (.const 0) (.param 0) "i" triangleBody triangleStart =
      (.ok ⟨1, 2, 7, 8, .inst 1⟩, triangleEnd) := eq_ok_of_toOption (by decide +kernel)
  have hret : Build.ret 8 none triangleEnd = (.ok (), _) := eq_ok_of_toOption (by decide +kernel)
  have hfilled := Emits.loop hinner hopen' rfl (.done _ _) (.done _ _)
  exact .close hentry (.step (.constant hzero) (.loop houter hopen hbody hfilled (.done _ _))) hret

theorem loop_per_call_triangle :
    Whole triangleCalls triangle ∧
    (∀ c ∈ triangleCalls.all, triangle.ReadyAt c.here c.start ∧ triangle.ReadyAt c.here c.stop) ∧
    ((LoopForest.ofFunc triangle).loops.toList.map NaturalLoop.header).Perm [1, 3] ∧
    ∃ i ∈ (LoopForest.ofFunc triangle).ids, ((LoopForest.ofFunc triangle).loop i).header = 3 ∧
      ((LoopForest.ofFunc triangle).parent? i).map
        (fun j => ((LoopForest.ofFunc triangle).loop j).header) = some 1 ∧
      ∃ k, CountedLoop.recognize triangle (.ofFunc triangle) (.ofGraph (.ofFunc triangle))
        ((LoopForest.ofFunc triangle).loop i) = .ok k ∧ k.bound = .inst 1 := by
  have hready : ∀ c ∈ triangleCalls.all,
      triangle.ReadyAt c.here c.start ∧ triangle.ReadyAt c.here c.stop := by
    intro c hc
    rcases List.mem_pair.mp hc with rfl | rfl
    · exact ⟨trivial, trivial⟩
    · exact ⟨trivial, 1, by decide +kernel, DomTree.dominates_ofGraph.mp (by decide +kernel)⟩
  obtain ⟨_, hperm, hcalls⟩ := whole_triangle.loop_per_call hready
  obtain ⟨i, hi, hheader, hparent, _, k, hk, hmatches⟩ :=
    hcalls _ (List.mem_cons_of_mem _ List.mem_cons_self)
  exact ⟨whole_triangle, hready, hperm, i, hi, hheader, hparent, k, hk, hmatches.bound_eq⟩

end Whole

end Build

end LoopNest
