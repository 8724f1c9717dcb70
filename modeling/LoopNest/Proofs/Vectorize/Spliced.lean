import LoopNest.Proofs.Func.Erase
import LoopNest.Proofs.Vectorize.Filled

/-!
# The function with its vector loop

Once the vector loop is there, the old loop is either kept for the rest, and entered from the
vector loop, or it is erased.  `Spliced` describes both outcomes, and `spliced_apply` says that
vectorizing gives one of them, whatever the types are.

What the code outside of the loop computes stays: only phis and terminators change
(`Spliced.op_stays`), and instructions are taken out of erased blocks only (`Spliced.owner_stays`).
-/

namespace LoopNest

open Func

namespace Vectorize

variable {f g h : Func} {l : NaturalLoop} {p : VectorPlan}

/-- An instruction that stays in its block. -/
structure Stays (g h : Func) (i : InstId) : Prop where
  op_eq : h.op i = g.op i
  ty_eq : (h.inst i).ty = (g.inst i).ty
  owner_eq : h.owner i = g.owner i

theorem Holds.stays {i : InstId} {op : Op} {t : TyId} {b : BlockId} (hi : Holds g i op t b)
    (hs : Stays g h i) : Holds h i op t b :=
  ⟨hs.op_eq.trans hi.op_eq, hs.ty_eq.trans hi.ty_eq, hs.owner_eq.trans hi.owner_eq⟩

theorem VectorBlocks.mem_all_of_loop {k : VectorBlocks} {b : BlockId}
    (hb : b ∈ [k.header, k.body, k.latch]) : b ∈ k.all := List.mem_append_left _ hb

theorem NewLoop.mem_body_of_code {n : VectorLoop} (hn : NewLoop p n g) {i : InstId}
    (hi : i ∈ n.code) : i ∈ g.body n.blocks.body := by
  rw [hn.body_body]
  exact List.mem_append_left _ hi

/-- The instructions of a vector loop. -/
theorem NewLoop.owner_of_mem {n : VectorLoop} (hn : NewLoop p n g) {b : BlockId}
    (hb : b ∈ [n.blocks.header, n.blocks.body, n.blocks.latch]) {i : InstId} (hi : i ∈ g.body b) :
    g.owner i = some b := by
  simp only [List.mem_cons, List.not_mem_nil, or_false] at hb
  rcases hb with rfl | rfl | rfl
  · simp only [hn.header_body, List.mem_cons, List.not_mem_nil, or_false] at hi
    rcases hi with rfl | rfl | rfl
    · exact hn.iv.owner_eq
    · exact hn.cond.owner_eq
    · exact hn.branch.owner_eq
  · simp only [hn.body_body, List.mem_append, List.mem_singleton] at hi
    rcases hi with hi | rfl
    · exact hn.owner_eq i hi
    · exact hn.jump.owner_eq
  · simp only [hn.latch_body, List.mem_cons, List.not_mem_nil, or_false] at hi
    rcases hi with rfl | rfl
    · exact hn.next.owner_eq
    · exact hn.back.owner_eq

theorem NewLoop.not_isPhi {n : VectorLoop} (hn : NewLoop p n g) {b : BlockId}
    (hb : b ∈ [n.blocks.header, n.blocks.body, n.blocks.latch]) {i : InstId} (hi : i ∈ g.body b)
    (hne : i ≠ n.iv) : (g.op i).isPhi = false := by
  simp only [List.mem_cons, List.not_mem_nil, or_false] at hb
  rcases hb with rfl | rfl | rfl
  · simp only [hn.header_body, List.mem_cons, List.not_mem_nil, or_false] at hi
    rcases hi with rfl | rfl | rfl
    · exact absurd rfl hne
    · rw [hn.cond.op_eq]
      rfl
    · rw [hn.branch.op_eq]
      rfl
  · simp only [hn.body_body, List.mem_append, List.mem_singleton] at hi
    rcases hi with hi | rfl
    · exact (hn.plain i hi).1
    · rw [hn.jump.op_eq]
      rfl
  · simp only [hn.latch_body, List.mem_cons, List.not_mem_nil, or_false] at hi
    rcases hi with rfl | rfl
    · rw [hn.next.op_eq]
      rfl
    · rw [hn.back.op_eq]
      rfl

theorem NewLoop.iv_ne_cond {n : VectorLoop} (hn : NewLoop p n g) : n.iv ≠ n.cond := by
  intro heq
  have hop := hn.iv.op_eq
  rw [heq, hn.cond.op_eq] at hop
  cases hop

theorem NewLoop.iv_not_mem_code {n : VectorLoop} (hn : NewLoop p n g) : n.iv ∉ n.code := by
  intro hmem
  have hop := (hn.plain _ hmem).1
  rw [hn.iv.op_eq] at hop
  cases hop

theorem NewLoop.stays {n : VectorLoop} (hn : NewLoop p n g)
    (hbody : ∀ b ∈ [n.blocks.header, n.blocks.body, n.blocks.latch], h.body b = g.body b)
    (hinst : ∀ b ∈ [n.blocks.header, n.blocks.body, n.blocks.latch], ∀ i ∈ g.body b, Stays g h i)
    (hconst : h.constants = g.constants) : NewLoop p n h := by
  have hheader := hinst n.blocks.header (by simp)
  have hbodies := hinst n.blocks.body (by simp)
  have hlatch := hinst n.blocks.latch (by simp)
  simp only [hn.header_body, List.mem_cons, List.not_mem_nil, or_false, forall_eq_or_imp,
    forall_eq] at hheader
  simp only [hn.body_body, List.forall_mem_append, List.mem_singleton, forall_eq] at hbodies
  simp only [hn.latch_body, List.mem_cons, List.not_mem_nil, or_false, forall_eq_or_imp,
    forall_eq] at hlatch
  constructor
  case header_body => exact (hbody _ (by simp)).trans hn.header_body
  case body_body => exact (hbody _ (by simp)).trans hn.body_body
  case latch_body => exact (hbody _ (by simp)).trans hn.latch_body
  case iv => exact hn.iv.stays hheader.1
  case cond => exact hn.cond.stays hheader.2.1
  case branch => exact hn.branch.stays hheader.2.2
  case plain =>
    intro i hi
    rw [(hbodies.1 i hi).op_eq]
    exact hn.plain i hi
  case owner_eq =>
    intro i hi
    rw [(hbodies.1 i hi).owner_eq]
    exact hn.owner_eq i hi
  case jump => exact hn.jump.stays hbodies.2
  case next => exact hn.next.stays hlatch.1
  case back => exact hn.back.stays hlatch.2
  case step_eq => exact hconst ▸ hn.step_eq

/-- An old block that is not erased. -/
def Kept (l : NaturalLoop) (n : VectorLoop) (f : Func) (b : BlockId) : Prop :=
  b ∈ f.layout ∧ (n.blocks.middle = none → b ∉ l.blocks)

/-- A block that is erased. -/
def Erased (l : NaturalLoop) (n : VectorLoop) (b : BlockId) : Prop :=
  n.blocks.middle = none ∧ b ∈ l.blocks

theorem kept_iff {n : VectorLoop} {b : BlockId} : Kept l n f b ↔ b ∈ f.layout ∧ ¬ Erased l n b := by
  simp [Kept, Erased]

/-- A function with a vector loop in front of an old loop, or in its place. -/
structure Spliced (l : NaturalLoop) (p : VectorPlan) (n : VectorLoop) (f g : Func) : Prop where
  newLoop : NewLoop p n g
  blocks_eq : n.blocks = freshBlocks f p
  mem_layout : ∀ b, b ∈ g.layout ↔ b ∈ n.blocks.all ∨ Kept l n f b
  entry_eq : g.entry? = f.entry?
  /-- The order of the other blocks stays. -/
  filter_eq : ∀ q : BlockId → Bool, (∀ b ∈ n.blocks.all, q b = false) →
    (∀ b, Erased l n b → q b = false) → g.layout.filter q = f.layout.filter q
  params_eq : g.params = f.params
  constant_eq : ∀ (c : Nat) x, f.constants[c]? = some x → g.constants[c]? = some x
  size_le : f.insts.size ≤ g.insts.size
  blocks_size_le : f.blocks.size ≤ g.blocks.size
  keepsTypes : f.KeepsTypes g
  body_eq : ∀ b, Kept l n f b → g.body b = f.body b
  ty_eq : ∀ i < f.insts.size, (g.inst i).ty = (f.inst i).ty
  owner_stays : ∀ i b, f.owner i = some b → ¬ Erased l n b → g.owner i = some b
  owner_of : ∀ i < f.insts.size, ∀ b, g.owner i = some b → f.owner i = some b
  /-- The preheader leads to the vector loop. -/
  preheader_op : ∀ t, f.terminator? p.loop.preheader = some t →
    g.op t = (f.op t).retarget l.header n.blocks.header
  /-- The old loop starts where the vector loop ends. -/
  induction_op : ∀ m, n.blocks.middle = some m → ∀ incoming, f.op p.loop.induction = .phi incoming →
    g.op p.loop.induction =
      .phi (incoming.map fun e => if e.2 = p.loop.preheader then (n.stop, m) else e)
  op_eq : ∀ b, Kept l n f b → ∀ i ∈ f.body b, f.terminator? p.loop.preheader ≠ some i →
    i ≠ p.loop.induction → g.op i = f.op i
  op_stays : ∀ i < f.insts.size, g.op i = f.op i ∨
    ((f.op i).isPhi || (f.op i).isTerminator) = true ∧
      ((g.op i).isPhi || (g.op i).isTerminator) = true
  operands_stay : ∀ i < f.insts.size, ∀ v ∈ (g.op i).operands, v ∈ (f.op i).operands ∨ v = n.stop
  middle : ∀ m, n.blocks.middle = some m → (g.block l.header).vectorized = true ∧
    ∃ leave, g.body m = [leave] ∧ Holds g leave (.br l.header) p.voidTy m
  marked : (g.block n.blocks.header).vectorized = true
  still_marked : ∀ b, (f.block b).vectorized = true → (g.block b).vectorized = true
  mem_new : ∀ i, f.insts.size ≤ i → i < g.insts.size → ∃ b ∈ n.blocks.all, i ∈ g.body b
  made : Made p n f g
  emission : ∃ k base, Entered l p n.blocks f k ∧ Emission p n k base g

/-- The old loop is entered from the vector loop, and starts where that ends. -/
structure Resumed (p : VectorPlan) (m : BlockId) (stop : Operand) (g h : Func) : Prop where
  layout_eq : h.layout = g.layout
  ret_eq : h.ret = g.ret
  params_eq : h.params = g.params
  constants_eq : h.constants = g.constants
  size_eq : h.insts.size = g.insts.size + 1
  blocks_size_eq : h.blocks.size = g.blocks.size
  body_eq : ∀ b, h.body b = if b = m then g.body m ++ [g.insts.size] else g.body b
  leave : Holds h g.insts.size (.br p.loop.header) p.voidTy m
  ty_eq : ∀ i < g.insts.size, (h.inst i).ty = (g.inst i).ty
  owner_eq : ∀ i < g.insts.size, h.owner i = g.owner i
  op_eq : ∀ i < g.insts.size, i ≠ p.loop.induction → h.op i = g.op i
  induction_op : ∀ incoming, g.op p.loop.induction = .phi incoming → h.op p.loop.induction =
    .phi ((incoming.map fun e => (e.1, if e.2 = p.loop.preheader then m else e.2)).map fun e =>
      (if e.2 = m then stop else e.1, e.2))
  marked : ∀ b, (g.block b).vectorized = true → (h.block b).vectorized = true
  header_marked : (h.block p.loop.header).vectorized = true

theorem resumed_keepEpilogue {m : BlockId} (stop : Operand) (hm : m < g.blocks.size)
    (hphis : g.phis p.loop.header = [p.loop.induction])
    (hlt : ∀ i ∈ g.body p.loop.header, i < g.insts.size) (hne : p.loop.header ≠ m) :
    Resumed p m stop g (keepEpilogue g p m stop) := by
  have hind : p.loop.induction < g.insts.size :=
    hlt _ (mem_body_of_phis (hphis ▸ List.mem_singleton.mpr rfl))
  have happ := g.appends_appendInst hm ⟨.br p.loop.header, p.voidTy, none⟩
  have hleave := holds_appendInst g m ⟨.br p.loop.header, p.voidTy, none⟩
  have hsize := g.insts_size_appendInst m ⟨.br p.loop.header, p.voidTy, none⟩
  obtain ⟨g₁, hg₁⟩ : ∃ k, (g.appendInst m ⟨.br p.loop.header, p.voidTy, none⟩).2 = k := ⟨_, rfl⟩
  rw [hg₁] at happ hleave hsize
  have hphis₁ : g₁.phis p.loop.header = [p.loop.induction] := by
    rw [phis_congr (f := g) (by rw [happ.body_eq, if_neg hne]) fun i hi => ?_, hphis]
    rw [happ.op_eq (hlt i hi)]
  have hind₁ : p.loop.induction < g₁.insts.size := Nat.lt_of_lt_of_le hind happ.size_le
  have heq : keepEpilogue g p m stop =
      mark ((g₁.modifyOp p.loop.induction (renameIncoming p.loop.preheader m)).setIncoming
        p.loop.induction m stop) p.loop.header := by
    unfold keepEpilogue renamePredecessor
    dsimp only
    rw [hg₁, hphis₁]
    rfl
  -- Only the induction phi changes after that.
  obtain ⟨g₂, hg₂⟩ : ∃ k, (g₁.modifyOp p.loop.induction (renameIncoming p.loop.preheader m)).setIncoming
    p.loop.induction m stop = k := ⟨_, rfl⟩
  rw [heq, hg₂]
  have hty : ∀ i, (g₂.inst i).ty = (g₁.inst i).ty := fun i => by simp [← hg₂, setIncoming]
  have hown : ∀ i, g₂.owner i = g₁.owner i := fun i => by simp [← hg₂, setIncoming]
  have hop : ∀ i, i ≠ p.loop.induction → g₂.op i = g₁.op i := fun i hi => by
    rw [← hg₂, setIncoming, op_modifyOp _ (by simpa using hind₁), if_neg (Ne.symm hi),
      op_modifyOp _ hind₁, if_neg (Ne.symm hi)]
  have hlast : p.loop.induction ≠ g.insts.size := Nat.ne_of_lt hind
  have hsize₂ : g₂.blocks.size = g.blocks.size := by
    rw [← happ.blocks_size_eq]
    subst hg₂
    rfl
  have hmark (b : BlockId) (hb : (g₂.block b).vectorized = true) :
      ((mark g₂ p.loop.header).block b).vectorized = true := by
    rw [mark, vectorized_modifyBlock]
    split
    · rfl
    · exact hb
  constructor
  case layout_eq =>
    subst hg₂
    exact happ.layout_eq
  case ret_eq =>
    subst hg₂
    exact happ.ret_eq
  case params_eq =>
    subst hg₂
    exact happ.params_eq
  case constants_eq =>
    subst hg₂
    exact happ.constants_eq
  case size_eq =>
    subst hg₂
    simpa [mark, modifyBlock, setIncoming] using hsize
  case blocks_size_eq =>
    rw [← hsize₂]
    exact Array.size_modify
  case body_eq =>
    intro b
    rw [body_mark, ← happ.body_eq]
    subst hg₂
    rfl
  case leave =>
    exact ⟨(hop _ hlast.symm).trans hleave.op_eq, (hty _).trans hleave.ty_eq,
      (hown _).trans hleave.owner_eq⟩
  case ty_eq => exact fun i hi => (hty i).trans (congrArg Inst.ty (happ.inst_eq i hi))
  case owner_eq => exact fun i hi => (hown i).trans (congrArg Inst.owner (happ.inst_eq i hi))
  case op_eq => exact fun i hi hne => (hop i hne).trans (happ.op_eq hi)
  case induction_op =>
    intro incoming hinc
    change g₂.op _ = _
    rw [← hg₂, setIncoming, op_modifyOp _ (by simpa using hind₁), if_pos rfl, op_modifyOp _ hind₁,
      if_pos rfl, happ.op_eq hind, hinc]
    rfl
  case marked =>
    intro b hb
    rw [← happ.vectorized_eq] at hb
    refine hmark b ?_
    subst hg₂
    exact hb
  case header_marked =>
    have hheader : p.loop.header < g₂.blocks.size :=
      hsize₂ ▸ lt_blocks_size (mem_body_of_phis (hphis ▸ List.mem_singleton.mpr rfl))
    rw [mark, vectorized_modifyBlock, if_pos ⟨rfl, hheader⟩]

namespace Resumed

variable {m : BlockId} {stop : Operand} (hr : Resumed p m stop g h)

include hr

theorem keepsTypes : g.KeepsTypes h :=
  keepsTypes_of hr.params_eq hr.ret_eq (hr.size_eq ▸ Nat.le_succ _) hr.ty_eq
    fun _ _ hx => hr.constants_eq ▸ hx

/-- When the block is no source of the phi yet, it takes the place of the preheader there. -/
theorem induction_op_of_new {incoming : List (Operand × BlockId)}
    (hinc : g.op p.loop.induction = .phi incoming) (hnew : ∀ e ∈ incoming, e.2 ≠ m) :
    h.op p.loop.induction =
      .phi (incoming.map fun e => if e.2 = p.loop.preheader then (stop, m) else e) := by
  rw [hr.induction_op incoming hinc, List.map_map]
  congr 1
  refine List.map_congr_left fun e he => ?_
  by_cases hph : e.2 = p.loop.preheader
  · simp [hph]
  · simp [hph, hnew e he]

/-- Only the new branch brings a type along. -/
theorem mem_tys {incoming : List (Operand × BlockId)} (hinc : g.op p.loop.induction = .phi incoming) :
    ∀ t ∈ h.tys, t ∈ g.tys ∨ t ∈ p.tys := by
  obtain ⟨hret, hparams, hconsts, hinsts⟩ := forall_mem_tys.mp fun t (ht : t ∈ g.tys) => ht
  refine forall_mem_tys.mpr ⟨hr.ret_eq ▸ .inl hret, fun x hx => .inl (hparams x (hr.params_eq ▸ hx)),
    fun x hx => .inl (hconsts x (hr.constants_eq ▸ hx)), fun i hi => ?_⟩
  rcases Nat.lt_succ_iff_lt_or_eq.mp (hr.size_eq ▸ hi) with hig | rfl
  · rw [hr.ty_eq i hig]
    refine ⟨.inl (hinsts i hig).1, fun t a hop => .inl ((hinsts i hig).2 t a ?_)⟩
    by_cases heq : i = p.loop.induction
    · rw [heq, hr.induction_op _ hinc] at hop
      cases hop
    · rwa [hr.op_eq i hig heq] at hop
  · exact hr.leave.mem_tys (VectorPlan.mem_tys_of_control (.inr (.inr rfl))) (by simp)

end Resumed

theorem Shape.terminator_ne (hp : Shape f l p) (hf : f.Framed) {b : BlockId}
    (hb : b ∈ f.layout) (hmem : b ∈ l.blocks) {i : InstId} (hi : i ∈ f.body b) :
    f.terminator? p.loop.preheader ≠ some i := fun ht => by
  have hown := hf.owner_eq _ hp.edge_preheader.1 i (mem_body_of_terminator ht).1
  rw [hf.owner_eq b hb i hi] at hown
  exact hp.counted.preheader_out (Option.some.inj hown ▸ hmem)

/-- The entry is not the header. -/
theorem Shape.entry_ne (hp : Shape f l p) (hf : f.Framed) :
    ∃ e, f.entry? = some e ∧ l.header ≠ e := by
  obtain ⟨e, he, _⟩ := hp.isLoop.reachable
  rw [f.entry?_ofFunc] at he
  refine ⟨e, he, fun heq => ?_⟩
  exact CountedLoop.entry_not_mem hf.entry_predecessors hp.isLoop hp.counted he
    (heq ▸ hp.isLoop.header_mem)

theorem Shape.mem_blocks (hp : Shape f l p) (b : BlockId) :
    b ∈ p.loop.header :: p.loop.latch :: p.loop.body ↔ b ∈ l.blocks := by
  have hlatch := CountedLoop.latch_mem hp.isLoop hp.counted
  simp only [List.mem_cons, hp.counted.header_eq, hp.counted.body_eq, List.mem_filter,
    decide_eq_true_eq]
  constructor
  · rintro (rfl | rfl | hb)
    · exact hp.isLoop.header_mem
    · exact hlatch
    · exact hb.1
  · intro hb
    by_cases hh : b = l.header
    · exact .inl hh
    · by_cases hl : b = p.loop.latch
      · exact .inr (.inl hl)
      · exact .inr (.inr ⟨hb, hh, hl⟩)

/-- No phi outside of the loop takes a value from the loop, since the exit has no phis. -/
theorem Shape.source_out (hp : Shape f l p) (hf : f.Framed) {b : BlockId}
    (hb : b ∈ f.layout) (hout : b ∉ l.blocks) {i : InstId} (hi : i ∈ f.body b)
    {incoming : List (Operand × BlockId)} (hop : f.op i = .phi incoming) {e : Operand × BlockId}
    (he : e ∈ incoming) : e.2 ∉ l.blocks := by
  intro hmem
  have hpred := ((hf.phi_sources b hb i hi incoming hop).2 e.2).mp (List.mem_map_of_mem he)
  obtain ⟨_, hsucc⟩ := (f.mem_predecessors _ _).mp hpred
  rcases CountedLoop.mem_of_successor hp.counted hmem hsucc with hin | ⟨_, rfl⟩
  · exact hout hin
  · rw [← f.phis_append_afterPhis, hp.exit_phis, List.nil_append] at hi
    have := hf.phi_first _ hb i hi
    rw [hop] at this
    cases this

namespace Added

variable {n : VectorLoop} (ha : Added l p n f g)

include ha

theorem ne_of_live (hf : f.Framed) {b d : BlockId} (hb : b ∈ f.layout)
    (hd : d ∈ n.blocks.all) : b ≠ d := ne_of_mem_freshBlocks hf hb (ha.blocks_eq ▸ hd)

theorem body_of_live (hf : f.Framed) {b : BlockId} (hb : b ∈ f.layout) : g.body b = f.body b :=
  ha.body_eq b (ha.ne_of_live hf hb (by simp [VectorBlocks.all]))
    (ha.ne_of_live hf hb (by simp [VectorBlocks.all])) (ha.ne_of_live hf hb (by simp [VectorBlocks.all]))

theorem owner_eq {i : InstId} (hi : i < f.insts.size) : g.owner i = f.owner i := by
  rw [owner, ha.inst_eq i hi]
  rfl

theorem owner_of_live (hf : f.Framed) {b : BlockId} (hb : b ∈ f.layout) {i : InstId}
    (hi : i ∈ f.body b) : g.owner i = some b := by
  rw [ha.owner_eq (hf.inst_lt hb hi)]
  exact hf.owner_eq b hb i hi

theorem op_of_ne {i : InstId} (hi : i < f.insts.size) (ht : f.terminator? p.loop.preheader ≠ some i) :
    g.op i = f.op i := by
  rw [op, ha.inst_eq i hi, if_neg ht]

theorem op_of_preheader {t : InstId} (hi : t < f.insts.size)
    (ht : f.terminator? p.loop.preheader = some t) :
    g.op t = (f.op t).retarget l.header n.blocks.header := by
  rw [op, ha.inst_eq t hi, if_pos ht]

/-- Only the terminator of the preheader changes. -/
theorem op_stays {i : InstId} (hi : i < f.insts.size) : g.op i = f.op i ∨
    (f.op i).isTerminator = true ∧ (g.op i).isTerminator = true ∧
      (g.op i).operands = (f.op i).operands := by
  by_cases ht : f.terminator? p.loop.preheader = some i
  · have hterm := (mem_body_of_terminator ht).2
    rw [ha.op_of_preheader hi ht, isTerminator_retarget, operands_retarget]
    exact .inr ⟨hterm, hterm, rfl⟩
  · exact .inl (ha.op_of_ne hi ht)

theorem keepsTypes : f.KeepsTypes g :=
  keepsTypes_of ha.params_eq ha.ret_eq ha.size_le (fun i hi => by rw [ha.inst_eq i hi]) ha.constant_eq

/-- The description of the vector loop stays with its instructions. -/
theorem emission_of_stays {k : Func} (hkeeps : g.KeepsTypes k) (hcode : ∀ i ∈ n.code, Stays g k i) :
    ∃ x base, Entered l p n.blocks f x ∧ Emission p n x base k := by
  obtain ⟨x, base, hent, hem⟩ := ha.emission
  exact ⟨x, base, hent, hem.congr hkeeps (fun i hi => (hcode i hi).op_eq) fun i hi => (hcode i hi).ty_eq⟩

/-- The phis of the old header. -/
theorem op_induction (hf : f.Framed) (hp : Shape f l p) :
    g.op p.loop.induction = f.op p.loop.induction :=
  ha.op_of_ne (hf.inst_lt hp.header_live hp.mem_header.1)
    (hp.terminator_ne hf hp.header_live hp.isLoop.header_mem hp.mem_header.1)

theorem resumed (hf : f.Framed) (hp : Shape f l p) {m : BlockId} (hm : m ∈ n.blocks.all) :
    Resumed p m n.stop g (Vectorize.keepEpilogue g p m n.stop) := by
  have hheader := hp.header_live
  have hmlt : m < g.blocks.size := by
    rw [ha.blocks_size_eq]
    rw [ha.blocks_eq] at hm ⊢
    exact lt_of_mem_freshBlocks hm
  have hphis : g.phis p.loop.header = [p.loop.induction] := by
    rw [hp.counted.header_eq, phis_congr (ha.body_of_live hf hheader) fun i hi => ?_,
      hp.counted.phis_eq]
    rw [ha.op_of_ne (hf.inst_lt hheader hi) (hp.terminator_ne hf hheader hp.isLoop.header_mem hi)]
  refine resumed_keepEpilogue n.stop hmlt hphis (fun i hi => ?_)
    (hp.counted.header_eq ▸ ha.ne_of_live hf hheader hm)
  rw [hp.counted.header_eq, ha.body_of_live hf hheader] at hi
  exact Nat.lt_of_lt_of_le (hf.inst_lt hheader hi) ha.size_le

/-- The old loop is kept. -/
theorem keepEpilogue (hf : f.Framed) (hp : Shape f l p) {m : BlockId}
    (hm : n.blocks.middle = some m) : Spliced l p n f (keepEpilogue g p m n.stop) := by
  have hheader := hp.header_live
  have hmall : m ∈ n.blocks.all := by simp [VectorBlocks.all, hm]
  have hnew := (VectorBlocks.ne_of_nodup (ha.blocks_eq ▸ nodup_freshBlocks f p)).2.2.2 m hm
  have hold {i : InstId} (hi : i < f.insts.size) : i < g.insts.size :=
    Nat.lt_of_lt_of_le hi ha.size_le
  have hr := ha.resumed hf hp hmall
  generalize Vectorize.keepEpilogue g p m n.stop = k at hr ⊢
  have hmem {b : BlockId} : Kept l n f b ↔ b ∈ f.layout := ⟨And.left, fun hb => ⟨hb, by simp [hm]⟩⟩
  have hind := hp.mem_header.1
  obtain ⟨inc, hinc, _⟩ := hp.incoming_eq
  have hindg := (ha.op_induction hf hp).trans hinc
  have hindk := hr.induction_op_of_new hindg fun e he => by
    have hpred := ((hf.phi_sources _ hheader _ hind inc hinc).2 e.2).mp (List.mem_map_of_mem he)
    exact ha.ne_of_live hf ((f.mem_predecessors _ _).mp hpred).1 hmall
  have hne {b : BlockId} {i : InstId} (hb : b ∈ n.blocks.all) (hi : g.owner i = some b) :
      i ≠ p.loop.induction := by
    rintro rfl
    rw [ha.owner_of_live hf hheader hind] at hi
    exact ha.ne_of_live hf hheader hb (Option.some.inj hi)
  have hstays (b : BlockId) (hb : b ∈ [n.blocks.header, n.blocks.body, n.blocks.latch]) (i : InstId)
      (hi : i ∈ g.body b) : Stays g k i := by
    have hown := ha.newLoop.owner_of_mem hb hi
    have hlt := owner_lt hown
    exact ⟨hr.op_eq i hlt (hne (VectorBlocks.mem_all_of_loop hb) hown), hr.ty_eq i hlt, hr.owner_eq i hlt⟩
  have hthreem (b : BlockId) (hb : b ∈ [n.blocks.header, n.blocks.body, n.blocks.latch]) : b ≠ m := by
    rintro rfl
    simp only [List.mem_cons, List.not_mem_nil, or_false] at hb
    exact hb.elim hnew.1 fun hb => hb.elim hnew.2.1 hnew.2.2
  have hbody (b : BlockId) (hb : b ∈ [n.blocks.header, n.blocks.body, n.blocks.latch]) :
      k.body b = g.body b := by
    rw [hr.body_eq, if_neg (hthreem b hb)]
  have hmiddle : k.body m = [g.insts.size] := by
    rw [hr.body_eq, if_pos rfl, ha.body_eq m hnew.1 hnew.2.1 hnew.2.2, body, block,
      Array.getElem?_eq_none (le_of_mem_freshBlocks (ha.blocks_eq ▸ hmall))]
    rfl
  have hcode (i : InstId) (hi : i ∈ n.code) : Stays g k i :=
    hstays n.blocks.body (by simp) i (ha.newLoop.mem_body_of_code hi)
  constructor
  case newLoop => exact ha.newLoop.stays hbody hstays hr.constants_eq
  case blocks_eq => exact ha.blocks_eq
  case mem_layout =>
    intro b
    rw [hr.layout_eq, ha.mem_layout, hmem]
  case entry_eq =>
    obtain ⟨e, he, hne⟩ := hp.entry_ne hf
    rw [ Func.entry?, hr.layout_eq, he]
    exact ha.entry_eq e he hne
  case filter_eq =>
    intro q hq _
    rw [hr.layout_eq]
    exact ha.filter_eq q hq
  case params_eq => exact hr.params_eq.trans ha.params_eq
  case constant_eq => exact fun c x hx => hr.constants_eq ▸ ha.constant_eq c x hx
  case size_le => exact Nat.le_trans ha.size_le (hr.size_eq ▸ Nat.le_succ _)
  case blocks_size_le =>
    rw [hr.blocks_size_eq, ha.blocks_size_eq]
    exact Nat.le_add_right _ _
  case keepsTypes => exact ha.keepsTypes.trans hr.keepsTypes
  case body_eq =>
    intro b hb
    rw [hr.body_eq, if_neg (ha.ne_of_live hf (hmem.mp hb) hmall), ha.body_of_live hf (hmem.mp hb)]
  case ty_eq =>
    intro i hi
    rw [hr.ty_eq i (hold hi), ha.inst_eq i hi]
  case owner_stays =>
    intro i b hi _
    have hlt := owner_lt hi
    rw [hr.owner_eq i (hold hlt), ha.owner_eq hlt, hi]
  case owner_of =>
    intro i hi b hb
    rwa [hr.owner_eq i (hold hi), ha.owner_eq hi] at hb
  case preheader_op =>
    intro t ht
    have hlt := hf.inst_lt hp.edge_preheader.1 (mem_body_of_terminator ht).1
    rw [hr.op_eq t (hold hlt) fun heq => ?_, ha.op_of_preheader hlt ht]
    exact hp.terminator_ne hf hheader hp.isLoop.header_mem hind (heq ▸ ht)
  case induction_op =>
    intro m' hm' inc' hinc'
    rw [hm] at hm'
    rw [hinc] at hinc'
    cases hm'
    cases hinc'
    exact hindk
  case op_eq =>
    intro b hb i hi hterm hne
    have hlt := hf.inst_lt (hmem.mp hb) hi
    rw [hr.op_eq i (hold hlt) hne, ha.op_of_ne hlt hterm]
  case op_stays =>
    intro i hi
    by_cases heq : i = p.loop.induction
    · rw [heq, hindk, hinc]
      exact .inr ⟨rfl, rfl⟩
    · rw [hr.op_eq i (hold hi) heq]
      refine (ha.op_stays hi).imp_right fun hterm => ?_
      simp [hterm.1, hterm.2.1]
  case operands_stay =>
    intro i hi v hv
    by_cases heq : i = p.loop.induction
    · rw [heq, hindk] at hv
      rw [heq, hinc]
      simp only [Op.operands, List.map_map, List.mem_map, Function.comp_apply] at hv ⊢
      obtain ⟨e, he, rfl⟩ := hv
      split
      · exact .inr rfl
      · exact .inl ⟨e, he, rfl⟩
    · rw [hr.op_eq i (hold hi) heq] at hv
      left
      rcases ha.op_stays hi with hop | ⟨_, _, hops⟩
      · exact hop ▸ hv
      · exact hops ▸ hv
  case middle =>
    intro m' hm'
    rw [hm] at hm'
    cases hm'
    rw [← hp.counted.header_eq]
    exact ⟨hr.header_marked, g.insts.size, hmiddle, hr.leave⟩
  case marked =>
    refine hr.marked _ ?_
    rw [ha.vectorized_eq]
    simp
  case still_marked =>
    intro b hb
    refine hr.marked b ?_
    rw [ha.vectorized_eq, hb]
    simp
  case mem_new =>
    intro i hle hlt
    by_cases hi : i < g.insts.size
    · obtain ⟨b, hb, hmem⟩ := ha.mem_new i hle hi
      exact ⟨b, VectorBlocks.mem_all_of_loop hb, (hbody b hb).symm ▸ hmem⟩
    · obtain rfl : i = g.insts.size := by
        have := hr.size_eq
        omega
      exact ⟨m, hmall, by simp [hmiddle]⟩
  case made =>
    exact ha.made.congr (fun i hi => (hcode i hi).op_eq) (hr.mem_tys hindg)
  case emission => exact ha.emission_of_stays hr.keepsTypes hcode

/-- The old loop is erased. -/
theorem erase (hf : f.Framed) (hp : Shape f l p) (hm : n.blocks.middle = none) :
    Spliced l p n f ((p.loop.header :: p.loop.latch :: p.loop.body).foldl eraseBlock g) := by
  have hmem {b : BlockId} : Kept l n f b ↔ b ∈ f.layout ∧ b ∉ l.blocks := by simp [Kept, hm]
  have hbs : ∀ b, b ∈ p.loop.header :: p.loop.latch :: p.loop.body ↔ b ∈ l.blocks := hp.mem_blocks
  have he := erasedAll_foldl (p.loop.header :: p.loop.latch :: p.loop.body) g
  generalize p.loop.header :: p.loop.latch :: p.loop.body = bs at hbs he ⊢
  generalize bs.foldl eraseBlock g = k at he ⊢
  have hlive {b : BlockId} (hb : b ∈ l.blocks) : b ∈ f.layout := CountedLoop.live_of_mem hp.isLoop hb
  have hout {b : BlockId} (hb : b ∈ n.blocks.all) : b ∉ l.blocks := fun hmem =>
    ha.ne_of_live hf (hlive hmem) hb rfl
  -- What is held by a block outside of the loop stays there.
  have howner {i : InstId} {b : BlockId} (hi : g.owner i = some b) (hb : b ∉ l.blocks) :
      k.owner i = some b := by
    rw [he.owner_eq i fun d hd hid => ?_, hi]
    have hd := (hbs d).mp hd
    rw [ha.body_of_live hf (hlive hd)] at hid
    rw [ha.owner_of_live hf (hlive hd) hid] at hi
    exact hb (Option.some.inj hi ▸ hd)
  have hkeep {q : BlockId} (hq : q ∉ l.blocks) : q ∉ bs := fun hmem => hq ((hbs _).mp hmem)
  have hkeeps : g.KeepsTypes k := keepsTypes_of he.params_eq he.ret_eq (Nat.le_of_eq he.size_eq.symm)
    (fun i _ => he.ty_eq i) fun _ _ hx => he.constants_eq ▸ hx
  have hold {i : InstId} (hi : i < f.insts.size) : i < g.insts.size :=
    Nat.lt_of_lt_of_le hi ha.size_le
  have hstays (b : BlockId) (hb : b ∈ [n.blocks.header, n.blocks.body, n.blocks.latch]) (i : InstId)
      (hi : i ∈ g.body b) : Stays g k i := by
    have hown := ha.newLoop.owner_of_mem hb hi
    refine ⟨(he.pruned i).eq_of_keep fun inc hinc e hmem => ?_, he.ty_eq i, ?_⟩
    · by_cases heq : i = n.iv
      · rw [heq, ha.newLoop.iv.op_eq] at hinc
        cases hinc
        simp only [List.mem_cons, List.not_mem_nil, or_false] at hmem
        rcases hmem with rfl | rfl
        · exact hkeep hp.counted.preheader_out
        · exact hkeep (hout (by simp [VectorBlocks.all]))
      · have := ha.newLoop.not_isPhi hb hi heq
        rw [hinc] at this
        cases this
    · rw [hown]
      exact howner hown (hout (VectorBlocks.mem_all_of_loop hb))
  have hcode (i : InstId) (hi : i ∈ n.code) : Stays g k i :=
    hstays n.blocks.body (by simp) i (ha.newLoop.mem_body_of_code hi)
  have hbody (b : BlockId) (hb : b ∈ [n.blocks.header, n.blocks.body, n.blocks.latch]) :
      k.body b = g.body b := he.body_eq b (hkeep (hout (VectorBlocks.mem_all_of_loop hb)))
  constructor
  case newLoop => exact ha.newLoop.stays hbody hstays he.constants_eq
  case blocks_eq => exact ha.blocks_eq
  case mem_layout =>
    intro b
    rw [he.mem_layout, ha.mem_layout, hmem, hbs]
    constructor
    · rintro ⟨hb | hb, hnot⟩
      · exact .inl hb
      · exact .inr ⟨hb, hnot⟩
    · rintro (hb | hb)
      · exact ⟨.inl hb, hout hb⟩
      · exact ⟨.inr hb.1, hb.2⟩
  case entry_eq =>
    obtain ⟨e, hent, hne⟩ := hp.entry_ne hf
    rw [hent]
    exact he.entry_eq e (ha.entry_eq e hent hne)
      (hkeep (CountedLoop.entry_not_mem hf.entry_predecessors hp.isLoop hp.counted hent))
  case filter_eq =>
    intro q hq hq'
    rw [he.filter_eq q fun b hb => hq' b ⟨hm, (hbs b).mp hb⟩]
    exact ha.filter_eq q hq
  case params_eq => exact he.params_eq.trans ha.params_eq
  case constant_eq => exact fun c x hx => he.constants_eq ▸ ha.constant_eq c x hx
  case size_le => exact he.size_eq ▸ ha.size_le
  case blocks_size_le =>
    rw [he.blocks_size_eq, ha.blocks_size_eq]
    exact Nat.le_add_right _ _
  case keepsTypes => exact ha.keepsTypes.trans hkeeps
  case body_eq =>
    intro b hb
    rw [he.body_eq b (hkeep (hmem.mp hb).2), ha.body_of_live hf (hmem.mp hb).1]
  case ty_eq =>
    intro i hi
    rw [he.ty_eq, ha.inst_eq i hi]
  case owner_stays =>
    intro i b hi hb
    refine howner ?_ fun hmem => hb ⟨hm, hmem⟩
    rw [ha.owner_eq (owner_lt hi), hi]
  case owner_of =>
    intro i hi b hb
    rw [← ha.owner_eq hi]
    exact he.owner_of i b hb
  case preheader_op =>
    intro t ht
    have hlt := hf.inst_lt hp.edge_preheader.1 (mem_body_of_terminator ht).1
    have hopt := ha.op_of_preheader hlt ht
    rw [(he.pruned t).eq_of_not_isPhi, hopt]
    rw [hopt, isPhi_retarget]
    exact Op.not_isPhi_of_isTerminator (mem_body_of_terminator ht).2
  case induction_op =>
    intro m hm'
    rw [hm] at hm'
    cases hm'
  case op_eq =>
    intro b hb i hi hterm _
    have hopi := ha.op_of_ne (hf.inst_lt (hmem.mp hb).1 hi) hterm
    rw [(he.pruned i).eq_of_keep fun inc hinc e hmem' => ?_, hopi]
    exact hkeep (hp.source_out hf (hmem.mp hb).1 (hmem.mp hb).2 hi (hopi.symm.trans hinc) hmem')
  case op_stays =>
    intro i hi
    rcases he.pruned i with heq | ⟨_, _, hphi, hphi', _⟩
    · rw [heq]
      refine (ha.op_stays hi).imp_right fun hterm => ?_
      simp [hterm.1, hterm.2.1]
    · rw [hphi']
      rcases ha.op_stays hi with heq | ⟨_, hterm, _⟩
      · rw [← heq, hphi]
        exact .inr ⟨rfl, rfl⟩
      · rw [hphi] at hterm
        cases hterm
  case operands_stay =>
    intro i hi v hv
    left
    have hv := (he.pruned i).operands_subset hv
    rcases ha.op_stays hi with heq | ⟨_, _, heq⟩
    · exact heq ▸ hv
    · exact heq ▸ hv
  case middle =>
    intro m hm'
    rw [hm] at hm'
    cases hm'
  case marked =>
    rw [he.vectorized_eq, ha.vectorized_eq]
    simp
  case still_marked =>
    intro b hb
    rw [he.vectorized_eq, ha.vectorized_eq, hb]
    simp
  case mem_new =>
    intro i hle hlt
    obtain ⟨b, hb, hmem⟩ := ha.mem_new i hle (he.size_eq ▸ hlt)
    exact ⟨b, VectorBlocks.mem_all_of_loop hb, (hbody b hb).symm ▸ hmem⟩
  case made =>
    refine ha.made.congr (fun i hi => (hcode i hi).op_eq) fun t ht => .inl ?_
    refine forall_mem_tys_of_same he.ret_eq he.params_eq he.constants_eq he.size_eq he.ty_eq
      (fun i t a hop => ?_) (fun _ ht => ht) t ht
    rcases he.pruned i with heq | ⟨_, _, _, heq, _⟩
    · exact heq ▸ hop
    · rw [heq] at hop
      cases hop
  case emission => exact ha.emission_of_stays hkeeps hcode

end Added

/-! ## Vectorizing -/

/-- Vectorizing prepares the preheader and puts the vector loop in. -/
theorem spliced_apply (hf : f.Framed) (hp : Shape f l p) (config : VectorConfig)
    (hins : Inserts p.loop.preheader f (emitEnd f p (Int64.ofNat config.width)).2)
    (hfit : ∀ s ∈ p.steps, Fits f s.1 s.2) :
    ∃ n, n.stop = (emitEnd f p (Int64.ofNat config.width)).1 ∧
      n.width = Int64.ofNat config.width ∧
      Spliced l p n (emitEnd f p (Int64.ofNat config.width)).2 (apply config f p) := by
  unfold apply
  dsimp only
  generalize emitEnd f p (Int64.ofNat config.width) = x at hins ⊢
  obtain ⟨stop, f₁⟩ := x
  dsimp only at hins ⊢
  have hf₁ := hins.framed hf
  have hp₁ := hp.inserts hins hf
  have hfit₁ (s : InstId × Lowering) (hs : s ∈ p.steps) : Fits f₁ s.1 s.2 := by
    obtain ⟨hlt, hphi, hterm, hsplats⟩ := hfit s hs
    rw [← hins.op_eq hlt] at hphi hterm hsplats
    exact ⟨Nat.lt_of_lt_of_le hlt hins.size_le, hphi, hterm, hsplats⟩
  obtain ⟨hk, hopens⟩ := addBlocks_eq f₁ p
  generalize addBlocks f₁ p = x at hk hopens ⊢
  obtain ⟨k, f₂⟩ := x
  dsimp only at hk hopens ⊢
  have hent := entered_retarget hp₁.counted.header_eq hopens
  generalize f₂.retarget p.loop.preheader p.loop.header k.header = f₃ at hent ⊢
  obtain ⟨iv, f₄, hfill⟩ : ∃ iv f₄, fillHeader f₃ p k stop = (iv, f₄) := ⟨_, _, rfl⟩
  rw [hfill]
  dsimp only
  have hblocks : ∀ b ∈ [k.header, k.body, k.latch], b < f₃.blocks.size ∧ f₃.body b = [] := by
    intro b hb
    have hall := VectorBlocks.mem_all_of_loop hb
    rw [hent.blocks_size_eq, hent.body_eq, body, block]
    rw [hk] at hall ⊢
    rw [Array.getElem?_eq_none (le_of_mem_freshBlocks hall)]
    exact ⟨lt_of_mem_freshBlocks hall, rfl⟩
  obtain ⟨n, h, rfl, rfl, rfl, hwidth, hfilled, heq⟩ := filled_of_fill (Int64.ofNat config.width)
    (fun s hs => (hent.fits (hfit₁ s hs)).1) hblocks
    (hk ▸ List.Nodup.of_append_left (nodup_freshBlocks f₁ p)) hfill
  rw [heq]
  have hlatch : p.loop.preheader ≠ n.blocks.latch := by
    intro hph
    obtain ⟨t, ht⟩ := hf₁.ends _ hp₁.edge_preheader.1
    have hlt := lt_blocks_size (mem_body_of_terminator ht).1
    rw [hph, hk] at hlt
    exact absurd hlt (Nat.not_lt.mpr (Nat.le_add_right _ _))
  have hadded := hfilled.added hent hfit₁ hk hlatch
  cases hm : n.blocks.middle with
  | some m => exact ⟨n, rfl, hwidth, hadded.keepEpilogue hf₁ hp₁ hm⟩
  | none => exact ⟨n, rfl, hwidth, hadded.erase hf₁ hp₁ hm⟩

end Vectorize

end LoopNest
