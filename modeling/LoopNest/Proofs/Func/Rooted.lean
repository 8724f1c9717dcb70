import LoopNest.Proofs.Func.Insert
import LoopNest.Proofs.Func.Erase

/-!
# Functions that keep their entry

A pass may leave a function that the verifier refuses, but it never loses the entry.  Two facts
carry this through every edit: each block of the layout ends in a terminator, and no terminator
leads to the entry.  `Func.Rooted` states both, apart from *pending* blocks, which have been added
to the layout and wait for their terminators.  It also fixes the interface, which no edit touches.

There is one lemma for each edit that passes use.  A pass as a whole keeps the root of whatever
function it is given (`Func.KeepsRoot`), and leaves a block to a function that has one.
-/

namespace LoopNest

namespace Func

/-- The same name, parameters and result type. -/
structure SameInterface (f g : Func) : Prop where
  name_eq : g.name = f.name
  params_eq : g.params = f.params
  ret_eq : g.ret = f.ret

theorem SameInterface.refl (f : Func) : f.SameInterface f := ⟨rfl, rfl, rfl⟩

theorem SameInterface.trans {f g h : Func} (hfg : f.SameInterface g) (hgh : g.SameInterface h) :
    f.SameInterface h :=
  ⟨hgh.name_eq.trans hfg.name_eq, hgh.params_eq.trans hfg.params_eq, hgh.ret_eq.trans hfg.ret_eq⟩

theorem SameOutline.sameInterface {f g : Func} (h : f.SameOutline g) : f.SameInterface g :=
  ⟨h.name_eq, h.params_eq, h.ret_eq⟩

/-- The function `g` has the interface of `base` and the entry `e`, and every block but the pending
ones ends in a terminator that does not lead to `e`. -/
structure Rooted (base : Func) (e : BlockId) (pending : BlockId → Prop) (g : Func) : Prop where
  interface : base.SameInterface g
  entry_eq : g.entry? = some e
  entry_lt : e < g.blocks.size
  ends : ∀ b ∈ g.layout, ¬ pending b → ∃ t, g.terminator? b = some t ∧ e ∉ (g.op t).targets

/-- The place of a number without an instruction is taken by a stack slot, so terminators exist. -/
theorem lt_of_isTerminator {f : Func} {t : InstId} (h : (f.op t).isTerminator = true) :
    t < f.insts.size := by
  by_contra hlt
  simp [op, inst, Array.getElem?_eq_none (Nat.le_of_not_lt hlt), Op.isTerminator] at h

theorem WellFormed.rooted {f : Func} (hf : f.WellFormed) {e : BlockId} (he : f.entry? = some e) :
    Rooted f e (fun _ => False) f where
  interface := .refl f
  entry_eq := he
  entry_lt := by
    obtain ⟨t, ht⟩ := hf.ends e (List.mem_of_head? he)
    exact lt_blocks_size (mem_body_of_terminator ht).1
  ends b hb _ := by
    obtain ⟨t, ht⟩ := hf.ends b hb
    refine ⟨t, ht, fun htarget => ?_⟩
    have hpred : b ∈ f.predecessors e :=
      (f.mem_predecessors b e).mpr ⟨hb, (mem_successors_iff ht).mpr htarget⟩
    rw [hf.entry_predecessors e he] at hpred
    exact absurd hpred List.not_mem_nil

/-- A live block stays live when live blocks are moved. -/
theorem mem_layout_moveBlockBefore_of_mem {g : Func} {b before c : BlockId} (hb : b ∈ g.layout)
    (hc : c ∈ g.layout) : c ∈ (g.moveBlockBefore b before).layout := by
  by_cases hlive : before ∈ g.layout
  · exact (mem_layout_moveBlockBefore g hb hlive).mpr hc
  · unfold Func.moveBlockBefore
    rwa [if_pos (.inr (by simpa [isLiveBlock] using hlive))]

namespace Rooted

variable {base g h : Func} {e b : BlockId} {pending : BlockId → Prop}

theorem mono {pending' : BlockId → Prop} (hg : Rooted base e pending g)
    (hp : ∀ c ∈ g.layout, pending c → pending' c) : Rooted base e pending' g where
  interface := hg.interface
  entry_eq := hg.entry_eq
  entry_lt := hg.entry_lt
  ends c hc hn := hg.ends c hc fun hpc => hn (hp c hc hpc)

theorem predecessors_entry (hg : Rooted base e (fun _ => False) g) : g.predecessors e = [] := by
  refine List.eq_nil_iff_forall_not_mem.mpr fun b hb => ?_
  obtain ⟨hlive, hs⟩ := (g.mem_predecessors b e).mp hb
  obtain ⟨t, ht, hnot⟩ := hg.ends b hlive not_false
  exact hnot ((mem_successors_iff ht).mp hs)

/-- A block that another one leads to is not the entry. -/
theorem ne_entry (hg : Rooted base e (fun _ => False) g) {c : BlockId} (hb : b ∈ g.layout)
    (hc : c ∈ g.successors b) : c ≠ e := by
  rintro rfl
  have hpred : b ∈ g.predecessors c := (g.mem_predecessors b c).mpr ⟨hb, hc⟩
  rw [hg.predecessors_entry] at hpred
  exact absurd hpred List.not_mem_nil

/-- It is enough that the blocks keep their terminators, and these lead to no more blocks. -/
theorem of_terminators (hg : Rooted base e pending g) (hi : g.SameInterface h)
    (hentry : h.entry? = g.entry?) (hsize : g.blocks.size ≤ h.blocks.size)
    (hlayout : ∀ c ∈ h.layout, ¬ pending c → c ∈ g.layout)
    (hterm : ∀ c ∈ h.layout, ¬ pending c → ∀ t, g.terminator? c = some t →
      e ∉ (g.op t).targets → h.terminator? c = some t ∧ e ∉ (h.op t).targets) :
    Rooted base e pending h where
  interface := hg.interface.trans hi
  entry_eq := hentry.trans hg.entry_eq
  entry_lt := Nat.lt_of_lt_of_le hg.entry_lt hsize
  ends c hc hn := by
    obtain ⟨t, ht, hnot⟩ := hg.ends c (hlayout c hc hn) hn
    exact ⟨t, hterm c hc hn t ht hnot⟩

/-! ## Operations -/

theorem modifyOp (hg : Rooted base e pending g) (i : InstId) {k : Op → Op}
    (hterm : ∀ o, (k o).isTerminator = o.isTerminator)
    (htargets : ∀ o, e ∉ o.targets → e ∉ (k o).targets) :
    Rooted base e pending (g.modifyOp i k) := by
  refine hg.of_terminators ⟨rfl, rfl, rfl⟩ rfl (by simp) (fun c hc _ => by simpa using hc)
    fun c _ _ t ht hnot => ?_
  obtain ⟨hbody, hop⟩ := terminator?_eq_some.mp ht
  rcases g.op_modifyOp_cases i t k with heq | heq
  · refine ⟨terminator?_eq_some.mpr ⟨by simpa [body, block] using hbody, ?_⟩, ?_⟩
    · rw [heq, hterm, hop]
    · rw [heq]
      exact htargets _ hnot
  · refine ⟨terminator?_eq_some.mpr ⟨by simpa [body, block] using hbody, ?_⟩, ?_⟩
    · rw [heq, hop]
    · rw [heq]
      exact hnot

theorem modifyOps {k : Op → Op} (hterm : ∀ o, (k o).isTerminator = o.isTerminator)
    (htargets : ∀ o, e ∉ o.targets → e ∉ (k o).targets) :
    ∀ (is : List InstId) {g : Func}, Rooted base e pending g →
      Rooted base e pending (g.modifyOps is k)
  | [], _, hg => hg
  | i :: is, _, hg => modifyOps hterm htargets is (hg.modifyOp i hterm htargets)

theorem retarget (hg : Rooted base e pending g) (b source : BlockId) {target : BlockId}
    (ht : target ≠ e) : Rooted base e pending (g.retarget b source target) := by
  unfold Func.retarget
  split
  · refine hg.modifyOp _ (isTerminator_retarget source target) fun o hnot => ?_
    cases o with
    | br t =>
      simp only [Op.retarget, Op.targets, List.mem_singleton] at hnot ⊢
      split
      · exact Ne.symm ht
      · exact hnot
    | condBr c t u =>
      simp only [Op.retarget, Op.targets, List.mem_cons, List.not_mem_nil, or_false,
        not_or] at hnot ⊢
      refine ⟨?_, ?_⟩
      · split
        · exact Ne.symm ht
        · exact hnot.1
      · split
        · exact Ne.symm ht
        · exact hnot.2
    | _ => exact hnot
  · exact hg

theorem renamePredecessor (hg : Rooted base e pending g) (b old new : BlockId) :
    Rooted base e pending (g.renamePredecessor b old new) := by
  refine modifyOps (isTerminator_renameIncoming old new) (fun o hnot => ?_) _ hg
  cases o <;> exact hnot

theorem setIncoming (hg : Rooted base e pending g) (phi : InstId) (pred : BlockId) (v : Operand) :
    Rooted base e pending (g.setIncoming phi pred v) := by
  refine hg.modifyOp phi (fun o => ?_) (fun o hnot => ?_)
  · cases o <;> rfl
  · cases o <;> exact hnot

theorem replaceUses (hg : Rooted base e pending g) (old new : Operand) :
    Rooted base e pending (g.replaceUses old new) :=
  modifyOps (isTerminator_mapOperands _) (fun o hnot => by rwa [Op.targets_mapOperands]) _ hg

/-! ## Instructions -/

/-- A new instruction goes before the terminator, or into a pending block. -/
theorem insertInst (hg : Rooted base e pending g) {pos : Nat} (d : Draft)
    (hpos : b ∈ g.layout → ¬ pending b → ∀ t, g.terminator? b = some t →
      pos < (g.body b).length) :
    Rooted base e pending (g.insertInst b pos d).2 := by
  refine hg.of_terminators (g.sameOutline_insertInst b pos d).sameInterface rfl (by simp)
    (fun c hc _ => by simpa using hc) fun c hc hn t ht hnot => ?_
  obtain ⟨⟨front, hbody⟩, hop⟩ := terminator?_eq_some.mp ht
  have hne : t ≠ g.insts.size := Nat.ne_of_lt (lt_of_isTerminator hop)
  have hop' : (g.insertInst b pos d).2.op t = g.op t := by
    rw [ op, inst_insertInst, if_neg hne, op]
  refine ⟨terminator?_eq_some.mpr ⟨?_, hop' ▸ hop⟩, hop' ▸ hnot⟩
  have hlt : c < g.blocks.size := lt_blocks_size (mem_body_of_terminator ht).1
  by_cases hcb : c = b
  · subst hcb
    have hlen := hpos (by simpa using hc) hn t ht
    rw [hbody, List.length_append, List.length_singleton] at hlen
    refine ⟨front.take pos ++ g.insts.size :: front.drop pos, ?_⟩
    rw [body_insertInst g pos d hlt, if_pos rfl, hbody, List.take_append_of_le_length (by omega),
      List.drop_append_of_le_length (by omega), List.append_assoc, List.cons_append]
  · refine ⟨front, ?_⟩
    by_cases hb : b < g.blocks.size
    · rw [body_insertInst g pos d hb, if_neg hcb, hbody]
    · rw [← hbody]
      simp only [Func.insertInst, body_modifyBlock]
      rw [if_neg fun hand => hcb hand.1.symm]
      rfl

theorem insertBeforeTerminator (hg : Rooted base e pending g) (b : BlockId) (d : Draft) :
    Rooted base e pending (g.insertBeforeTerminator b d).2 := by
  refine hg.insertInst d fun _ _ t ht => ?_
  have hpos : 0 < (g.body b).length := List.length_pos_of_mem (mem_body_of_terminator ht).1
  rw [ht]
  simp only [Option.isSome_some, if_true]
  omega

theorem addConstant (hg : Rooted base e pending g) (ty : TyId) (l : Literal) :
    Rooted base e pending (g.addConstant ty l).2 :=
  hg.of_terminators ⟨rfl, rfl, rfl⟩ rfl (Nat.le_refl _) (fun _ hc _ => hc)
    fun _ _ _ _ ht hnot => ⟨ht, hnot⟩

/-- A pending block gets its code and its terminator. -/
theorem fill (hg : Rooted base e pending g) (code : List InstId) {t : InstId}
    (happ : Appends b (code ++ [t]) g h) (hname : h.name = g.name)
    (hterm : (h.op t).isTerminator = true) (hnot : e ∉ (h.op t).targets) :
    Rooted base e (fun c => pending c ∧ c ≠ b) h where
  interface := hg.interface.trans ⟨hname, happ.params_eq, happ.ret_eq⟩
  entry_eq := (congrArg List.head? happ.layout_eq).trans hg.entry_eq
  entry_lt := by
    rw [happ.blocks_size_eq]
    exact hg.entry_lt
  ends c hc hn := by
    by_cases hcb : c = b
    · subst hcb
      refine ⟨t, terminator?_eq_some.mpr ⟨⟨g.body c ++ code, ?_⟩, hterm⟩, hnot⟩
      rw [happ.body_eq, if_pos rfl, List.append_assoc]
    · obtain ⟨u, hu, hnotu⟩ := hg.ends c (happ.layout_eq ▸ hc) fun hp => hn ⟨hp, hcb⟩
      obtain ⟨hbody, hop⟩ := terminator?_eq_some.mp hu
      have hopu : h.op u = g.op u := happ.op_eq (lt_of_isTerminator hop)
      refine ⟨u, terminator?_eq_some.mpr ⟨?_, hopu ▸ hop⟩, hopu ▸ hnotu⟩
      rwa [happ.body_eq, if_neg hcb]

/-- An instruction that is no terminator is erased. -/
theorem eraseInst (hg : Rooted base e pending g) {i : InstId}
    (hi : (g.op i).isTerminator = false) : Rooted base e pending (g.eraseInst i) := by
  cases hown : g.owner i with
  | none =>
    unfold Func.eraseInst
    rwa [hown]
  | some b =>
    have hblocks : g.blocks.size ≤ (g.eraseInst i).blocks.size := by
      simp [Func.eraseInst, hown, modifyBlock, modifyInst]
    refine hg.of_terminators (g.sameOutline_eraseInst i).sameInterface
      (congrArg List.head? (g.sameOutline_eraseInst i).layout_eq) hblocks
      (fun c hc _ => (g.sameOutline_eraseInst i).layout_eq ▸ hc) fun c _ _ t ht hnot => ?_
    obtain ⟨⟨front, hbody⟩, hop⟩ := terminator?_eq_some.mp ht
    have hne : t ≠ i := by
      rintro rfl
      rw [hop] at hi
      cases hi
    have hop' := g.op_eraseInst i t
    refine ⟨terminator?_eq_some.mpr ⟨?_, hop' ▸ hop⟩, hop' ▸ hnot⟩
    rw [body_eraseInst g hown]
    split
    · refine ⟨front.filter (· ≠ i), ?_⟩
      rw [hbody, List.filter_append, List.filter_singleton]
      simp [hne]
    · exact ⟨front, hbody⟩

/-! ## Blocks -/

theorem modifyBlock (hg : Rooted base e pending g) (b : BlockId) {k : Block → Block}
    (hk : ∀ x, (k x).insts = x.insts) : Rooted base e pending (g.modifyBlock b k) := by
  have hbody : ∀ c, (g.modifyBlock b k).body c = g.body c := fun c => by
    rw [body_modifyBlock]
    split
    · exact hk _
    · rfl
  refine hg.of_terminators ⟨rfl, rfl, rfl⟩ rfl (by simp [Func.modifyBlock])
    (fun _ hc _ => hc) fun c _ _ t ht hnot => ⟨?_, hnot⟩
  obtain ⟨hlast, hop⟩ := terminator?_eq_some.mp ht
  exact terminator?_eq_some.mpr ⟨hbody c ▸ hlast, hop⟩

/-- New blocks are pending. -/
theorem opens (hg : Rooted base e (fun _ => False) g) {before : BlockId} {bs : List BlockId}
    (ho : Opens before bs g h) (hname : h.name = g.name) (hne : before ≠ e) :
    Rooted base e (· ∈ bs) h where
  interface := hg.interface.trans ⟨hname, ho.params_eq, ho.ret_eq⟩
  entry_eq := ho.entry_eq e hg.entry_eq hne
  entry_lt := by
    rw [ho.size_eq]
    exact Nat.lt_add_right _ hg.entry_lt
  ends c hc hn := by
    obtain ⟨t, ht, hnot⟩ := hg.ends c (((ho.mem_layout c).mp hc).resolve_left hn) not_false
    have hop : h.op t = g.op t := by rw [ op, inst, ho.insts_eq, op, inst]
    obtain ⟨hbody, hterm⟩ := terminator?_eq_some.mp ht
    exact ⟨t, terminator?_eq_some.mpr ⟨ho.body_eq c ▸ hbody, hop ▸ hterm⟩, hop ▸ hnot⟩

theorem moveBlockBefore (hg : Rooted base e pending g) {before : BlockId} (hb : b ∈ g.layout)
    (hne : b ≠ e) (hbefore : before ≠ e) : Rooted base e pending (g.moveBlockBefore b before) := by
  have hrel := g.relinked_moveBlockBefore b before
  have hname : (g.moveBlockBefore b before).name = g.name := by
    unfold Func.moveBlockBefore
    split
    · rfl
    · dsimp only
      split <;> rfl
  refine hg.of_terminators ⟨hname, hrel.params_eq, hrel.ret_eq⟩
    ((head?_layout_moveBlockBefore g hg.entry_eq hne hbefore).trans hg.entry_eq.symm)
    (by rw [hrel.blocks_eq]) (fun c hc _ => ?_) fun c _ _ t ht hnot => ?_
  · by_cases hlive : before ∈ g.layout
    · exact (mem_layout_moveBlockBefore g hb hlive).mp hc
    · unfold Func.moveBlockBefore at hc
      rwa [if_pos (.inr (by simpa [isLiveBlock] using hlive))] at hc
  · rw [hrel.terminator?_eq, op_moveBlockBefore]
    exact ⟨ht, hnot⟩

theorem eraseBlock (hg : Rooted base e pending g) (hne : b ≠ e) :
    Rooted base e pending (g.eraseBlock b) := by
  have her := erased_eraseBlock g b
  have hentry : Func.entry? (g.eraseBlock b) = some e :=
    (erasedAll_foldl [b] g).entry_eq e hg.entry_eq fun hmem => hne (List.mem_singleton.mp hmem).symm
  refine hg.of_terminators ⟨her.name_eq, her.params_eq, her.ret_eq⟩
    (hentry.trans hg.entry_eq.symm) (Nat.le_of_eq her.blocks_size_eq.symm) (fun c hc _ => ?_)
    fun c hc _ t ht hnot => ?_
  · rw [her.layout_eq] at hc
    exact (List.mem_filter.mp hc).1
  · rw [her.layout_eq, List.mem_filter, decide_eq_true_eq] at hc
    obtain ⟨hbody, hop⟩ := terminator?_eq_some.mp ht
    have hop' : (g.eraseBlock b).op t = g.op t :=
      (her.pruned (· ≠ b) (fun h => h rfl) t).eq_of_not_isPhi (Op.not_isPhi_of_isTerminator hop)
    rw [hop']
    exact ⟨terminator?_eq_some.mpr ⟨by rwa [her.body_eq c hc.2], hop' ▸ hop⟩, hnot⟩

end Rooted

/-- Whatever function `f` is, its successor `g` has a body if `f` has one, and it is rooted like
`f` if `f` is rooted. -/
structure KeepsRoot (f g : Func) : Prop where
  layout_ne : f.layout ≠ [] → g.layout ≠ []
  rooted : ∀ base e, Rooted base e (fun _ => False) f → Rooted base e (fun _ => False) g

theorem KeepsRoot.refl (f : Func) : f.KeepsRoot f := ⟨id, fun _ _ => id⟩

theorem KeepsRoot.trans {f g h : Func} (hfg : f.KeepsRoot g) (hgh : g.KeepsRoot h) :
    f.KeepsRoot h :=
  ⟨fun hf => hgh.layout_ne (hfg.layout_ne hf), fun base e hf => hgh.rooted base e
    (hfg.rooted base e hf)⟩

end Func

end LoopNest
