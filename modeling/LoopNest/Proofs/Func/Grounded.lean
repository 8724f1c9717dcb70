import LoopNest.Proofs.Func.Insert
import LoopNest.Proofs.Func.Known
import LoopNest.Proofs.Loop.Counted
import LoopNest.Proofs.Loop.Searched

/-!
# Values that searches can start from

Two searches of the passes go from a value to the operands it is computed from: the way from a
pointer to its root, and the search for a stride.  Both end at phis.  A value is `Func.Grounded` if
every such way ends, and then both searches end (`Grounded.isLost_eq_false`, `Grounded.searched`).
Code that is added, and other phis and terminators, do not change that (`Grounded.grown`).

In a function that the verifier accepts and that lists what it uses, `Func.Present` is a set of
known operands (`WellFormed.closed_present`).  They are grounded where all blocks are reachable
(`WellFormed.grounded`).

A loop is `Func.Anchored` if the passes find all that they look at while they decide about it.  Then
nothing gets stuck: not the reading as a counted loop, not the question for the trip count, not the
searches.
-/

namespace LoopNest

namespace Func

variable {f g : Func} {known : Operand → Prop} {v : Operand} {b : BlockId} {i : InstId} {n : Nat}

/-- Every way from a value to what it is computed from ends, at the latest at a phi, and all that it
comes to exists. -/
inductive Grounded (f : Func) : Operand → Prop where
  | param (k : Nat) : Grounded f (.param k)
  | const {c : ConstId} : c < f.constants.size → Grounded f (.const c)
  | inst {i : InstId} : i < f.insts.size → ((f.op i).isPhi = false →
      (f.op i).isTerminator = false → ∀ v ∈ (f.op i).operands, Grounded f v) → Grounded f (.inst i)

/-- What a grounded instruction uses is grounded, if it is no phi and no terminator. -/
theorem Grounded.operand (h : f.Grounded (.inst i)) (hphi : (f.op i).isPhi = false)
    (hterm : (f.op i).isTerminator = false) (hv : v ∈ (f.op i).operands) : f.Grounded v := by
  cases h with
  | inst _ hops => exact hops hphi hterm v hv

/-- What is known stays grounded. -/
theorem Grounded.grown (hv : f.Grounded v) (h : f.Grown g) (hf : f.Closed known) (hk : known v) :
    g.Grounded v := by
  induction hv with
  | param k => exact .param k
  | const hlt =>
    have hx := h.constant_eq _ _ (Array.getElem?_eq_getElem hlt)
    exact .const (Array.getElem?_eq_some_iff.mp hx).1
  | @inst i hlt _ ih =>
    refine .inst (Nat.lt_of_lt_of_le hlt h.size_le) fun hphi hterm v hv => ?_
    rcases h.op_stays i hlt with heq | ⟨_, hcontrol⟩
    · rw [heq] at hphi hterm hv
      exact ih hphi hterm v hv (hf.operands i hk hphi hterm v hv)
    · rw [hphi, hterm] at hcontrol
      cases hcontrol

/-! ## Searches that end -/

/-- A way that ends within some fuel ends with more fuel too. -/
theorem lostWithin_mono : ∀ {n : Nat} {v : Operand} {m : Nat}, n ≤ m → f.lostWithin n v = false →
    f.lostWithin m v = false
  | _, .param _, m, _, _ => by cases m <;> rfl
  | _, .const _, m, _, _ => by cases m <;> rfl
  | 0, .inst _, _, _, hn => by cases hn
  | n + 1, .inst i, m, hle, hn => by
    obtain ⟨m, rfl⟩ : ∃ k, m = k + 1 := ⟨m - 1, by omega⟩
    have hle := Nat.le_of_succ_le_succ hle
    rw [lostWithin] at hn ⊢
    split at hn
    · cases hn
    · rw [if_neg ‹_›]
      cases hop : f.op i with
      | bitcast w =>
        rw [hop] at hn
        exact lostWithin_mono hle hn
      | gep w x =>
        rw [hop] at hn
        exact lostWithin_mono hle hn
      | _ => rfl

/-- A way that ends is no longer than the list of instructions. -/
theorem isLost_eq_false_of (h : f.lostWithin n v = false) : f.isLost v = false := by
  have hstable {n : Nat} (hle : f.insts.size ≤ n) :
      (fun i => f.lostWithin n (.inst i)) = fun i => f.lostWithin f.insts.size (.inst i) := by
    refine fuel_enough (s := fun n i => f.lostWithin n (.inst i)) true (fun n i hne => ?_)
      (fun n i hi => ?_) (fun n heq => ?_) hle
    · have hn : f.lostWithin n (.inst i) = false := by simpa using hne
      exact (lostWithin_mono (Nat.le_succ n) hn).trans hn.symm
    · cases n <;> simp [lostWithin, hi]
    · have hall (v : Operand) : f.lostWithin (n + 1) v = f.lostWithin n v := by
        cases v with
        | inst i => exact congrFun heq i
        | _ => cases n <;> rfl
      funext i
      rw [lostWithin, lostWithin]
      simp only [hall]
  cases v with
  | inst i =>
    have hmax := lostWithin_mono (Nat.le_max_left n f.insts.size) h
    have heq := (congrFun (hstable (Nat.le_max_right n f.insts.size)) i).symm.trans hmax
    exact (congrFun (hstable (Nat.le_succ _)) i).trans heq
  | _ => rfl

/-- The way from a grounded pointer to its root ends. -/
theorem Grounded.isLost_eq_false (hv : f.Grounded v) : f.isLost v = false := by
  obtain ⟨n, hn⟩ : ∃ n, f.lostWithin n v = false := by
    induction hv with
    | param k => exact ⟨0, rfl⟩
    | const _ => exact ⟨0, rfl⟩
    | @inst i hlt _ ih =>
      have hlt := Nat.not_le.mpr hlt
      cases hop : f.op i with
      | bitcast v =>
        rw [hop] at ih
        obtain ⟨n, hn⟩ := ih rfl rfl v (by simp [Op.operands])
        exact ⟨n + 1, by simp only [lostWithin, if_neg hlt, hop, hn]⟩
      | gep v x =>
        rw [hop] at ih
        obtain ⟨n, hn⟩ := ih rfl rfl v (by simp [Op.operands])
        exact ⟨n + 1, by simp only [lostWithin, if_neg hlt, hop, hn]⟩
      | _ => exact ⟨1, by simp only [lostWithin, if_neg hlt, hop]⟩
  exact isLost_eq_false_of hn

theorem Exists.lacksInst_eq_false (hv : f.Exists v) : f.lacksInst v = false := by
  cases v with
  | inst i => exact decide_eq_false (Nat.not_le.mpr hv.lt)
  | _ => rfl

theorem Exists.lacksConst_eq_false (hv : f.Exists v) : f.lacksConst v = false := by
  cases v with
  | const c => exact decide_eq_false (Nat.not_le.mpr hv.const_lt)
  | _ => rfl

theorem Grounded.lacksInst_eq_false (hv : f.Grounded v) : f.lacksInst v = false := by
  cases hv with
  | inst hlt _ => exact decide_eq_false (Nat.not_le.mpr hlt)
  | _ => rfl

theorem Grounded.lacksConst_eq_false (hv : f.Grounded v) : f.lacksConst v = false := by
  cases hv with
  | const hlt => exact decide_eq_false (Nat.not_le.mpr hlt)
  | _ => rfl

/-- The search for the stride of a grounded value ends. -/
theorem Grounded.searched (hv : f.Grounded v) (l : NaturalLoop) (dom : DomTree) (iv : Operand) :
    ∃ r, l.Searched f dom iv v r := by
  refine NaturalLoop.exists_searched_of_operand fun j hj => ?_
  subst hj
  generalize hw : Operand.inst j = w at hv
  induction hv generalizing j with
  | param k => cases hw
  | const _ => cases hw
  | inst hlt hops ih =>
    cases hw
    exact NaturalLoop.exists_searched hlt fun hphi hterm v hv =>
      ⟨(hops hphi hterm v hv).lacksConst_eq_false, fun k hk => hk ▸ ih hphi hterm v hv k hk.symm⟩

/-! ## Present values -/

/-- An operand that refers to something, and that is listed if it is an instruction. -/
def Present (f : Func) (v : Operand) : Prop :=
  f.Exists v ∧ ∀ i, v = .inst i → ∃ b ∈ f.layout, i ∈ f.body b

section

variable (hf : f.WellFormed)

include hf

theorem WellFormed.present_inst (hb : b ∈ f.layout) (hi : i ∈ f.body b) : f.Present (.inst i) :=
  ⟨⟨_, operandTy_inst (hf.inst_lt hb hi)⟩, fun _ heq => ⟨b, hb, Operand.inst.inj heq ▸ hi⟩⟩

variable (hu : f.UsesListed)

include hu

theorem WellFormed.present_operand (hb : b ∈ f.layout) (hi : i ∈ f.body b)
    (hv : v ∈ (f.op i).operands) : f.Present v := by
  have hexists := hf.operand_exists b hb i hi v hv
  refine ⟨operandTy_of_exists hexists, fun j heq => ?_⟩
  subst heq
  obtain ⟨d, hd⟩ : ∃ d, f.owner j = some d := by
    simp only [Verify.operandExists, Bool.and_eq_true, isLiveInst] at hexists
    cases hown : f.owner j with
    | none => simp [hown] at hexists
    | some d => exact ⟨d, rfl⟩
  exact ⟨d, live_of_operandExists hexists hd, usesListed_iff.mp hu b hb i hi j hv d hd⟩

/-- So does what a phi takes. -/
theorem WellFormed.present_incoming (hb : b ∈ f.layout) (hi : i ∈ f.phis b) {q : BlockId}
    (hv : f.incoming? i q = some v) : f.Present v := by
  obtain ⟨incoming, hop, hmem⟩ := mem_of_incoming? hv
  refine hf.present_operand hu hb (mem_body_of_phis hi) ?_
  rw [hop]
  exact List.mem_map.mpr ⟨_, hmem, rfl⟩

theorem WellFormed.closed_present : f.Closed f.Present where
  exists_of _ hv := hv.1
  operands i hi _ _ v hv := by
    obtain ⟨b, hb, hmem⟩ := hi.2 i rfl
    exact hf.present_operand hu hb hmem hv
  owners i hi b hb := by
    obtain ⟨d, hd, hmem⟩ := hi.2 i rfl
    rw [hf.owner_eq d hd i hmem] at hb
    cases hb
    exact lt_blocks_size hmem

/-- What a reachable block lists is grounded. -/
theorem WellFormed.grounded_inst (hr : (FlowGraph.ofFunc f).Reachable b) (hi : i ∈ f.body b) :
    f.Grounded (.inst i) := by
  refine hf.use_induction (motive := fun i => f.Grounded (.inst i)) hu (fun b hb i hi ih => ?_) hr hi
  refine .inst (hf.inst_lt hb hi) fun hphi _ v hv => ?_
  cases v with
  | inst j => exact ih hphi j hv
  | param k => exact .param k
  | const c => exact .const (hf.present_operand hu hb hi hv).1.const_lt

/-- So is what another instruction of it than a phi uses. -/
theorem WellFormed.grounded_use (hr : (FlowGraph.ofFunc f).Reachable b) (hi : i ∈ f.body b)
    (hphi : (f.op i).isPhi = false) (hv : v ∈ (f.op i).operands) : f.Grounded v := by
  have hb : b ∈ f.layout := by
    have := hr.live
    rwa [FlowGraph.blocks_ofFunc] at this
  cases v with
  | param k => exact .param k
  | const c => exact .const (hf.present_operand hu hb hi hv).1.const_lt
  | inst j =>
    obtain ⟨d, hd, hdom, _⟩ := hf.use_dominated b hb hr i hi hphi j hv
    have hrd : (FlowGraph.ofFunc f).Reachable d := by
      by_cases hdb : d = b
      · exact hdb ▸ hr
      · exact (hdom hdb).reachable hr
    exact hf.grounded_inst hu hrd (hu j (mem_usedInsts hb hi hv) d hd)

/-- So is what a phi takes from a reachable block. -/
theorem WellFormed.grounded_incoming (hb : b ∈ f.layout) (hi : i ∈ f.phis b) {q : BlockId}
    (hq : (FlowGraph.ofFunc f).Reachable q) (hv : f.incoming? i q = some v) : f.Grounded v := by
  have hpresent := hf.present_incoming hu hb hi hv
  cases v with
  | param k => exact .param k
  | const c => exact .const hpresent.1.const_lt
  | inst j =>
    obtain ⟨incoming, hop, hmem⟩ := mem_of_incoming? hv
    obtain ⟨d, hd, hjd⟩ := hpresent.2 j rfl
    have hdom := hf.phi_dominated b hb i (mem_body_of_phis hi) incoming hop j q hmem d
      (hf.owner_eq d hd j hjd)
    exact hf.grounded_inst hu (hdom.reachable hq) hjd

/-- Where all blocks are reachable, the present values are grounded. -/
theorem WellFormed.grounded (hr : ∀ b ∈ f.layout, (FlowGraph.ofFunc f).Reachable b)
    (hv : f.Present v) : f.Grounded v := by
  cases v with
  | param k => exact .param k
  | const c => exact .const hv.1.const_lt
  | inst i =>
    obtain ⟨b, hb, hi⟩ := hv.2 i rfl
    exact hf.grounded_inst hu (hr b hb) hi

end

/-! ## Loops -/

/-- What the passes look at while they decide about a loop: what its code uses and what the phis of
its header take from the latches is grounded, and what they take from the preheader exists. -/
structure Anchored (f : Func) (l : NaturalLoop) : Prop where
  inst_lt : ∀ b ∈ l.blocks, ∀ i ∈ f.body b, i < f.insts.size
  used : ∀ b ∈ l.blocks, ∀ i ∈ f.body b, (f.op i).isPhi = false → ∀ v ∈ (f.op i).operands,
    f.Grounded v
  taken : ∀ i ∈ f.phis l.header, ∀ q, l.preheader? f (.ofFunc f) = some q →
    ∀ v, f.incoming? i q = some v → f.Exists v
  fed : ∀ i ∈ f.phis l.header, ∀ q ∈ l.latches, ∀ v, f.incoming? i q = some v → f.Grounded v

/-- Instructions use what exists, and phis apart, what is built before them.  Blocks list what
exists. -/
structure Sequenced (f : Func) : Prop where
  inst_lt : ∀ b ∈ f.layout, ∀ i ∈ f.body b, i < f.insts.size
  uses : ∀ i < f.insts.size, ∀ v ∈ (f.op i).operands, (f.operandTy v).isOk = true ∧
    ((f.op i).isPhi = false → ∀ j ∈ v.inst?, j < i)

instance (f : Func) : Decidable f.Sequenced :=
  decidable_of_iff (_ ∧ _) ⟨fun h => ⟨h.1, h.2⟩, fun h => ⟨h.inst_lt, h.uses⟩⟩

namespace Sequenced

variable (h : f.Sequenced)
include h

theorem exists_of_use (hi : i < f.insts.size) (hv : v ∈ (f.op i).operands) : f.Exists v := by
  have hok := (h.uses i hi v hv).1
  unfold Exists
  cases hty : f.operandTy v with
  | ok t => exact ⟨t, rfl⟩
  | error e =>
    rw [hty] at hok
    cases hok

/-- Induction on the order in which instructions are built. -/
theorem grounded_inst (hi : i < f.insts.size) : f.Grounded (.inst i) := by
  induction i using Nat.strong_induction_on with
  | _ i ih =>
    refine .inst hi fun hphi _ v hv => ?_
    cases v with
    | inst j =>
      have hj := (h.uses i hi _ hv).2 hphi j rfl
      exact ih j hj (Nat.lt_trans hj hi)
    | param k => exact .param k
    | const c => exact .const (h.exists_of_use hi hv).const_lt

theorem grounded (hv : f.Exists v) : f.Grounded v := by
  cases v with
  | inst i => exact h.grounded_inst hv.lt
  | param k => exact .param k
  | const c => exact .const hv.const_lt

theorem anchored {l : NaturalLoop} (hl : IsLoop (.ofFunc f) l) : f.Anchored l := by
  have hlt : ∀ b ∈ l.blocks, ∀ i ∈ f.body b, i < f.insts.size := fun b hb =>
    h.inst_lt b (CountedLoop.live_of_mem hl hb)
  have htaken : ∀ i ∈ f.phis l.header, ∀ q v, f.incoming? i q = some v → f.Exists v := by
    intro i hi q v hv
    obtain ⟨incoming, hop, hmem⟩ := mem_of_incoming? hv
    refine h.exists_of_use (hlt l.header hl.header_mem i (mem_body_of_phis hi)) ?_
    rw [hop]
    exact List.mem_map.mpr ⟨_, hmem, rfl⟩
  exact {
    inst_lt := hlt
    used := fun b hb i hi _ v hv => h.grounded (h.exists_of_use (hlt b hb i hi) hv)
    taken := fun i hi q _ v hv => htaken i hi q v hv
    fed := fun i hi q _ v hv => h.grounded (htaken i hi q v hv) }

end Sequenced

/-- In a function that the verifier accepts and that lists what it uses, loops are anchored. -/
theorem WellFormed.anchored (hf : f.WellFormed) (hu : f.UsesListed) {l : NaturalLoop}
    (hl : IsLoop (.ofFunc f) l) : f.Anchored l where
  inst_lt _ hb _ hi := hf.inst_lt (CountedLoop.live_of_mem hl hb) hi
  used _ hb _ hi hphi _ hv := hf.grounded_use hu (hl.reachable_mem hb) hi hphi hv
  taken _ hi _ _ _ hv :=
    (hf.present_incoming hu (CountedLoop.live_of_mem hl hl.header_mem) hi hv).1
  fed _ hi _ hq _ hv := hf.grounded_incoming hu (CountedLoop.live_of_mem hl hl.header_mem) hi
    (hl.reachable_mem (hl.latch_mem hq)) hv

namespace Anchored

variable {l : NaturalLoop} {dom : DomTree}

/-- The ways from its pointers end. -/
theorem anyLost_eq_false (h : f.Anchored l) {bs : List BlockId} (hbs : ∀ b ∈ bs, b ∈ l.blocks) :
    MemAccess.anyLost f bs = false := by
  rw [MemAccess.anyLost, List.any_eq_false]
  intro i hi
  obtain ⟨b, hb, hi⟩ := List.mem_flatMap.mp hi
  have hused := h.used b (hbs b hb) i hi
  cases hop : f.op i with
  | load p =>
    have hp := hused (by rw [hop]; rfl) p (by simp [hop, Op.operands])
    simpa using hp.isLost_eq_false
  | store v p =>
    have hp := hused (by rw [hop]; rfl) p (by simp [hop, Op.operands])
    simpa using hp.isLost_eq_false
  | _ => simp

/-- The searches for the strides of its code end. -/
theorem isStuck_eq_false (h : f.Anchored l) {m : NaturalLoop} {iv : Operand} (hb : b ∈ l.blocks)
    (hi : i ∈ f.body b) : m.isStuck f dom (.inst i) iv = false :=
  have hg : f.Grounded (.inst i) :=
    .inst (h.inst_lt b hb i hi) fun hphi _ v hv => h.used b hb i hi hphi v hv
  NaturalLoop.isStuck_eq_false_iff.mpr (hg.searched m dom iv)

theorem boundStuck_eq_false {iv : Operand} (hv : f.Grounded v) :
    CountedLoop.boundStuck f iv v = false := by
  unfold CountedLoop.boundStuck
  rw [hv.lacksInst_eq_false, Bool.false_or]
  split
  · rename_i i
    split
    · rename_i lhs rhs hop
      have hrhs : f.Grounded rhs :=
        hv.operand (by rw [hop]; rfl) (by rw [hop]; rfl) (by simp [hop, Op.operands])
      rw [hrhs.lacksInst_eq_false, Bool.and_false]
    · rfl
  · rfl

theorem advanceStuck_eq_false {iv : Operand} (hv : f.Grounded v) :
    CountedLoop.advanceStuck f iv v = false := by
  unfold CountedLoop.advanceStuck
  rw [hv.lacksInst_eq_false, Bool.false_or]
  split
  · rename_i i
    split
    · rename_i lhs rhs hop
      have hops : ∀ w ∈ [lhs, rhs], f.lacksConst w = false := fun w hw =>
        (hv.operand (v := w) (by rw [hop]; rfl) (by rw [hop]; rfl)
          (by rw [hop]; exact hw)).lacksConst_eq_false
      rw [hops lhs (by simp), hops rhs (by simp)]
      simp
    · rfl
  · rfl

variable (h : f.Anchored l) (hl : IsLoop (.ofFunc f) l)

include h

/-- The header branches on something grounded. -/
theorem exit_grounded {exiting t e : BlockId} (hl : l.header ∈ l.blocks)
    (hbr : CountedLoop.exitBranch f l exiting = .ok (v, t, e)) : f.Grounded v := by
  obtain ⟨⟨k, hk, hop⟩, _⟩ := CountedLoop.exitBranch_eq_ok hbr
  refine h.used _ hl k (mem_body_of_terminator hk).1 ?_ v ?_
  · rw [hop]
    rfl
  · simp [hop, Op.operands]

include hl

/-- It can be read as a counted loop, or it is found not to be one. -/
theorem counted_isStuck_eq_false : CountedLoop.isStuck f (.ofFunc f) dom l = false := by
  rw [CountedLoop.isStuck]
  split
  · rename_i preheader latch exiting phi hpre hlatch _ hphi
    have hphi : phi ∈ f.phis l.header := by
      rw [CountedLoop.inductionPhi_eq_ok hphi]
      exact List.mem_singleton_self phi
    rw [Bool.and_eq_false_iff]
    refine .inr ?_
    split
    · rename_i c _ _ start next hbr hstart hnext
      have hnext := h.fed phi hphi latch (by rw [hlatch]; exact List.mem_singleton_self latch) next
        (CountedLoop.incoming_eq_ok.mp hnext)
      rw [boundStuck_eq_false (h.exit_grounded hl.header_mem hbr), Bool.false_or]
      split
      · rw [advanceStuck_eq_false hnext, Bool.false_or]
        split
        · exact (h.taken phi hphi preheader hpre start
            (CountedLoop.incoming_eq_ok.mp hstart)).lacksInst_eq_false
        · rfl
      · rfl
    · rfl
  · rfl

/-- Its trip count can be asked for. -/
theorem tripsStuck_eq_false {c : CountedLoop}
    (hc : CountedLoop.recognize f (.ofFunc f) dom l = .ok c) : c.tripsStuck f = false := by
  obtain ⟨hpre, _, ⟨exiting, _, _, hbr⟩, hphi, hstart, _, htest, _⟩ :=
    CountedLoop.recognize_eq_ok.mp hc
  have hphi : c.induction ∈ f.phis l.header := by
    rw [CountedLoop.inductionPhi_eq_ok hphi]
    exact List.mem_singleton_self _
  obtain ⟨_, hcond, _⟩ := CountedLoop.boundTest_eq_ok htest
  have hbound : f.Grounded c.bound :=
    (h.exit_grounded hl.header_mem hbr).operand (by rw [hcond]; rfl) (by rw [hcond]; rfl)
      (by simp [hcond, Op.operands])
  rw [CountedLoop.tripsStuck, hbound.lacksConst_eq_false, Bool.or_false]
  exact (h.taken _ hphi _ hpre _ (CountedLoop.incoming_eq_ok.mp hstart)).lacksConst_eq_false

end Anchored

end Func

end LoopNest
