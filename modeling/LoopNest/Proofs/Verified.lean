import LoopNest.Proofs.Graph.Loops
import LoopNest.Proofs.Machine.Lockstep
import LoopNest.Verify

/-!
# What verification ensures

`Func.WellFormed` lists what the verifier checks about blocks and uses, in terms of paths:
instructions record their block, blocks end in their only terminator and start with their
phis, phis have one entry for each predecessor, and definitions dominate uses.
`Func.WellTyped` is what it checks about types.

`Func.wellFormed_of_verify` and `Func.wellTyped_of_verify` say that a defined function that
the verifier accepts has these properties.  One without calls is then in order for the
machine (`Func.WellFormed.orderly`).
-/

namespace LoopNest

/-- The function is in static single assignment form. -/
structure Func.WellFormed (f : Func) : Prop where
  /-- An instruction records its block. -/
  owner_eq : ∀ b ∈ f.layout, ∀ i ∈ f.body b, f.owner i = some b
  /-- A block ends in a terminator. -/
  ends : ∀ b ∈ f.layout, ∃ t, f.terminator? b = some t
  /-- A block has no other terminator. -/
  terminator_eq : ∀ b ∈ f.layout, ∀ i ∈ f.body b, (f.op i).isTerminator = true →
    f.terminator? b = some i
  /-- Phis come first. -/
  phi_first : ∀ b ∈ f.layout, ∀ i ∈ f.afterPhis b, (f.op i).isPhi = false
  /-- A block leads to live blocks. -/
  successor_live : ∀ b ∈ f.layout, ∀ c ∈ f.successors b, c ∈ f.layout
  /-- The entry has no predecessors. -/
  entry_predecessors : ∀ e, f.entry? = some e → f.predecessors e = []
  /-- Operands exist and are live. -/
  operand_exists : ∀ b ∈ f.layout, ∀ i ∈ f.body b, ∀ v ∈ (f.op i).operands,
    Verify.operandExists f v = true
  /-- A phi has an entry for each predecessor and no other. -/
  phi_sources : ∀ b ∈ f.layout, ∀ i ∈ f.body b, ∀ incoming, f.op i = .phi incoming →
    (incoming.map Prod.snd).Nodup ∧ ∀ p, p ∈ incoming.map Prod.snd ↔ p ∈ f.predecessors b
  /-- What a phi takes is computed before the end of the predecessor. -/
  phi_dominated : ∀ b ∈ f.layout, ∀ i ∈ f.body b, ∀ incoming, f.op i = .phi incoming →
    ∀ j p, (Operand.inst j, p) ∈ incoming → ∀ d, f.owner j = some d →
      (FlowGraph.ofFunc f).Dominates d p
  /-- What another instruction uses is computed in a dominating block, or before it. -/
  use_dominated : ∀ b ∈ f.layout, (FlowGraph.ofFunc f).Reachable b → ∀ i ∈ f.body b,
    (f.op i).isPhi = false → ∀ j, Operand.inst j ∈ (f.op i).operands → ∃ d, f.owner j = some d ∧
      (d ≠ b → (FlowGraph.ofFunc f).Dominates d b) ∧
      (d = b → ∀ pre post, f.body b = pre ++ i :: post → j ∈ pre)

/-- What the function has in order about blocks, whatever its operands are: what is left of
`Func.WellFormed` without the uses. -/
structure Func.Framed (f : Func) : Prop where
  owner_eq : ∀ b ∈ f.layout, ∀ i ∈ f.body b, f.owner i = some b
  ends : ∀ b ∈ f.layout, ∃ t, f.terminator? b = some t
  terminator_eq : ∀ b ∈ f.layout, ∀ i ∈ f.body b, (f.op i).isTerminator = true →
    f.terminator? b = some i
  phi_first : ∀ b ∈ f.layout, ∀ i ∈ f.afterPhis b, (f.op i).isPhi = false
  successor_live : ∀ b ∈ f.layout, ∀ c ∈ f.successors b, c ∈ f.layout
  entry_predecessors : ∀ e, f.entry? = some e → f.predecessors e = []
  phi_sources : ∀ b ∈ f.layout, ∀ i ∈ f.body b, ∀ incoming, f.op i = .phi incoming →
    (incoming.map Prod.snd).Nodup ∧ ∀ p, p ∈ incoming.map Prod.snd ↔ p ∈ f.predecessors b

theorem Func.WellFormed.framed {f : Func} (hf : f.WellFormed) : f.Framed :=
  ⟨hf.owner_eq, hf.ends, hf.terminator_eq, hf.phi_first, hf.successor_live, hf.entry_predecessors,
    hf.phi_sources⟩

/-- The recorded types are the ones that the operands give. -/
def Func.WellTyped (tt : TypeTable) (f : Func) : Prop :=
  ∀ b ∈ f.layout, ∀ i ∈ f.body b, ∃ ty, Typing.resultTy tt f (f.op i) (some (f.inst i).ty) = .ok ty ∧
    tt.lookup ty = some (f.inst i).ty

/-! ## Inverting the checks -/

namespace Verify

theorem forAll_eq_ok {α : Type} {check : α → Except Defect Unit} :
    ∀ {as : List α}, forAll check as = .ok () ↔ ∀ a ∈ as, check a = .ok ()
  | [] => by simp [forAll]
  | a :: as => by
    simp only [forAll, bind_eq_ok_iff, List.mem_cons, forall_eq_or_imp, forAll_eq_ok]
    exact ⟨fun ⟨_, h, hs⟩ => ⟨h, hs⟩, fun ⟨h, hs⟩ => ⟨(), h, hs⟩⟩

theorem require_eq_ok {ok : Bool} {d : Defect} {u : Unit} :
    require ok d = .ok u ↔ ok = true := by
  cases ok <;> simp [require]

theorem checkSequence_eq_ok {f : Func} {b : BlockId} {name : String} {last : InstId} :
    ∀ {is : List InstId} {seen : Bool}, checkSequence f b name last seen is = .ok () →
    (∀ i ∈ is, f.owner i = some b ∧ ((f.op i).isTerminator = true → i = last)) ∧
    (seen = true → ∀ i ∈ is, (f.op i).isPhi = false) ∧
    ∀ i ∈ is.dropWhile (fun i => (f.op i).isPhi), (f.op i).isPhi = false
  | [], _, _ => by simp
  | i :: is, seen, h => by
    simp only [checkSequence, bind_eq_ok_iff, require_eq_ok] at h
    obtain ⟨_, hown, _, hterm, _, hphi, hrest⟩ := h
    obtain ⟨h₁, h₂, h₃⟩ := checkSequence_eq_ok hrest
    change (f.owner i == some b) = true at hown
    change (!((f.op i).isTerminator && i != last)) = true at hterm
    change (!((f.op i).isPhi && seen)) = true at hphi
    change (seen || !(f.op i).isPhi) = true → _ at h₂
    refine ⟨fun j hj => ?_, fun hs j hj => ?_, ?_⟩
    · rcases List.mem_cons.mp hj with rfl | hj
      · refine ⟨eq_of_beq hown, fun ht => ?_⟩
        simpa [ht] using hterm
      · exact h₁ j hj
    · rcases List.mem_cons.mp hj with rfl | hj
      · simpa [hs] using hphi
      · exact h₂ (by simp [hs]) j hj
    · rw [List.dropWhile_cons]
      cases hp : (f.op i).isPhi with
      | true => simpa [hp] using h₃
      | false =>
        simp only [Bool.false_eq_true, if_false, List.mem_cons, forall_eq_or_imp]
        exact ⟨hp, h₂ (by simp [hp])⟩

theorem checkBlock_eq_ok {f : Func} {b : BlockId} (h : checkBlock f b = .ok ()) :
    ∃ t, f.terminator? b = some t ∧
      checkSequence f b (f.block b).name t false (f.body b) = .ok () ∧
      ∀ c ∈ f.successors b, c ∈ f.layout := by
  unfold checkBlock at h
  cases ht : f.terminator? b with
  | none => simp [ht] at h
  | some t =>
    simp only [ht, bind_eq_ok_iff, require_eq_ok, List.all_eq_true] at h
    obtain ⟨_, hseq, hsucc⟩ := h
    refine ⟨t, rfl, hseq, fun c hc => ?_⟩
    simpa [Func.isLiveBlock] using hsucc c hc

end Verify

/-- An instruction that comes before another one in its block. -/
theorem mem_of_findIdx_lt {is pre post : List InstId} {i j : InstId} {a b : Nat}
    (ha : is.findIdx? (· = j) = some a) (hb : is.findIdx? (· = i) = some b) (hab : a < b)
    (heq : is = pre ++ i :: post) : j ∈ pre := by
  obtain ⟨ha, hj, _⟩ := List.findIdx?_eq_some_iff_getElem.mp ha
  obtain ⟨hb, _, hmin⟩ := List.findIdx?_eq_some_iff_getElem.mp hb
  have hle : b ≤ pre.length := by
    by_contra hlt
    have := hmin pre.length (by omega)
    simp [heq] at this
  have hlt : a < pre.length := by omega
  simp only [decide_eq_true_eq] at hj
  subst heq
  rw [List.getElem_append_left hlt] at hj
  exact hj ▸ List.getElem_mem hlt

namespace Func

variable {tt : TypeTable} {f : Func}

theorem isDeclaration_of_live {b : BlockId} (hb : b ∈ f.layout) : f.isDeclaration = false := by
  unfold isDeclaration
  cases h : f.layout with
  | nil => simp [h] at hb
  | cons _ _ => rfl

theorem checkFunc_of_verify (h : f.verify tt = .ok ()) : Verify.checkFunc tt f = .ok () := by
  unfold verify at h
  split at h
  · assumption
  · cases h

/-- The parts of a successful verification. -/
theorem checks_of_verify (hd : f.isDeclaration = false) (h : f.verify tt = .ok ()) :
    (∀ b ∈ f.layout, Verify.checkBlock f b = .ok ()) ∧
    Verify.checkEntry f (.ofFunc f) = .ok () ∧
    ∀ b ∈ f.layout, ∀ i ∈ f.body b,
      Verify.checkInst tt f (.ofFunc f) (.ofGraph (.ofFunc f)) b i = .ok () := by
  have hc := checkFunc_of_verify h
  unfold Verify.checkFunc at hc
  simp only [hd, Bool.false_eq_true, if_false, bind_eq_ok_iff, Verify.forAll_eq_ok] at hc
  obtain ⟨_, hblocks, _, hentry, hinsts⟩ := hc
  exact ⟨Verify.forAll_eq_ok.mp hblocks, hentry, hinsts⟩

theorem operandTy_of_exists {v : Operand} (h : Verify.operandExists f v = true) :
    ∃ t, f.operandTy v = .ok t := by
  cases v <;> simp_all [Verify.operandExists, Func.operandTy]

/-- A defined function that is accepted is in static single assignment form. -/
theorem wellFormed_of_verify (hd : f.isDeclaration = false) (h : f.verify tt = .ok ()) :
    f.WellFormed := by
  obtain ⟨hblocks, hentry, hinsts⟩ := checks_of_verify hd h
  have hblock := fun b hb => Verify.checkBlock_eq_ok (hblocks b hb)
  have hown : ∀ b ∈ f.layout, ∀ i ∈ f.body b, f.owner i = some b := by
    intro b hb i hi
    obtain ⟨t, ht, hseq, _⟩ := hblock b hb
    exact ((Verify.checkSequence_eq_ok hseq).1 i hi).1
  have huses : ∀ b ∈ f.layout, ∀ i ∈ f.body b,
      (∀ v ∈ (f.op i).operands, Verify.operandExists f v = true) ∧
      Verify.checkUses f (.ofFunc f) (.ofGraph (.ofFunc f)) b (f.block b).name i = .ok () := by
    intro b hb i hi
    have hi := hinsts b hb i hi
    simp only [Verify.checkInst, bind_eq_ok_iff, Verify.require_eq_ok, List.all_eq_true] at hi
    obtain ⟨_, hops, _, hu, _⟩ := hi
    exact ⟨hops, hu⟩
  refine ⟨hown, fun b hb => ?_, fun b hb i hi ht => ?_, fun b hb => ?_, fun b hb => ?_,
    fun e he => ?_, fun b hb i hi => (huses b hb i hi).1, fun b hb i hi incoming hop => ?_,
    fun b hb i hi incoming hop j p hmem d hd => ?_, fun b hb hr i hi hphi j hj => ?_⟩
  · obtain ⟨t, ht, _⟩ := hblock b hb
    exact ⟨t, ht⟩
  · obtain ⟨t, hterm, hseq, _⟩ := hblock b hb
    rw [((Verify.checkSequence_eq_ok hseq).1 i hi).2 ht]
    exact hterm
  · obtain ⟨t, _, hseq, _⟩ := hblock b hb
    exact (Verify.checkSequence_eq_ok hseq).2.2
  · obtain ⟨t, _, _, hsucc⟩ := hblock b hb
    exact hsucc
  · simp only [Verify.checkEntry, he, Verify.require_eq_ok, List.isEmpty_iff,
      FlowGraph.predecessors_ofFunc] at hentry
    exact hentry
  · have hu := (huses b hb i hi).2
    simp only [Verify.checkUses, hop, bind_eq_ok_iff, Verify.require_eq_ok,
      Verify.matchesPredecessors, FlowGraph.predecessors_ofFunc, Bool.and_eq_true,
      decide_eq_true_eq, List.all_eq_true, List.contains_iff_mem] at hu
    obtain ⟨_, ⟨⟨hnd, hsub⟩, hsup⟩, _⟩ := hu
    exact ⟨hnd, fun p => ⟨hsub p, hsup p⟩⟩
  · have hu := (huses b hb i hi).2
    simp only [Verify.checkUses, hop, bind_eq_ok_iff, Verify.require_eq_ok, List.all_eq_true] at hu
    obtain ⟨_, _, hdom⟩ := hu
    have := hdom _ hmem
    simp only [Verify.incomingDominated, definingBlock?, hd] at this
    exact DomTree.dominates_ofGraph.mp this
  · have hu := (huses b hb i hi).2
    have hdom : ∀ v ∈ (f.op i).operands,
        Verify.operandDominated f (.ofGraph (.ofFunc f)) i v = true := by
      unfold Verify.checkUses at hu
      split at hu
      · rename_i hop
        rw [hop] at hphi
        cases hphi
      · rw [Verify.require_eq_ok, Bool.or_eq_true, List.all_eq_true] at hu
        refine hu.resolve_left ?_
        rw [DomTree.isReachable_ofGraph.mpr hr]
        simp
    have hj := hdom _ hj
    simp only [Verify.operandDominated, DomTree.instDominates] at hj
    rw [hown b hb i hi] at hj
    cases hd : f.owner j with
    | none => simp [hd] at hj
    | some d =>
      simp only [hd] at hj
      refine ⟨d, rfl, fun hne => ?_, fun heq pre post hbody => ?_⟩
      · rw [if_pos hne] at hj
        exact DomTree.dominates_ofGraph.mp hj
      · subst heq
        rw [if_neg (by simp)] at hj
        split at hj
        · rename_i a c ha hc
          exact mem_of_findIdx_lt ha hc (by simpa using hj) hbody
        · cases hj

/-- A defined function that is accepted is well typed. -/
theorem wellTyped_of_verify (hd : f.isDeclaration = false) (h : f.verify tt = .ok ()) :
    f.WellTyped tt := by
  intro b hb i hi
  have hi := (checks_of_verify hd h).2.2 b hb i hi
  simp only [Verify.checkInst, bind_eq_ok_iff, Verify.require_eq_ok] at hi
  obtain ⟨_, _, _, _, hty⟩ := hi
  unfold Verify.checkType at hty
  cases hres : Typing.resultTy tt f (f.op i) (some (f.inst i).ty) with
  | error cause =>
    rw [op] at hres
    simp [hres] at hty
  | ok ty =>
    rw [op] at hres
    simp only [hres, Verify.require_eq_ok] at hty
    exact ⟨ty, rfl, eq_of_beq hty⟩

/-- A function that is accepted is in order about its blocks, a declaration for lack of them. -/
theorem framed_of_verify (h : f.verify tt = .ok ()) : f.Framed := by
  cases hd : f.isDeclaration with
  | false => exact (wellFormed_of_verify hd h).framed
  | true =>
    have hnil : f.layout = [] := List.isEmpty_iff.mp hd
    constructor <;> simp [hnil, entry?]

theorem Framed.inst_lt (hf : f.Framed) {b : BlockId} (hb : b ∈ f.layout) {i : InstId}
    (hi : i ∈ f.body b) : i < f.insts.size := owner_lt (hf.owner_eq b hb i hi)

theorem WellFormed.inst_lt (hf : f.WellFormed) {b : BlockId} (hb : b ∈ f.layout) {i : InstId}
    (hi : i ∈ f.body b) : i < f.insts.size := hf.framed.inst_lt hb hi

/-- A function without calls is in order for the machine. -/
theorem WellFormed.orderly (hf : f.WellFormed)
    (hcall : f.CallFree) : f.Orderly (· ∈ f.layout) :=
  ⟨fun _ he => List.mem_of_head? he, fun _ hb _ hi => hf.inst_lt hb hi, hcall, hf.ends,
    hf.terminator_eq, hf.successor_live⟩

/-- The operands of an instruction of a block come before it. -/
theorem WellFormed.operand_before (hf : f.WellFormed) {b : BlockId} (hb : b ∈ f.layout)
    (hr : (FlowGraph.ofFunc f).Reachable b) {pre post : List InstId} {i j : InstId}
    (hcode : f.afterPhis b = pre ++ i :: post) (hj : Operand.inst j ∈ (f.op i).operands) :
    ∃ d, f.owner j = some d ∧ (d ≠ b → (FlowGraph.ofFunc f).Dominates d b) ∧
      (d = b → j ∈ f.phis b ∨ j ∈ pre) := by
  have hmem : i ∈ f.afterPhis b := by
    rw [hcode]
    simp
  obtain ⟨d, hd, hdom, hsame⟩ := hf.use_dominated b hb hr i (mem_body_of_afterPhis hmem)
    (hf.phi_first b hb i hmem) j hj
  refine ⟨d, hd, hdom, fun heq => ?_⟩
  have hbody : f.body b = (f.phis b ++ pre) ++ i :: post := by
    rw [← f.phis_append_afterPhis b, hcode, List.append_assoc]
  exact List.mem_append.mp (hsame heq _ _ hbody)

/-- A block uses what it computes itself, and what dominating blocks compute. -/
theorem WellFormed.readsFrom (hf : f.WellFormed) {b : BlockId} (hb : b ∈ f.layout)
    (hr : (FlowGraph.ofFunc f).Reachable b) {S : InstId → Prop}
    (hS : ∀ i ∈ f.body b, ∀ j, Operand.inst j ∈ (f.op i).operands → ∀ d, f.owner j = some d →
      d ≠ b → (FlowGraph.ofFunc f).Dominates d b → S j) : f.ReadsFrom b S := by
  have hbefore : ∀ pre i post, f.afterPhis b = pre ++ i :: post → ∀ j,
      Operand.inst j ∈ (f.op i).operands → S j ∨ j ∈ f.phis b ∨ j ∈ pre := by
    intro pre i post heq j hj
    obtain ⟨d, hd, hdom, hsame⟩ := hf.operand_before hb hr heq hj
    by_cases hdb : d = b
    · exact .inr (hsame hdb)
    · have hi : i ∈ f.body b := mem_body_of_afterPhis (heq ▸ by simp)
      exact .inl (hS i hi j hj d hd hdb (hdom hdb))
  constructor
  · intro pre i post heq
    have hsplit : f.code b ++ (f.afterPhis b).dropWhile (fun i => !(f.op i).isTerminator) =
        f.afterPhis b := List.takeWhile_append_dropWhile
    rw [heq, List.append_assoc, List.cons_append] at hsplit
    exact hbefore pre i _ hsplit.symm
  · intro t ht
    obtain ⟨rest, hrest⟩ := afterPhis_eq_code (hf.terminator_eq b hb) ht
    exact hbefore _ t rest hrest

theorem Framed.mem_phis (hf : f.Framed) {b : BlockId} (hb : b ∈ f.layout) {i : InstId}
    (hi : i ∈ f.body b) (hphi : (f.op i).isPhi = true) : i ∈ f.phis b := by
  rw [← f.phis_append_afterPhis b] at hi
  refine (List.mem_append.mp hi).resolve_right fun hafter => ?_
  rw [hf.phi_first b hb i hafter] at hphi
  cases hphi

theorem WellFormed.not_isPhi_of_code (hf : f.WellFormed) {b : BlockId} (hb : b ∈ f.layout)
    {i : InstId} (hi : i ∈ f.code b) : (f.op i).isPhi = false :=
  hf.phi_first b hb i ((List.takeWhile_sublist _).subset hi)

end Func

end LoopNest
