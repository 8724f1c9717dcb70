import LoopNest.Proofs.Verified

/-!
# What the verifier accepts

Well-formed and well-typed functions are accepted.  Together with `Func.wellFormed_of_verify` and
`Func.wellTyped_of_verify`, this says that the verifier decides the two properties
(`Func.verify_eq_ok_iff`), so a change to a function keeps it accepted when it keeps them.
-/

namespace LoopNest

namespace Verify

variable {f : Func} {tt : TypeTable}

theorem checkSequence_of {b : BlockId} {name : String} {last : InstId} :
    ∀ {is : List InstId} {seen : Bool},
    (∀ i ∈ is, f.owner i = some b ∧ ((f.op i).isTerminator = true → i = last)) →
    (seen = true → ∀ i ∈ is, (f.op i).isPhi = false) →
    (∀ i ∈ is.dropWhile (fun i => (f.op i).isPhi), (f.op i).isPhi = false) →
    checkSequence f b name last seen is = .ok ()
  | [], _, _, _, _ => rfl
  | i :: is, seen, hown, hseen, hphi => by
    obtain ⟨howner, hterm⟩ := hown i List.mem_cons_self
    simp only [checkSequence, bind_eq_ok_iff, require_eq_ok]
    refine ⟨(), ?_, (), ?_, (), ?_, ?_⟩
    · change (f.owner i == some b) = true
      rw [howner, beq_self_eq_true]
    · change (!((f.op i).isTerminator && i != last)) = true
      cases ht : (f.op i).isTerminator with
      | false => rfl
      | true => simp [hterm ht]
    · change (!((f.op i).isPhi && seen)) = true
      cases seen with
      | false => simp
      | true => simp [hseen rfl i List.mem_cons_self]
    · rw [List.dropWhile_cons] at hphi
      refine checkSequence_of (fun j hj => hown j (List.mem_cons_of_mem _ hj)) (fun hs j hj => ?_) ?_
      · change (seen || !(f.op i).isPhi) = true at hs
        cases hp : (f.op i).isPhi with
        | true =>
          rw [hp] at hs
          exact hseen (by simpa using hs) j (List.mem_cons_of_mem _ hj)
        | false =>
          rw [hp] at hphi
          exact hphi j (List.mem_cons_of_mem _ hj)
      · cases hp : (f.op i).isPhi with
        | true => simpa [hp] using hphi
        | false =>
          rw [hp] at hphi
          exact fun j hj => hphi j (List.mem_cons_of_mem _ ((List.dropWhile_sublist _).subset hj))

end Verify

namespace Func

variable {tt : TypeTable} {f : Func}

namespace WellFormed

theorem checkBlock_eq_ok (hf : f.WellFormed) {b : BlockId} (hb : b ∈ f.layout) :
    Verify.checkBlock f b = .ok () := by
  obtain ⟨t, ht⟩ := hf.ends b hb
  unfold Verify.checkBlock
  simp only [ht, bind_eq_ok_iff, Verify.require_eq_ok, List.all_eq_true]
  refine ⟨(), Verify.checkSequence_of (fun i hi => ⟨hf.owner_eq b hb i hi, fun hterm => ?_⟩)
    (fun h => by cases h) (hf.phi_first b hb), fun c hc => ?_⟩
  · exact Option.some.inj ((hf.terminator_eq b hb i hi hterm).symm.trans ht)
  · simpa [isLiveBlock] using hf.successor_live b hb c hc

theorem checkEntry_eq_ok (hf : f.WellFormed) : Verify.checkEntry f (.ofFunc f) = .ok () := by
  unfold Verify.checkEntry
  cases he : f.entry? with
  | none => rfl
  | some e =>
    rw [Verify.require_eq_ok, FlowGraph.predecessors_ofFunc, hf.entry_predecessors e he]
    rfl

/-- The first of two positions. -/
theorem findIdx_lt_of_mem {is pre post : List InstId} {i j : InstId} (heq : is = pre ++ i :: post)
    (hi : i ∉ pre) (hj : j ∈ pre) : ∃ a b, is.findIdx? (· = j) = some a ∧
      is.findIdx? (· = i) = some b ∧ a < b := by
  subst heq
  refine ⟨pre.findIdx (· = j), pre.length, ?_, ?_, ?_⟩
  · rw [List.findIdx?_append, List.findIdx?_eq_some_of_exists ⟨j, hj, by simp⟩]
    rfl
  · rw [List.findIdx?_append, List.findIdx?_eq_none_iff.mpr]
    · simp [List.findIdx?_cons]
    · intro x hx
      simp only [decide_eq_false_iff_not]
      rintro rfl
      exact hi hx
  · exact List.findIdx_lt_length_of_exists ⟨j, hj, by simp⟩

theorem instDominates (hf : f.WellFormed) {b : BlockId} (hb : b ∈ f.layout)
    (hr : (FlowGraph.ofFunc f).Reachable b) {i j : InstId} (hi : i ∈ f.body b)
    (hphi : (f.op i).isPhi = false) (hj : Operand.inst j ∈ (f.op i).operands) :
    (DomTree.ofGraph (.ofFunc f)).instDominates f j i = true := by
  obtain ⟨d, hd, hdom, hsame⟩ := hf.use_dominated b hb hr i hi hphi j hj
  unfold DomTree.instDominates
  rw [hd, hf.owner_eq b hb i hi]
  simp only
  by_cases hdb : d = b
  · -- Look at the first place of the user in the block.
    rw [if_neg (by simpa using hdb)]
    subst hdb
    obtain ⟨pre, post, hbody, hpre⟩ := List.eq_append_cons_of_mem hi
    obtain ⟨a, c, ha, hc, hlt⟩ := findIdx_lt_of_mem hbody hpre (hsame rfl pre post hbody)
    rw [ha, hc]
    simpa using hlt
  · rw [if_pos hdb]
    exact DomTree.dominates_ofGraph.mpr (hdom hdb)

theorem checkUses_eq_ok (hf : f.WellFormed) {b : BlockId} (hb : b ∈ f.layout) {i : InstId}
    (hi : i ∈ f.body b) (name : String) :
    Verify.checkUses f (.ofFunc f) (.ofGraph (.ofFunc f)) b name i = .ok () := by
  unfold Verify.checkUses
  split
  · rename_i incoming hop
    obtain ⟨hnd, hmem⟩ := hf.phi_sources b hb i hi incoming hop
    simp only [bind_eq_ok_iff, Verify.require_eq_ok, Verify.matchesPredecessors,
      FlowGraph.predecessors_ofFunc, Bool.and_eq_true, decide_eq_true_eq, List.all_eq_true,
      List.contains_iff_mem]
    refine ⟨(), ⟨⟨hnd, fun p hp => (hmem p).mp hp⟩, fun p hp => (hmem p).mpr hp⟩, ?_⟩
    rintro ⟨v, p⟩ he
    unfold Verify.incomingDominated
    split
    · rename_i d hd
      cases v with
      | inst j =>
        exact DomTree.dominates_ofGraph.mpr (hf.phi_dominated b hb i hi incoming hop j p he d hd)
      | _ => cases hd
    · rfl
  · rename_i hop
    have hphi : (f.op i).isPhi = false := by
      cases hx : f.op i with
      | phi incoming => exact absurd hx (hop incoming)
      | _ => rfl
    rw [Verify.require_eq_ok, Bool.or_eq_true, List.all_eq_true]
    by_cases hr : (FlowGraph.ofFunc f).Reachable b
    · refine .inr fun v hv => ?_
      cases v with
      | inst j => exact hf.instDominates hb hr hi hphi hv
      | _ => rfl
    · left
      rw [Bool.not_eq_true', Bool.eq_false_iff]
      exact fun h => hr (DomTree.isReachable_ofGraph.mp h)

end WellFormed

theorem WellTyped.checkType_eq_ok (ht : f.WellTyped tt) {b : BlockId} (hb : b ∈ f.layout)
    {i : InstId} (hi : i ∈ f.body b) (name : String) :
    Verify.checkType tt f name i = .ok () := by
  obtain ⟨ty, hty, hlook⟩ := ht b hb i hi
  unfold Verify.checkType
  rw [op] at hty
  simp only [hty, Verify.require_eq_ok, hlook, beq_self_eq_true]

/-- The verifier does not look into a declaration. -/
theorem verify_of_isDeclaration (hd : f.isDeclaration = true) : f.verify tt = .ok () := by
  simp [verify, Verify.checkFunc, hd]

/-- The verifier accepts a defined function exactly when it is well formed and well typed. -/
theorem verify_eq_ok_iff (hd : f.isDeclaration = false) :
    f.verify tt = .ok () ↔ f.WellFormed ∧ f.WellTyped tt := by
  refine ⟨fun h => ⟨wellFormed_of_verify hd h, wellTyped_of_verify hd h⟩, fun ⟨hf, ht⟩ => ?_⟩
  have hcheck : Verify.checkFunc tt f = .ok () := by
    unfold Verify.checkFunc
    simp only [hd, Bool.false_eq_true, if_false, bind_eq_ok_iff, Verify.forAll_eq_ok]
    refine ⟨(), Verify.forAll_eq_ok.mpr fun b hb => hf.checkBlock_eq_ok hb, (),
      hf.checkEntry_eq_ok, fun b hb i hi => ?_⟩
    simp only [Verify.checkInst, bind_eq_ok_iff, Verify.require_eq_ok, List.all_eq_true]
    exact ⟨(), hf.operand_exists b hb i hi, (), hf.checkUses_eq_ok hb hi _,
      ht.checkType_eq_ok hb hi _⟩
  unfold verify
  rw [hcheck]

end Func

end LoopNest
