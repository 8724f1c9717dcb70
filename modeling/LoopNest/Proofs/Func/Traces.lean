import LoopNest.Proofs.Dependence
import LoopNest.Proofs.Func.Available

/-!
# Tracing pointers

`Func.Traces` is the walk from a pointer to its root, one rule for each kind of definition.  A
derivation is a walk that comes to an end, and the place it finds is the one that `Func.place`
computes (`Traces.place_eq`).

A walk may run in a circle in code that control never comes to.  In reachable blocks of a
function that the verifier accepts it does not: each step goes to an instruction earlier in the
same block, or in a block that a shorter path leads to (`WellFormed.traces_place`).
-/

namespace LoopNest

namespace Func

/-- The walk from a pointer to its root, and the place that it finds. -/
inductive Traces (f : Func) : Operand → Place → Prop where
  /-- A parameter is a root. -/
  | param {k : Nat} {p : Param} : f.params[k]? = some p →
      Traces f (.param k) ⟨.param k p.noalias, .zero⟩
  /-- There is no such parameter. -/
  | noParam {k : Nat} : f.params[k]? = none → Traces f (.param k) .unknown
  /-- A constant is not a pointer. -/
  | const {c : ConstId} : Traces f (.const c) .unknown
  /-- A stack slot is a root. -/
  | alloca {i : InstId} {t : TyId} {a : Nat} : i < f.insts.size → f.op i = .alloca t a →
      Traces f (.inst i) ⟨.alloca i, .zero⟩
  /-- A cast is followed. -/
  | bitcast {i : InstId} {v : Operand} {pl : Place} : f.op i = .bitcast v → Traces f v pl →
      Traces f (.inst i) pl.cast
  /-- A pointer step is followed. -/
  | gep {i : InstId} {base index : Operand} {pl : Place} : f.op i = .gep base index →
      Traces f base pl → Traces f (.inst i) (pl.step index)
  /-- Anything else is unknown. -/
  | other {i : InstId} : (∀ t a, f.op i = .alloca t a → f.insts.size ≤ i) →
      (∀ v, f.op i ≠ .bitcast v) → (∀ b x, f.op i ≠ .gep b x) → Traces f (.inst i) .unknown

variable {f : Func} {v : Operand} {pl : Place}

/-! ## The place that is found -/

/-- Enough fuel finds what the walk finds. -/
theorem Traces.placeWithin_eq (h : f.Traces v pl) : ∃ n, ∀ m, n ≤ m → f.placeWithin m v = pl := by
  induction h with
  | param hp => exact ⟨0, fun m _ => by cases m <;> simp [placeWithin, hp]⟩
  | noParam hp => exact ⟨0, fun m _ => by cases m <;> simp [placeWithin, hp]⟩
  | const => exact ⟨0, fun m _ => by cases m <;> rfl⟩
  | alloca hi hop =>
    refine ⟨1, fun m hm => ?_⟩
    obtain ⟨m, rfl⟩ : ∃ k, m = k + 1 := ⟨m - 1, by omega⟩
    simp [placeWithin, hop, hi]
  | bitcast hop _ ih =>
    obtain ⟨n, hn⟩ := ih
    refine ⟨n + 1, fun m hm => ?_⟩
    obtain ⟨m, rfl⟩ : ∃ k, m = k + 1 := ⟨m - 1, by omega⟩
    simp [placeWithin, hop, hn m (by omega)]
  | gep hop _ ih =>
    obtain ⟨n, hn⟩ := ih
    refine ⟨n + 1, fun m hm => ?_⟩
    obtain ⟨m, rfl⟩ : ∃ k, m = k + 1 := ⟨m - 1, by omega⟩
    simp [placeWithin, hop, hn m (by omega)]
  | @other i ha hb hg =>
    refine ⟨1, fun m hm => ?_⟩
    obtain ⟨m, rfl⟩ : ∃ k, m = k + 1 := ⟨m - 1, by omega⟩
    rw [placeWithin]
    split
    · rename_i hop
      rw [if_neg (Nat.not_lt.mpr (ha _ _ hop))]
    · rename_i hop
      exact absurd hop (hb _)
    · rename_i hop
      exact absurd hop (hg _ _)
    · rfl

/-- The place that the walk finds is the place of the pointer. -/
theorem Traces.place_eq (h : f.Traces v pl) : f.place v = pl := by
  obtain ⟨n, hn⟩ := h.placeWithin_eq
  rw [← f.placeWithin_eq_place (Nat.le_max_left _ n), hn _ (Nat.le_max_right _ _)]

end Func

/-! ## Every walk in reachable code ends -/

namespace Func

variable {f : Func}

/-- A walk can only fail to end inside the function. -/
theorem exists_traces_of_operand {v : Operand} (h : ∀ j, v = .inst j → ∃ pl, f.Traces v pl) :
    ∃ pl, f.Traces v pl := by
  cases v with
  | inst j => exact h j rfl
  | param k =>
    cases hp : f.params[k]? with
    | none => exact ⟨_, .noParam hp⟩
    | some p => exact ⟨_, .param hp⟩
  | const c => exact ⟨_, .const⟩

/-- A walk starts at every instruction whose operands have walks. -/
theorem exists_traces_of_operands {i : InstId}
    (h : ∀ j, Operand.inst j ∈ (f.op i).operands → ∃ pl, f.Traces (.inst j) pl) :
    ∃ pl, f.Traces (.inst i) pl := by
  have hval : ∀ v ∈ (f.op i).operands, ∃ pl, f.Traces v pl := fun v hv =>
    exists_traces_of_operand fun j hj => hj ▸ h j (hj ▸ hv)
  cases hop : f.op i with
  | alloca t a =>
    by_cases hi : i < f.insts.size
    · exact ⟨_, .alloca hi hop⟩
    · exact ⟨_, .other (fun _ _ _ => Nat.le_of_not_lt hi) (by simp [hop]) (by simp [hop])⟩
  | bitcast v =>
    obtain ⟨pl, hpl⟩ := hval v (by simp [hop, Op.operands])
    exact ⟨_, .bitcast hop hpl⟩
  | gep b x =>
    obtain ⟨pl, hpl⟩ := hval b (by simp [hop, Op.operands])
    exact ⟨_, .gep hop hpl⟩
  | _ => exact ⟨_, .other (by simp [hop]) (by simp [hop]) (by simp [hop])⟩

/-- From the instructions of reachable blocks, every walk ends. -/
theorem WellFormed.exists_traces (hf : f.WellFormed) (hl : f.UsesListed) {b : BlockId}
    (hr : (FlowGraph.ofFunc f).Reachable b) {i : InstId} (hi : i ∈ f.body b) :
    ∃ pl, f.Traces (.inst i) pl := by
  refine hf.use_induction (motive := fun i => ∃ pl, f.Traces (.inst i) pl) hl
    (fun _ _ i _ ih => ?_) hr hi
  by_cases hphi : (f.op i).isPhi = true
  · obtain ⟨incoming, hop⟩ := Op.exists_of_isPhi hphi
    exact ⟨_, .other (by simp [hop]) (by simp [hop]) (by simp [hop])⟩
  · exact exists_traces_of_operands (ih (by simpa using hphi))

/-- Every walk that starts in a reachable block ends, at the place of the pointer. -/
theorem WellFormed.traces_place (hf : f.WellFormed) (hl : f.UsesListed) {b : BlockId}
    (hr : (FlowGraph.ofFunc f).Reachable b) {i : InstId} (hi : i ∈ f.body b)
    (hphi : (f.op i).isPhi = false) {v : Operand} (hv : v ∈ (f.op i).operands) :
    f.Traces v (f.place v) := by
  obtain ⟨pl, hpl⟩ : ∃ pl, f.Traces v pl := by
    refine exists_traces_of_operand ?_
    rintro j rfl
    have hb : b ∈ f.layout := by
      have := hr.live
      rwa [FlowGraph.blocks_ofFunc] at this
    obtain ⟨d, hd, hdom, _⟩ := hf.use_dominated b hb hr i hi hphi j hv
    have hrd : (FlowGraph.ofFunc f).Reachable d := by
      by_cases hdb : d = b
      · exact hdb ▸ hr
      · exact (hdom hdb).reachable hr
    exact hf.exists_traces hl hrd (hl j (mem_usedInsts hb hi hv) d hd)
  rw [hpl.place_eq]
  exact hpl

end Func

end LoopNest
