import LoopNest.Proofs.Loop.Counted
import LoopNest.Proofs.Machine.Arith
import LoopNest.Proofs.Typing

/-!
# Trip counts

The exit test of a counted loop compares its induction value with its bound.  When the trip
count is a constant other than zero, the test holds the first time, and the loop is entered
(`CountedLoop.enters_of_trips`).
-/

namespace LoopNest

/-! ## The first test -/

theorem lt_of_stepsBetween {start bound step n : Nat} (h : stepsBetween start bound step = n + 1) :
    start < bound := by
  unfold stepsBetween at h
  by_contra hle
  have hzero : bound - start + step - 1 < step ∨ step = 0 := by omega
  rcases hzero with hlt | rfl
  · rw [Nat.div_eq_of_lt hlt] at h
    omega
  · simp at h

namespace CountedLoop

variable {tt : TypeTable} {f : Func} {l : NaturalLoop} {c : CountedLoop} {args : List Datum}

theorem tripCount_eq_constant {dom : DomTree} {n : Nat}
    (h : c.tripCount? tt f dom l = some (.constant n)) :
    ∃ start bound, f.intLiteral? c.start = some start ∧ f.intLiteral? c.bound = some bound ∧
      stepsBetween (((tt.elementScalar? (f.tyOf c.start)).getD .i64).lowBits start)
        (((tt.elementScalar? (f.tyOf c.start)).getD .i64).lowBits bound) c.step.toUInt64.toNat =
        n := by
  unfold tripCount? at h
  split at h
  · rename_i start bound hs hb
    simp only [Option.some.injEq, TripCount.constant.injEq] at h
    exact ⟨start, bound, hs, hb, h⟩
  · split at h <;> simp at h

/-- The exit test is part of the code of the header. -/
theorem cond_mem_code (hf : f.WellFormed) (hl : IsLoop (.ofFunc f) l) (hc : IsCounted f l c) :
    c.cond ∈ f.code l.header := by
  have hlive := live_of_mem hl hl.header_mem
  obtain ⟨t, ht, hop⟩ := hc.exitBranch
  have hreads := hf.readsFrom (S := fun j => f.owner j ≠ some l.header) hlive hl.reachable
    fun i _ j _ d hd hne _ heq => hne (Option.some.inj (hd.symm.trans heq))
  rcases hreads.terminator t ht c.cond (by simp [hop, Op.operands]) with hne | hp | hmem
  · exact absurd hc.cond_owner hne
  · have := Func.isPhi_of_mem_phis hp
    rw [hc.cond_op] at this
    cases this
  · exact hmem

/-- A loop with a constant trip count other than zero is entered. -/
theorem enters_of_trips (hf : f.WellFormed) (hty : f.WellTyped tt) (hl : IsLoop (.ofFunc f) l)
    (hc : IsCounted f l c) {dom : DomTree} {n : Nat}
    (hn : c.tripCount? tt f dom l = some (.constant (n + 1))) {s s' : Snapshot} {δ : List Chunk}
    {x : Next} (hv : Visit tt f args (some c.preheader) l.header s δ s' x) :
    x = .goto c.bodyEntry := by
  have hlive := live_of_mem hl hl.header_mem
  have hphi : c.induction ∈ f.phis l.header := hc.phis_eq ▸ List.mem_singleton.mpr rfl
  have hcond := cond_mem_code hf hl hc
  obtain ⟨start, bound, hstart, hbound, hsteps⟩ := tripCount_eq_constant hn
  -- All of them have one type.
  have hbody := Func.mem_body_of_phis hphi
  have hts : f.tyOf c.start = f.tyOf c.iv :=
    (hty.tyOf_incoming hlive hbody hc.start_eq).trans
      (f.tyOf_inst c.induction).symm
  have htb := hty.tyOf_icmp hlive (Func.mem_body_of_code hcond) hc.cond_op
  obtain ⟨t, ht, hl⟩ := hv.leaves
  obtain ⟨t', ht', hop⟩ := hc.exitBranch
  rw [ht] at ht'
  cases ht'
  rw [hop] at hl
  obtain ⟨s₁, d, δ₁, rs, hcomp, hd, hbefore⟩ := hv.straight.computes_of_mem hcond
  have hiv : f.value tt args s₁.values c.iv = f.value tt args s.values c.start := by
    have hnot : c.induction ∉ f.code l.header := by
      intro hmem
      have := hf.not_isPhi_of_code hlive hmem
      rw [Func.isPhi_of_mem_phis hphi] at this
      cases this
    refine (hbefore c.induction hnot).trans ?_
    simp only [entered, if_pos hphi, phiValue, Option.bind_some, hc.start_eq]
  rw [hc.cond_op] at hcomp
  cases hcomp with
  | pure hp =>
    simp only [pureResult, hiv, Func.value_of_intLiteral hstart, Func.value_of_intLiteral hbound,
      hts, ← htb] at hp
    rw [hts] at hsteps
    cases hs : tt.elementScalar? (f.tyOf c.iv) with
    | none => simp [hs] at hp
    | some s =>
      rw [hs] at hp hsteps
      have hlt := lt_of_stepsBetween hsteps
      rw [Option.getD_some] at hlt
      have hd' : d = .bool true := by
        have : (Except.ok (Datum.bool (decide (s.lowBits (s.normalize start) <
            s.lowBits (s.normalize bound)))) : Except Fault Datum).toOption = some d := hp
        rw [Scalar.lowBits_normalize, Scalar.lowBits_normalize, decide_eq_true hlt] at this
        exact (Option.some.inj this).symm
      subst hd'
      cases hl with
      | condBr htaken =>
        rw [show f.value tt args s'.values (.inst c.cond) = some (.bool true) from hd] at htaken
        cases htaken
        rfl

end CountedLoop

end LoopNest
