import LoopNest.Proofs.Loop.Tours
import LoopNest.Proofs.Loop.Trips

/-!
# How often a counted loop runs

A constant trip count is the number of steps from the start up to the bound, computed without a
limit.  The loop computes within the range of its type, and leaves when the test fails for the
first time (`CountedLoop.OnLap`).  So it never runs less often than the trip count says, and as
often exactly if the value after the last step, wrapped around, is not below the bound again
(`count_eq_iff`).

`CountedLoop.constant_trips_iff` is the result for whole runs.  A byte that is counted from 0 by
hundreds up to 201 wraps around, and makes five laps where the trip count is three.
-/

namespace LoopNest

/-! ## Counting up to a bound -/

section

variable {start bound step range n count : Nat}

/-- The last step is the first one that is not below the bound. -/
theorem lt_stepsBetween_iff (hstep : 0 < step) {j : Nat} :
    j < stepsBetween start bound step ↔ start + j * step < bound := by
  rw [stepsBetween, Nat.lt_iff_add_one_le, Nat.le_div_iff_mul_le hstep, Nat.add_one_mul]
  omega

/-- A count that ends with the first value that is not below the bound is at least the number of
steps, and is that number if the count does not wrap around to below the bound. -/
theorem count_eq_iff (hstep : 0 < step) (hbound : bound ≤ range)
    (hn : stepsBetween start bound step = n)
    (hbelow : ∀ j < count, (start + j * step) % range < bound)
    (hend : bound ≤ (start + count * step) % range) :
    n ≤ count ∧ (count = n ↔ bound ≤ (start + n * step) % range) := by
  have hpass : ∀ j < n, (start + j * step) % range < bound := fun j hj => by
    have hlt := (lt_stepsBetween_iff hstep).mp (hn ▸ hj)
    rwa [Nat.mod_eq_of_lt (Nat.lt_of_lt_of_le hlt hbound)]
  have hle : n ≤ count := Nat.le_of_not_lt fun hlt => Nat.not_lt.mpr hend (hpass _ hlt)
  refine ⟨hle, fun heq => heq ▸ hend, fun hlast => ?_⟩
  exact (Nat.eq_or_lt_of_le hle).elim Eq.symm fun hlt => absurd (hbelow n hlt) (Nat.not_lt.mpr hlast)

/-- A count that stays in the range does not wrap around. -/
theorem bound_le_of_lt_range (hstep : 0 < step) (hn : stepsBetween start bound step = n)
    (hrange : start + n * step < range) : bound ≤ (start + n * step) % range := by
  rw [Nat.mod_eq_of_lt hrange]
  refine Nat.le_of_not_lt fun hlt => Nat.lt_irrefl n ?_
  have hlt' := (lt_stepsBetween_iff hstep).mpr hlt
  rwa [hn] at hlt'

end

namespace CountedLoop

open Machine

/-! ## Laps of a tour -/

/-- The `j`-th test of a tour that was entered from the frame `fr₀` goes on in the loop. -/
def Passes (tt : TypeTable) (f : Func) (args : List Datum) (c : CountedLoop) (sc : Scalar)
    (fr₀ : Frame) (j : Nat) : Prop :=
  ∃ x y, f.value tt args fr₀.values c.start = some (.int x) ∧
    f.value tt args fr₀.values c.bound = some (.int y) ∧
    (sc.lowBits x + j * c.step.toUInt64.toNat) % 2 ^ min sc.bits 64 < sc.lowBits y

/-- A frame on a tour along some edges: each lap begins with a test that goes on in the loop. -/
structure OnLap (tt : TypeTable) (f : Func) (args : List Datum) (l : NaturalLoop) (c : CountedLoop)
    (sc : Scalar) (fr₀ : Frame) (tr : List (BlockId × BlockId)) (fr : Frame) : Prop where
  /-- At the header, all laps that were begun are over, and elsewhere all but one. -/
  onTour : OnTour tt f args l c sc fr₀
    (if fr.block = l.header then tr.count (l.header, c.bodyEntry)
      else tr.count (l.header, c.bodyEntry) - 1) fr
  begun : fr.block ≠ l.header → 0 < tr.count (l.header, c.bodyEntry)
  passes : ∀ j < tr.count (l.header, c.bodyEntry), Passes tt f args c sc fr₀ j
  /-- The other edges come from other blocks. -/
  edges : ∀ e ∈ tr, e = (c.preheader, l.header) ∨ e = (l.header, c.bodyEntry) ∨
    e.1 ∈ l.blocks ∧ e.1 ≠ l.header ∧ e.2 ∈ f.successors e.1

section

variable {tt : TypeTable} {f : Func} {args : List Datum} {l : NaturalLoop} {c : CountedLoop}
  {sc : Scalar} {fr₀ fr fr' : Frame} {tr : List (BlockId × BlockId)} {b : BlockId}
  (hf : f.WellFormed) (hl : IsLoop (.ofFunc f) l) (hc : IsCounted f l c)

/-- A test at the header, in terms of start and bound. -/
theorem OnTour.passes_iff (hf : f.WellFormed) (hc : IsCounted f l c) {k : Nat}
    (h : OnTour tt f args l c sc fr₀ k fr)
    (hsc : tt.elementScalar? (f.inst c.induction).ty = some sc) (hb : fr.block = l.header)
    (he : fr.Enters tt b fr') : (b = c.bodyEntry ∨ b = c.exit) ∧
      (b = c.bodyEntry ↔ Passes tt f args c sc fr₀ k) := by
  obtain ⟨x, y, hx, hy, rfl⟩ := h.test hf hc hsc hb he
  obtain ⟨d, e, hd, he, hahead⟩ := h.ahead
  obtain rfl := Option.some.inj (he.symm.trans hx)
  rcases hahead with ⟨x₀, x', rfl, hx', hlow⟩ | ⟨hno, _, heq⟩
  · cases hx'
    have hpasses : Passes tt f args c sc fr₀ k ↔ sc.lowBits x < sc.lowBits y := by
      rw [hlow]
      refine ⟨?_, fun hlt => ⟨x₀, y, hd, hy, hlt⟩⟩
      rintro ⟨x₁, y₁, hx₁, hy₁, hlt⟩
      cases hd.symm.trans hx₁
      cases hy.symm.trans hy₁
      exact hlt
    rw [hpasses]
    by_cases hlt : sc.lowBits x < sc.lowBits y
    · simp [hlt]
    · simp [hlt, (bodyEntry_ne_exit hc).symm]
  · exact absurd heq.symm (hno x)

include hf hc

theorem OnLap.records (h : OnLap tt f args l c sc fr₀ tr fr) (hr : fr.Records tt fr') :
    OnLap tt f args l c sc fr₀ tr fr' := by
  have hblock : fr'.block = fr.block := by
    cases hr
    rfl
  refine ⟨?_, hblock ▸ h.begun, h.passes, h.edges⟩
  rw [hblock]
  exact h.onTour.records hf hc hr

variable (hsc : tt.elementScalar? (f.inst c.induction).ty = some sc)
include hl hsc

omit hsc in
theorem OnLap.of_enters (h₀ : fr₀.Within f args) (hpre : fr₀.block = c.preheader)
    (he : fr₀.Enters tt l.header fr) : OnLap tt f args l c sc fr₀ [(c.preheader, l.header)] fr := by
  have hblock := (h₀.enters hf he).2.2.2.2.1
  have hne : (c.preheader, l.header) ≠ (l.header, c.bodyEntry) := fun heq =>
    hc.preheader_out ((Prod.mk.inj heq).1 ▸ hl.header_mem)
  have hzero : [(c.preheader, l.header)].count (l.header, c.bodyEntry) = 0 :=
    List.count_eq_zero.mpr fun hmem => hne (List.mem_singleton.mp hmem).symm
  refine ⟨?_, fun hb => absurd hblock hb, fun j hj => ?_, fun e he => ?_⟩
  · rw [if_pos hblock, hzero]
    exact .of_enters hf hl hc h₀ hpre he
  · rw [hzero] at hj
    exact absurd hj (Nat.not_lt_zero j)
  · exact .inl (List.mem_singleton.mp he)

theorem OnLap.enters (h : OnLap tt f args l c sc fr₀ tr fr) (hty : f.WellTyped tt)
    (he : fr.Enters tt b fr') (hb : b ∈ l.blocks) :
    OnLap tt f args l c sc fr₀ ((fr.block, b) :: tr) fr' := by
  have hon := h.onTour.enters hf hl hc hty hsc he hb
  obtain ⟨_, _, _, hedge, hblock, _⟩ := h.onTour.within.enters hf he
  have hsucc := ((FlowGraph.edge_ofFunc f _ _).mp hedge).2.2
  by_cases hh : fr.block = l.header
  · -- A new lap begins.
    have htour := h.onTour
    rw [if_pos hh] at htour hon
    obtain ⟨hor, hiff⟩ := htour.passes_iff hf hc hsc hh he
    obtain rfl : b = c.bodyEntry := hor.resolve_right fun heq => hc.exit_out (heq ▸ hb)
    have hcount : ((fr.block, c.bodyEntry) :: tr).count (l.header, c.bodyEntry) =
        tr.count (l.header, c.bodyEntry) + 1 := by
      rw [hh, List.count_cons_self]
    refine ⟨?_, fun _ => hcount ▸ Nat.succ_pos _, fun j hj => ?_, fun e he => ?_⟩
    · rw [hcount, hblock, Nat.add_sub_cancel]
      exact hon
    · rw [hcount] at hj
      rcases Nat.lt_succ_iff_lt_or_eq.mp hj with hj | rfl
      · exact h.passes j hj
      · exact hiff.mp rfl
    · rcases List.mem_cons.mp he with rfl | he
      · exact .inr (.inl (by rw [hh]))
      · exact h.edges e he
  · -- The lap goes on, or is over.
    have hcount : ((fr.block, b) :: tr).count (l.header, c.bodyEntry) =
        tr.count (l.header, c.bodyEntry) :=
      List.count_cons_of_ne fun heq => hh (Prod.mk.inj heq).1
    have hpos := h.begun hh
    rw [if_neg hh, Nat.sub_add_cancel hpos] at hon
    refine ⟨?_, fun _ => hcount ▸ hpos, fun j hj => h.passes j (hcount ▸ hj), fun e he => ?_⟩
    · rw [hcount, hblock]
      exact hon
    · rcases List.mem_cons.mp he with rfl | he
      · exact .inr (.inr ⟨h.onTour.mem, hh, hsucc⟩)
      · exact h.edges e he

end

/-- An activation on a tour is on a lap of it. -/
theorem onLap {p : Program} {f : Func} {args : List Datum} {limit : Nat} {cs : List Caller}
    {s t u : State} {l : NaturalLoop} {c : CountedLoop} {sc : Scalar}
    {tr : List (BlockId × BlockId)} (hf : f.WellFormed) (hl : IsLoop (.ofFunc f) l)
    (hc : IsCounted f l c) {m : Memory} {n : Nat} (hn : n ≤ limit)
    (hs : invoke p limit f args cs m n = .next s) (ht : Reaches p limit (Alive cs) s t)
    (hty : f.WellTyped p.types) (hsc : p.types.elementScalar? (f.inst c.induction).ty = some sc)
    (h : Tour p limit cs l t tr u) : Held cs (OnLap p.types f args l c sc t.frame tr) u := by
  induction h with
  | enter hj ha hb =>
    obtain ⟨rfl, rfl, hw⟩ := eq_preheader_of_jumps hf hl hc hn hs ht hj ha hb
    exact .inl ⟨hj.after, .of_enters hf hl hc hw hj.source hj.enters⟩
  | stay h ha hal hno ih =>
    refine ((ih.step ha hal).resolve_left (hno _ _)).mono ?_
    rintro fr (hon | ⟨fr', hon, hr⟩)
    · exact hon
    · exact hon.records hf hc hr
  | jump h hj hb ih =>
    obtain rfl := hj.source
    exact .inl ⟨hj.after, (ih.frame hj.before).enters hf hl hc hsc hty hj.enters hb⟩

/-! ## Trip counts of whole runs -/

/-- A counted loop with a constant trip count runs that often, or more often if its induction value
wraps around to below the bound: a tour that is left through the exit has at least as many laps,
and as many exactly if the value after the last step, in the range of its type, is not below the
bound.  Each lap begins with one visit of the block behind the header, and that is its only one if
the block can only be entered from there. -/
theorem constant_trips_iff {p : Program} {f : Func} (hv : f.verify p.types = .ok ()) {i : LoopId}
    (hi : i ∈ (LoopForest.ofFunc f).ids) {c : CountedLoop}
    (hrec : recognize f (.ofFunc f) (.ofGraph (.ofFunc f)) ((LoopForest.ofFunc f).loop i) = .ok c)
    {trips : Nat} (htrips : c.tripCount? p.types f (.ofGraph (.ofFunc f))
      ((LoopForest.ofFunc f).loop i) = some (.constant trips)) :
    ∃ sc start bound, p.types.elementScalar? (f.tyOf c.start) = some sc ∧
      f.intLiteral? c.start = some start ∧ f.intLiteral? c.bound = some bound ∧
      -- Without wrapping around, the last value is not below the bound.
      (sc.lowBits start + trips * c.step.toUInt64.toNat < 2 ^ min sc.bits 64 → sc.lowBits bound ≤
        (sc.lowBits start + trips * c.step.toUInt64.toNat) % 2 ^ min sc.bits 64) ∧
      ∀ (limit : Nat) (args : List Datum) (cs : List Caller) (m : Memory) (n : Nat) (s t u v : State)
        (tr : List (BlockId × BlockId)), n ≤ limit → invoke p limit f args cs m n = .next s →
        Reaches p limit (Alive cs) s t → Tour p limit cs ((LoopForest.ofFunc f).loop i) t tr u →
        Jumps p limit cs c.header c.exit u v →
        trips ≤ tr.count (c.header, c.bodyEntry) ∧
        (tr.count (c.header, c.bodyEntry) = trips ↔ sc.lowBits bound ≤
          (sc.lowBits start + trips * c.step.toUInt64.toNat) % 2 ^ min sc.bits 64) ∧
        (c.bodyEntry ≠ c.header → (∀ b ∈ ((LoopForest.ofFunc f).loop i).blocks,
            c.bodyEntry ∈ f.successors b → b = c.header) →
          visits c.bodyEntry tr = tr.count (c.header, c.bodyEntry)) := by
  have hil : IsLoop (.ofFunc f) ((LoopForest.ofFunc f).loop i) :=
    LoopForest.isLoop_loop (FlowGraph.coherent_ofFunc f) hi
  have hc := isCounted_of_recognize hrec
  have hd := Func.isDeclaration_of_live (live_of_mem hil hil.header_mem)
  have hf := Func.wellFormed_of_verify hd hv
  have hty := Func.wellTyped_of_verify hd hv
  generalize (LoopForest.ofFunc f).loop i = l at *
  obtain ⟨start, bound, hstart, hbound, hsteps⟩ := tripCount_eq_constant htrips
  have hlive := live_of_mem hil hil.header_mem
  have hcond := Func.mem_body_of_code (cond_mem_code hf hil hc)
  have hts : f.tyOf c.start = (f.inst c.induction).ty :=
    hty.tyOf_incoming hlive (Func.mem_body_of_phis (induction_mem hc)) hc.start_eq
  have htb : f.tyOf c.bound = (f.inst c.induction).ty :=
    (hty.tyOf_icmp hlive hcond hc.cond_op).symm.trans (f.tyOf_inst c.induction)
  obtain ⟨sc, hsc, _⟩ := hty.isInteger_of_icmp hlive hcond hc.cond_op
  replace hsc : p.types.elementScalar? (f.inst c.induction).ty = some sc := by
    rw [iv, Func.tyOf_inst] at hsc
    exact hsc
  rw [hts, hsc, Option.getD_some] at hsteps
  have hstep : 0 < c.step.toUInt64.toNat := by
    have := hc.step_pos
    rw [← toNat_toInt (Int.le_of_lt this)]
    omega
  refine ⟨sc, start, bound, hts ▸ hsc, hstart, hbound, bound_le_of_lt_range hstep hsteps, ?_⟩
  intro limit args cs m n s t u v tr hn hs ht htour hj
  rw [hc.header_eq] at hj ⊢
  have hlap := (onLap hf hil hc hn hs ht hty hsc htour).frame hj.before
  have htest := hlap.onTour
  rw [if_pos hj.source] at htest
  obtain ⟨_, hpasses⟩ := htest.passes_iff hf hc hsc hj.source hj.enters
  -- The values of start and bound are the literals.
  have passes : ∀ j, Passes p.types f args c sc t.frame j ↔
      (sc.lowBits start + j * c.step.toUInt64.toNat) % 2 ^ min sc.bits 64 < sc.lowBits bound := by
    intro j
    simp only [Passes, Func.value_of_intLiteral hstart, Func.value_of_intLiteral hbound, hts, htb,
      hsc, Option.map_some, Option.some.injEq, Datum.int.injEq]
    constructor
    · rintro ⟨_, _, rfl, rfl, hlt⟩
      rwa [Scalar.lowBits_normalize, Scalar.lowBits_normalize] at hlt
    · intro hlt
      refine ⟨_, _, rfl, rfl, ?_⟩
      rwa [Scalar.lowBits_normalize, Scalar.lowBits_normalize]
  have hcount := count_eq_iff hstep (Nat.le_of_lt (sc.lowBits_lt bound)) hsteps
    (fun j hj => (passes j).mp (hlap.passes j hj))
    (Nat.le_of_not_lt fun hlt => bodyEntry_ne_exit hc (hpasses.mpr ((passes _).mpr hlt)).symm)
  refine ⟨hcount.1, hcount.2, fun hne honly => ?_⟩
  rw [visits, List.count_eq_countP]
  refine List.countP_congr fun e he => ?_
  rw [decide_eq_true_iff, beq_iff_eq]
  constructor
  · intro hb
    rcases hlap.edges e he with rfl | rfl | ⟨hmem, hout, hsucc⟩
    · exact absurd hb.symm hne
    · rfl
    · exact absurd (honly _ hmem (hb ▸ hsucc)) hout
  · rintro rfl
    rfl

/-! ## Counting a byte up to a bound -/

/-- The start of a run of `countFunc`, the state in which it leaves the loop, and the one after. -/
def countExit (start bound step : Int64) (n : Nat) :
    Option (State × List (BlockId × BlockId) × State × State) := do
  let (s, tr, u) ← countRun start bound step n
  let v ← (Machine.step (countProgram start bound step) 1000 u).state?
  guard (isJump u v && u.frame.block == 1 && v.frame.block == 3)
  return (s, tr, u, v)

theorem tour_of_countExit {start bound step : Int64} {n : Nat} {s u v : State}
    {tr : List (BlockId × BlockId)} (h : countExit start bound step n = some (s, tr, u, v)) :
    invoke (countProgram start bound step) 1000 (countFunc start bound step) [] [] .empty 0 =
        .next s ∧
      Tour (countProgram start bound step) 1000 [] ⟨1, [2], [1, 2]⟩ s tr u ∧
      Jumps (countProgram start bound step) 1000 [] 1 3 u v := by
  unfold countExit at h
  obtain ⟨⟨s', tr', u'⟩, hrun, h⟩ := Option.bind_eq_some_iff.mp h
  obtain ⟨v', hv, h⟩ := Option.bind_eq_some_iff.mp h
  obtain ⟨_, hj, h⟩ := Option.bind_eq_some_iff.mp h
  cases h
  obtain ⟨hs, htour⟩ := tour_of_countRun hrun
  have hj : isJump u v = true ∧ u.frame.block = 1 ∧ v.frame.block = 3 := by
    simpa [guard, and_assoc] using hj
  obtain ⟨a, b, hab⟩ :=
    (jumps_iff (step_eq_next_iff.mp (Transition.state?_eq_some.mp hv))).mpr hj.1
  obtain rfl : 1 = a := hj.2.1.symm.trans hab.source
  obtain rfl : 3 = b := hj.2.2.symm.trans hab.target
  exact ⟨hs, htour, hab⟩

/-- From 5 by tens up to 50, a byte does not wrap around: five laps, as often as predicted. -/
theorem constant_trips_iff_countFunc : (countLoop 10).tripCount? countTypes (countFunc 5 50 10)
      (.ofGraph (.ofFunc (countFunc 5 50 10))) ⟨1, [2], [1, 2]⟩ = some (.constant 5) ∧
    ∃ s tr u v, invoke (countProgram 5 50 10) 1000 (countFunc 5 50 10) [] [] .empty 0 = .next s ∧
      Tour (countProgram 5 50 10) 1000 [] ⟨1, [2], [1, 2]⟩ s tr u ∧
      Jumps (countProgram 5 50 10) 1000 [] 1 3 u v ∧ tr.count (1, 2) = 5 ∧ visits 2 tr = 5 := by
  have hsome : (countExit 5 50 10 21).isSome = true := by decide +kernel
  obtain ⟨⟨s, tr, u, v⟩, hexit⟩ := Option.isSome_iff_exists.mp hsome
  obtain ⟨hs, htour, hj⟩ := tour_of_countExit hexit
  have hloop : (LoopForest.ofFunc (countFunc 5 50 10)).loop 0 = ⟨1, [2], [1, 2]⟩ := by
    rw [LoopForest.loop, loop_countFunc]
    rfl
  have htrips : (countLoop 10).tripCount? countTypes (countFunc 5 50 10)
      (.ofGraph (.ofFunc (countFunc 5 50 10))) ⟨1, [2], [1, 2]⟩ = some (.constant 5) := by
    decide +kernel
  obtain ⟨sc, start, bound, hsc, hstart, hbound, hwrap, hall⟩ :=
    constant_trips_iff (p := countProgram 5 50 10) (verify_countFunc 5 50 10) (i := 0)
      (by rw [LoopForest.ids, loop_countFunc]; decide) (c := countLoop 10)
      (by rw [hloop]; decide +kernel) (by rw [hloop]; exact htrips)
  cases hsc
  cases hstart
  cases hbound
  rw [hloop] at hall
  obtain ⟨_, hiff, hvisits⟩ :=
    hall 1000 [] [] .empty 0 s s u v tr (Nat.zero_le _) hs .refl htour hj
  have hcount := hiff.mpr (hwrap (by decide))
  exact ⟨htrips, s, tr, u, v, hs, htour, hj, hcount, (hvisits (by decide) (by decide)).trans hcount⟩

/-- From 0 by hundreds up to 201, a byte wraps around: the trip count is 3, and there are five
laps. -/
theorem trips_of_wrapping_countFunc : (countFunc 0 201 100).verify countTypes = .ok () ∧
    (LoopForest.ofFunc (countFunc 0 201 100)).loops = #[⟨1, [2], [1, 2]⟩] ∧
    recognize (countFunc 0 201 100) (.ofFunc (countFunc 0 201 100))
      (.ofGraph (.ofFunc (countFunc 0 201 100))) ⟨1, [2], [1, 2]⟩ = .ok (countLoop 100) ∧
    (countLoop 100).tripCount? countTypes (countFunc 0 201 100)
      (.ofGraph (.ofFunc (countFunc 0 201 100))) ⟨1, [2], [1, 2]⟩ = some (.constant 3) ∧
    ∃ s tr u v, invoke (countProgram 0 201 100) 1000 (countFunc 0 201 100) [] [] .empty 0 = .next s ∧
      Tour (countProgram 0 201 100) 1000 [] ⟨1, [2], [1, 2]⟩ s tr u ∧
      Jumps (countProgram 0 201 100) 1000 [] 1 3 u v ∧ visits 2 tr = 5 := by
  have hvisits : (countExit 0 201 100 21).map (fun (_, tr, _) => visits 2 tr) = some 5 := by
    decide +kernel
  obtain ⟨⟨s, tr, u, v⟩, hexit, hvisits⟩ := Option.map_eq_some_iff.mp hvisits
  obtain ⟨hs, htour, hj⟩ := tour_of_countExit hexit
  exact ⟨verify_countFunc _ _ _, loop_countFunc _ _ _, by decide +kernel, by decide +kernel, s, tr, u,
    v, hs, htour, hj, hvisits⟩

end CountedLoop

end LoopNest
