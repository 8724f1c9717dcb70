import LoopNest.Proofs.Loop.Laps
import LoopNest.Proofs.Machine.Activations

/-!
# Counted loops count

A *tour* of a loop is what an activation does from entering the loop until it leaves it, with the
edges that it follows (`Machine.Tour`).  Blocks of the loop may branch, hold more loops, and call
functions.

A counted loop is recognised by its syntax.  `CountedLoop.OnTour` is what that means for the frame
of an activation on a tour that has come back to the header `k` times: start and bound have the
values that they had before the tour, and the induction value is `k` steps ahead of the start, up
to the range of its type.  Results may be left over from earlier tours and laps, so it also says
that the exit test and the sum in the latch are fresh in their blocks (`Frame.Fresh`).  Each of the
three things that a frame can go through keeps it: `OnTour.of_enters`, `OnTour.records` and
`OnTour.enters`.

`CountedLoop.tours_count` is the result for whole runs.
-/

namespace LoopNest

/-- A datum that is a number ahead of another one, up to the range of a type.  Data that are not
integers are ahead of nothing. -/
def Datum.Ahead (s : Scalar) (n : Nat) (d e : Datum) : Prop :=
  (∃ x y, d = .int x ∧ e = .int y ∧ s.lowBits y = (s.lowBits x + n) % 2 ^ min s.bits 64) ∨
    (∀ x, d ≠ .int x) ∧ n = 0 ∧ e = d

theorem Datum.ahead_zero (s : Scalar) (d : Datum) : d.Ahead s 0 d := by
  cases d with
  | int x =>
    exact .inl ⟨x, x, rfl, rfl, (Nat.mod_eq_of_lt (s.lowBits_lt x)).symm⟩
  | _ => exact .inr ⟨fun _ => Datum.noConfusion, rfl, rfl⟩

/-- An integer that is a number further ahead. -/
theorem Datum.Ahead.add {s : Scalar} {n : Nat} {d : Datum} {y z v : Int64}
    (h : d.Ahead s n (.int y)) (hz : s.lowBits z = s.lowBits (y + v)) :
    d.Ahead s (n + v.toUInt64.toNat) (.int z) := by
  rcases h with ⟨x, y', hx, hy, hlow⟩ | ⟨hd, _, he⟩
  · cases hy
    refine .inl ⟨x, z, hx, rfl, ?_⟩
    have hv : s.lowBits v % 2 ^ min s.bits 64 = v.toUInt64.toNat % 2 ^ min s.bits 64 :=
      Nat.mod_mod_of_dvd _ (Nat.pow_dvd_pow 2 (Nat.min_le_left _ _))
    rw [hz, Scalar.lowBits_add_mod, hlow, Nat.mod_add_mod, ← Nat.add_mod_mod, hv, Nat.add_mod_mod,
      Nat.add_assoc]
  · exact absurd he.symm (hd y)

/-- A comparison that gives one truth value compares two integers. -/
theorem IntPredicate.ints_of_bool {pred : IntPredicate} {s : Scalar} {a b : Datum} {taken : Bool}
    (h : lanewise (pred.apply s) a b = .ok (.bool taken)) :
    ∃ x y, a = .int x ∧ b = .int y ∧ taken = pred.holds s x y := by
  have single : pred.apply s a b = .ok (.bool taken) →
      ∃ x y, a = .int x ∧ b = .int y ∧ taken = pred.holds s x y := by
    intro h
    obtain ⟨x, hx, h⟩ := bind_eq_ok_iff.mp h
    obtain ⟨y, hy, h⟩ := bind_eq_ok_iff.mp h
    cases h
    exact ⟨x, y, Datum.asInt_eq_ok.mp hx, Datum.asInt_eq_ok.mp hy, rfl⟩
  cases a with
  | vector xs =>
    cases b with
    | vector ys =>
      obtain ⟨_, _, h⟩ := bind_eq_ok_iff.mp h
      cases h
    | _ => exact single h
  | _ => exact single h

namespace CountedLoop

/-! ## Frames on a tour -/

section

variable (tt : TypeTable) (f : Func) (args : List Datum) (l : NaturalLoop) (c : CountedLoop)
  (sc : Scalar)

/-- A frame of an activation in a loop that it entered from the frame `fr₀`, after coming back to
the header `k` times. -/
structure OnTour (fr₀ : Frame) (k : Nat) (fr : Frame) : Prop where
  within : fr.Within f args
  mem : fr.block ∈ l.blocks
  start_eq : f.value tt args fr.values c.start = f.value tt args fr₀.values c.start
  bound_eq : f.value tt args fr.values c.bound = f.value tt args fr₀.values c.bound
  ahead : ∃ d e, f.value tt args fr₀.values c.start = some d ∧ fr.values c.induction = some e ∧
    d.Ahead sc (k * c.step.toUInt64.toNat) e
  cond_fresh : fr.block = l.header → fr.Fresh tt c.cond
  next_fresh : fr.block = c.latch → fr.Fresh tt c.next

end

variable {tt : TypeTable} {f : Func} {args : List Datum} {l : NaturalLoop} {c : CountedLoop}
  {sc : Scalar} {fr₀ fr fr' : Frame} {k : Nat} {b : BlockId}

theorem cond_isPure (hc : IsCounted f l c) : (f.op c.cond).isPure = true := by
  rw [hc.cond_op]
  rfl

theorem next_isPure (hc : IsCounted f l c) : (f.op c.next).isPure = true := by
  obtain ⟨a, b, hop, _⟩ := op_of_addedConstant? hc.next_op
  rw [hop]
  rfl

theorem induction_mem (hc : IsCounted f l c) : c.induction ∈ f.phis l.header :=
  hc.phis_eq ▸ List.mem_singleton_self _

/-- What is invariant is computed in no block of the loop. -/
theorem owner_ne_of_invariant {v : Operand} (hv : l.Invariant f v) (hb : b ∈ l.blocks) (j : InstId)
    (hj : v = .inst j) : f.owner j ≠ some b := by
  subst hj
  obtain ⟨d, hd, hout, _⟩ := hv
  rw [hd]
  exact fun heq => hout (Option.some.inj heq ▸ hb)

theorem not_mem_phis_of_invariant (hf : f.WellFormed) (hl : IsLoop (.ofFunc f) l) {v : Operand}
    (hv : l.Invariant f v) (hb : b ∈ l.blocks) (j : InstId) (hj : v = .inst j) : j ∉ f.phis b :=
  fun hmem => owner_ne_of_invariant hv hb j hj
    (hf.owner_eq b (live_of_mem hl hb) j (Func.mem_body_of_phis hmem))

/-- The operands of the exit test and of the sum in the latch are the induction value and what is
invariant. -/
theorem operands_of_counts (hc : IsCounted f l c) {i : InstId} (hi : i = c.cond ∨ i = c.next) :
    ∀ v ∈ (f.op i).operands, v = c.iv ∨ l.Invariant f v := by
  intro v hv
  rcases hi with rfl | rfl
  · rw [hc.cond_op] at hv
    rcases List.mem_pair.mp hv with rfl | rfl
    · exact .inl rfl
    · exact .inr hc.bound_inv
  · have invariant : ∀ {w : Operand} {n : Int64}, f.intLiteral? w = some n → l.Invariant f w := by
      intro w n hw
      cases w with
      | inst j => cases hw
      | _ => trivial
    obtain ⟨a, b, hop, hor⟩ := op_of_addedConstant? hc.next_op
    rw [hop] at hv
    rcases List.mem_pair.mp hv with rfl | rfl <;> rcases hor with ⟨rfl, hlit⟩ | ⟨rfl, hlit⟩
    · exact .inl rfl
    · exact .inr (invariant hlit)
    · exact .inr (invariant hlit)
    · exact .inl rfl

section

variable (hf : f.WellFormed) (hl : IsLoop (.ofFunc f) l) (hc : IsCounted f l c)
include hf hl hc

/-- Entering the loop. -/
theorem OnTour.of_enters (h₀ : fr₀.Within f args) (hpre : fr₀.block = c.preheader)
    (he : fr₀.Enters tt l.header fr) : OnTour tt f args l c sc fr₀ 0 fr := by
  obtain ⟨hw, _, hready, _, hblock, _, hvalues⟩ := h₀.enters hf he
  have hiv := induction_mem hc
  obtain ⟨d, hd⟩ := Option.isSome_iff_exists.mp (hready c.induction hiv)
  have hstart : f.value tt args fr₀.values c.start = some d := by
    rw [phiValue, hpre, Option.bind_some, hc.start_eq] at hd
    exact hd
  refine ⟨hw, hblock ▸ hl.header_mem, ?_, ?_, ⟨d, d, hstart, ?_, ?_⟩, fun hb => ?_, fun hb => ?_⟩
  · exact h₀.value_of_enters hf he (not_mem_phis_of_invariant hf hl hc.start_inv hl.header_mem)
  · exact h₀.value_of_enters hf he (not_mem_phis_of_invariant hf hl hc.bound_inv hl.header_mem)
  · rw [hvalues, entered, if_pos hiv, hd]
  · rw [Nat.zero_mul]
    exact d.ahead_zero sc
  · exact h₀.fresh_of_enters hf he hc.cond_owner (cond_isPure hc)
  · exact h₀.fresh_of_enters hf he (hblock.symm.trans hb ▸ hc.next_owner) (next_isPure hc)

omit hl in
/-- Executing an instruction in the loop. -/
theorem OnTour.records (h : OnTour tt f args l c sc fr₀ k fr) (hr : fr.Records tt fr') :
    OnTour tt f args l c sc fr₀ k fr' := by
  have hw := h.within
  have outside : ∀ {v}, l.Invariant f v → ∀ j, v = .inst j →
      f.owner j ≠ some fr.block ∨ (f.op j).isPhi = true := fun hv j hj =>
    .inl (owner_ne_of_invariant hv h.mem j hj)
  have phi : ∀ j, c.iv = .inst j → f.owner j ≠ some fr.block ∨ (f.op j).isPhi = true := by
    rintro j ⟨⟩
    exact .inr (Func.isPhi_of_mem_phis (induction_mem hc))
  obtain ⟨hblock, hstart⟩ := hw.value_of_records hf hr (outside hc.start_inv)
  obtain ⟨_, hbound⟩ := hw.value_of_records hf hr (outside hc.bound_inv)
  obtain ⟨_, hiv⟩ := hw.value_of_records hf hr phi
  have fresh : ∀ {i}, (i = c.cond ∨ i = c.next) → (f.op i).isPure = true → fr.Fresh tt i →
      fr'.Fresh tt i := by
    intro i hi hpure hfresh
    refine hw.fresh_of_records hf hr hpure (fun v hv => ?_) hfresh
    rcases operands_of_counts hc hi v hv with rfl | hinv
    · exact phi
    · exact outside hinv
  obtain ⟨d, e, hd, he, hahead⟩ := h.ahead
  refine ⟨hw.records hf hr, hblock ▸ h.mem, hstart.trans h.start_eq, hbound.trans h.bound_eq,
    ⟨d, e, hd, hiv.trans he, hahead⟩, fun hb => ?_, fun hb => ?_⟩
  · exact fresh (.inl rfl) (cond_isPure hc) (h.cond_fresh (hblock ▸ hb))
  · exact fresh (.inr rfl) (next_isPure hc) (h.next_fresh (hblock ▸ hb))

variable (hty : f.WellTyped tt) (hsc : tt.elementScalar? (f.inst c.induction).ty = some sc)
include hty hsc

omit hl in
/-- At the end of the latch, the sum is one step further ahead. -/
theorem OnTour.ahead_next (h : OnTour tt f args l c sc fr₀ k fr) (hb : fr.block = c.latch)
    (hpending : fr.pending = []) {e : Datum} (he : fr.values c.next = some e) :
    ∃ d, f.value tt args fr₀.values c.start = some d ∧
      d.Ahead sc ((k + 1) * c.step.toUInt64.toNat) e := by
  have hw := h.within
  obtain ⟨hlive, hlisted⟩ := hw.mem_of_owner hf hc.next_owner he
  have hres := (h.next_fresh hb).resolve_left (hpending ▸ List.not_mem_nil) e he
  obtain ⟨a, a', hop, hor⟩ := op_of_addedConstant? hc.next_op
  obtain ⟨htyab, hta⟩ := hty.binary hlive
    (hlisted.elim Func.mem_body_of_phis Func.mem_body_of_code) hop
  rw [hw.func_eq, hop] at hres
  obtain ⟨s, x, x', hs, hx, hx', hlane⟩ := lanewise_of_pureResult hres
  rw [hw.value_eq] at hx hx'
  -- One operand is the induction value, the other one the literal.
  have hiv : f.tyOf c.iv = (f.inst c.induction).ty := f.tyOf_inst c.induction
  obtain ⟨d, y, hd, hy, hahead⟩ := h.ahead
  refine ⟨d, hd, ?_⟩
  rcases BinaryOp.ints_or_none (rfl : BinaryOp.add.isFloat = false) hlane with ⟨m, n, z, rfl, rfl, rfl, hz⟩ | ⟨hm, hn, _⟩
  · have hsum : s.lowBits z = s.lowBits (m + n) := by
      obtain rfl : s.normalize (m + n) = z := Except.ok.inj hz
      exact Scalar.lowBits_normalize s _
    rw [Nat.add_mul, Nat.one_mul]
    rcases hor with ⟨rfl, hlit⟩ | ⟨rfl, hlit⟩
    · obtain rfl : s = sc := Option.some.inj ((hs.symm.trans hta.symm).trans (hiv ▸ hsc))
      obtain rfl : y = .int m := Option.some.inj (hy.symm.trans hx)
      rw [Func.value_of_intLiteral hlit, ← htyab, hiv, hsc] at hx'
      cases hx'
      refine hahead.add (hsum.trans ?_)
      exact Scalar.lowBits_add_congr rfl (Scalar.lowBits_normalize _ _)
    · obtain rfl : s = sc := Option.some.inj ((hs.symm.trans (htyab ▸ hta).symm).trans (hiv ▸ hsc))
      obtain rfl : y = .int n := Option.some.inj (hy.symm.trans hx')
      rw [Func.value_of_intLiteral hlit, htyab, hiv, hsc] at hx
      cases hx
      refine hahead.add (hsum.trans ?_)
      rw [Int64.add_comm]
      exact Scalar.lowBits_add_congr rfl (Scalar.lowBits_normalize _ _)
  · rcases hor with ⟨rfl, hlit⟩ | ⟨rfl, hlit⟩
    · rw [Func.value_of_intLiteral hlit, ← htyab, hiv, hsc] at hx'
      exact absurd (Option.some.inj hx').symm (hn _)
    · rw [Func.value_of_intLiteral hlit, htyab, hiv, hsc] at hx
      exact absurd (Option.some.inj hx).symm (hm _)

/-- Going to a block of the loop. -/
theorem OnTour.enters (h : OnTour tt f args l c sc fr₀ k fr) (he : fr.Enters tt b fr')
    (hb : b ∈ l.blocks) :
    OnTour tt f args l c sc fr₀ (if b = l.header then k + 1 else k) fr' := by
  have hw := h.within
  obtain ⟨hw', ⟨_, _, hpending, _⟩, hready, hedge, hblock, _, hvalues⟩ := hw.enters hf he
  refine ⟨hw', hblock ▸ hb, ?_, ?_, ?_, fun heq => ?_, fun heq => ?_⟩
  · exact (hw.value_of_enters hf he (not_mem_phis_of_invariant hf hl hc.start_inv hb)).trans h.start_eq
  · exact (hw.value_of_enters hf he (not_mem_phis_of_invariant hf hl hc.bound_inv hb)).trans h.bound_eq
  · by_cases hbh : b = l.header
    · subst hbh
      have hlatch : fr.block = c.latch :=
        eq_latch hl hc h.mem ((FlowGraph.edge_ofFunc f _ _).mp hedge).2.2
      have hiv := induction_mem hc
      obtain ⟨e, hphi⟩ := Option.isSome_iff_exists.mp (hready c.induction hiv)
      have hnext : fr.values c.next = some e := by
        rw [phiValue, hlatch, Option.bind_some, hc.next_eq] at hphi
        exact hphi
      obtain ⟨d, hd, hahead⟩ := h.ahead_next hf hc hty hsc hlatch hpending hnext
      refine ⟨d, e, hd, ?_, by rwa [if_pos rfl]⟩
      rw [hvalues, entered, if_pos hiv, hphi]
    · obtain ⟨d, e, hd, hiv, hahead⟩ := h.ahead
      refine ⟨d, e, hd, ?_, by rwa [if_neg hbh]⟩
      rw [hvalues, entered_of_not_mem, hiv]
      intro hmem
      have hown := hf.owner_eq b (live_of_mem hl hb) _ (Func.mem_body_of_phis hmem)
      have hown' := hf.owner_eq _ (live_of_mem hl hl.header_mem) _
        (Func.mem_body_of_phis (induction_mem hc))
      exact hbh (Option.some.inj (hown.symm.trans hown'))
  · exact hw.fresh_of_enters hf he (hblock.symm.trans heq ▸ hc.cond_owner) (cond_isPure hc)
  · exact hw.fresh_of_enters hf he (hblock.symm.trans heq ▸ hc.next_owner) (next_isPure hc)

omit hl hty in
/-- The header goes on in the loop when the induction value is below the bound. -/
theorem OnTour.test (h : OnTour tt f args l c sc fr₀ k fr) (hb : fr.block = l.header)
    (he : fr.Enters tt b fr') : ∃ x y, fr.values c.induction = some (.int x) ∧
      f.value tt args fr₀.values c.bound = some (.int y) ∧
      b = if sc.lowBits x < sc.lowBits y then c.bodyEntry else c.exit := by
  have hw := h.within
  obtain ⟨_, ⟨t, ht, hpending, hleaves⟩, _⟩ := hw.enters hf he
  obtain ⟨t', ht', hop⟩ := hc.exitBranch
  obtain rfl : t = t' := Option.some.inj ((hb ▸ ht).symm.trans ht')
  rw [hop] at hleaves
  obtain ⟨taken, hcond, hto⟩ : ∃ taken, fr.values c.cond = some (.bool taken) ∧
      b = if taken then c.bodyEntry else c.exit := by
    cases hleaves with
    | condBr hv => exact ⟨_, hv, rfl⟩
  have hres := (h.cond_fresh hb).resolve_left (hpending ▸ List.not_mem_nil) _ hcond
  rw [hw.func_eq, hc.cond_op, hw.value_eq] at hres
  have hsc' : tt.elementScalar? (f.tyOf c.iv) = some sc := by
    rw [iv, Func.tyOf_inst]
    exact hsc
  obtain ⟨d, e, _, hiv, _⟩ := h.ahead
  have hiv' : f.value tt args fr.values c.iv = some e := hiv
  simp only [pureResult, hsc', hiv', h.bound_eq] at hres
  cases hbound : f.value tt args fr₀.values c.bound with
  | none =>
    rw [hbound] at hres
    cases hres
  | some d' =>
    rw [hbound] at hres
    obtain ⟨x, y, rfl, rfl, htaken⟩ := IntPredicate.ints_of_bool (toOption_eq_some.mp hres)
    refine ⟨x, y, hiv, rfl, ?_⟩
    rw [hto, htaken]
    simp [IntPredicate.holds]

omit hty hsc in
/-- The loop is left from its header, and not by a return. -/
theorem OnTour.leaves (h : OnTour tt f args l c sc fr₀ k fr) : (∀ {fr'}, fr.Enters tt b fr' →
    b ∉ l.blocks → fr.block = l.header ∧ b = c.exit) ∧
    ∀ {i rest d}, fr.rest = i :: rest → ¬ Leaves (fr.value tt) (fr.func.op i) (.ret d) := by
  have hw := h.within
  refine ⟨fun he hb => ?_, fun {i rest d} hrest hl' => ?_⟩
  · obtain ⟨_, _, _, hedge, _⟩ := hw.enters hf he
    exact (mem_of_successor hc h.mem ((FlowGraph.edge_ofFunc f _ _).mp hedge).2.2).resolve_left hb
  · have hmem := hw.mem_body (hrest ▸ List.mem_cons_self)
    rw [hw.func_eq] at hl'
    have ht := hf.terminator_eq _ hw.live _ hmem hl'.isTerminator
    obtain ⟨x, hx⟩ := List.exists_mem_of_ne_nil _ (successors_ne_nil hl hc h.mem)
    rw [Func.mem_successors_iff ht] at hx
    generalize f.op i = op at hx hl'
    cases hl' <;> exact absurd hx List.not_mem_nil

end

end CountedLoop

/-! ## Tours -/

namespace Machine

variable {p : Program} {limit : Nat} {cs : List Caller} {s t u v : State} {l : NaturalLoop}
  {tr : List (BlockId × BlockId)}

/-- An activation that jumped from the state `t` into a loop and is still there: it stays in the
loop, or in a function that it called from there.  The edges that it followed are listed, the
latest first. -/
inductive Tour (p : Program) (limit : Nat) (cs : List Caller) (l : NaturalLoop) (t : State) :
    List (BlockId × BlockId) → State → Prop where
  /-- It has just entered the loop. -/
  | enter {a b : BlockId} {u : State} : Jumps p limit cs a b t u → a ∉ l.blocks → b ∈ l.blocks →
      Tour p limit cs l t [(a, b)] u
  /-- It makes a step inside of a block. -/
  | stay {tr : List (BlockId × BlockId)} {u v : State} : Tour p limit cs l t tr u →
      Advances p limit u v → Alive cs v → (∀ a b, ¬ Jumps p limit cs a b u v) →
      Tour p limit cs l t tr v
  /-- It goes on to a block of the loop. -/
  | jump {tr : List (BlockId × BlockId)} {a b : BlockId} {u v : State} :
      Tour p limit cs l t tr u → Jumps p limit cs a b u v → b ∈ l.blocks →
      Tour p limit cs l t ((a, b) :: tr) v

/-- How often a block was entered along some edges. -/
def visits (b : BlockId) (tr : List (BlockId × BlockId)) : Nat := tr.countP fun e => e.2 = b

theorem Tour.alive (h : Tour p limit cs l t tr u) : Alive cs u := by
  cases h with
  | enter hj _ _ => exact Nat.le_of_eq (congrArg List.length hj.after.symm)
  | stay _ _ hal _ => exact hal
  | jump _ hj _ => exact Nat.le_of_eq (congrArg List.length hj.after.symm)

/-- The activation runs when it enters the loop. -/
theorem Tour.before (h : Tour p limit cs l t tr u) : t.callers = cs := by
  induction h with
  | enter hj _ _ => exact hj.before
  | stay _ _ _ _ ih => exact ih
  | jump _ _ _ ih => exact ih

theorem Tour.reaches (h : Tour p limit cs l t tr u) : Reaches p limit (Alive cs) t u := by
  induction h with
  | enter hj _ _ =>
    exact .snoc .refl (Nat.le_of_eq (congrArg List.length hj.before.symm)) hj.advances
  | stay h ha _ _ ih => exact ih.snoc h.alive ha
  | jump h hj _ ih => exact ih.snoc h.alive hj.advances

end Machine

namespace CountedLoop

open Machine

variable {p : Program} {f : Func} {args : List Datum} {limit : Nat} {cs : List Caller}
  {s t u v : State} {l : NaturalLoop} {c : CountedLoop} {sc : Scalar}
  {tr : List (BlockId × BlockId)}

section

variable (hf : f.WellFormed) (hl : IsLoop (.ofFunc f) l) (hc : IsCounted f l c)
  {m : Memory} {n : Nat} (hn : n ≤ limit) (hs : invoke p limit f args cs m n = .next s)
  (ht : Reaches p limit (Alive cs) s t)
include hf hl hc hn hs ht

/-- A loop is entered from its preheader. -/
theorem eq_preheader_of_jumps {a b : BlockId} (hj : Jumps p limit cs a b t u) (ha : a ∉ l.blocks)
    (hb : b ∈ l.blocks) : a = c.preheader ∧ b = l.header ∧ t.frame.Within f args := by
  have hw := (held_of_reaches hf hn hs ht
    (Nat.le_of_eq (congrArg List.length hj.before.symm))).frame hj.before
  obtain ⟨_, _, _, hedge, _⟩ := hw.enters hf hj.enters
  rw [hj.source] at hedge
  have hr := hw.reachable
  rw [hj.source] at hr
  obtain ⟨hpre, hheader⟩ := eq_preheader_of_edge hl hc hr ha hb ((FlowGraph.edge_ofFunc f _ _).mp hedge).2.2
  exact ⟨hpre, hheader, hw⟩

variable (hty : f.WellTyped p.types)
  (hsc : p.types.elementScalar? (f.inst c.induction).ty = some sc)
include hty hsc

/-- The frame of an activation on a tour, and the number of times it came back to the header. -/
theorem onTour (h : Tour p limit cs l t tr u) : ∃ k, visits l.header tr = k + 1 ∧
    Held cs (OnTour p.types f args l c sc t.frame k) u := by
  induction h with
  | enter hj ha hb =>
    obtain ⟨rfl, rfl, hw⟩ := eq_preheader_of_jumps hf hl hc hn hs ht hj ha hb
    exact ⟨0, by simp [visits], .inl ⟨hj.after, .of_enters hf hl hc hw hj.source hj.enters⟩⟩
  | stay h ha hal hno ih =>
    obtain ⟨k, hk, hheld⟩ := ih
    refine ⟨k, hk, ((hheld.step ha hal).resolve_left (hno _ _)).mono ?_⟩
    rintro fr (hon | ⟨fr', hon, hr⟩)
    · exact hon
    · exact hon.records hf hc hr
  | @jump tr a b u v h hj hb ih =>
    obtain ⟨k, hk, hheld⟩ := ih
    have hon := (hheld.frame hj.before).enters hf hl hc hty hsc hj.enters hb
    refine ⟨_, ?_, .inl ⟨hj.after, hon⟩⟩
    rw [visits, List.countP_cons, ← visits, hk]
    by_cases hbh : b = l.header <;> simp [hbh]

omit hty hsc ht in
/-- An activation that is in the loop is on a tour of it. -/
theorem exists_tour (hu : Reaches p limit (Alive cs) s u) (hcs : u.callers = cs)
    (hb : u.frame.block ∈ l.blocks) :
    ∃ t tr, Reaches p limit (Alive cs) s t ∧ Tour p limit cs l t tr u := by
  have hal : Alive cs u := Nat.le_of_eq (congrArg List.length hcs.symm)
  suffices h : Held cs (·.block ∉ l.blocks) u ∨
      ∃ t tr, Reaches p limit (Alive cs) s t ∧ Tour p limit cs l t tr u from
    h.resolve_left fun hout => hout.frame hcs hb
  refine hu.invariant (motive := fun u => Alive cs u → Held cs (·.block ∉ l.blocks) u ∨
    ∃ t tr, Reaches p limit (Alive cs) s t ∧ Tour p limit cs l t tr u) ?_ ?_ hal
  · intro _
    obtain ⟨e, fr, n', hent, _, he, rfl⟩ := invoke_eq_next_iff.mp hs
    obtain ⟨_, hblock⟩ := Frame.within_of_activate hf hent hn he
    exact .inl (.inl ⟨rfl, fun hmem =>
      entry_not_mem hf.entry_predecessors hl hc hent (hblock ▸ hmem)⟩)
  · intro u v hu hal ha ih hal'
    -- Jumps enter the loop, stay in it or leave it.
    have jumps : ∀ {a b}, Jumps p limit cs a b u v → b ∉ l.blocks →
        Held cs (·.block ∉ l.blocks) v :=
      fun hj hb => .inl ⟨hj.after, fun hmem => hb (hj.target ▸ hmem)⟩
    rcases ih hal with hout | ⟨t, tr, ht, htour⟩
    · rcases hout.step ha hal' with hj | hheld
      · by_cases hb : v.frame.block ∈ l.blocks
        · exact .inr ⟨u, _, hu, .enter hj (hout.frame hj.before) hb⟩
        · exact .inl (jumps hj hb)
      · refine .inl (hheld.mono ?_)
        rintro fr (hb | ⟨_, hb, ⟨_, _, _⟩⟩)
        · exact hb
        · exact hb
    · by_cases hj : ∃ a b, Jumps p limit cs a b u v
      · obtain ⟨a, b, hj⟩ := hj
        by_cases hb : b ∈ l.blocks
        · exact .inr ⟨t, _, ht, htour.jump hj hb⟩
        · exact .inl (jumps hj hb)
      · simp only [not_exists] at hj
        exact .inr ⟨t, tr, ht, htour.stay ha hal' hj⟩

end

/-! ## Whole runs -/

/-- What holds of a running activation on a tour of a counted loop, which it entered from the state
`t`, when it has come back to the header `k` times. -/
structure Counts (p : Program) (limit : Nat) (cs : List Caller) (l : NaturalLoop) (c : CountedLoop)
    (sc : Scalar) (t : State) (k : Nat) (u : State) : Prop where
  /-- Start and bound are what they were before. -/
  start_eq : u.frame.value p.types c.start = t.frame.value p.types c.start
  bound_eq : u.frame.value p.types c.bound = t.frame.value p.types c.bound
  /-- The induction value is `k` steps ahead of the start. -/
  ahead : ∃ d e, t.frame.value p.types c.start = some d ∧ u.frame.value p.types c.iv = some e ∧
    d.Ahead sc (k * c.step.toUInt64.toNat) e
  /-- The header goes on in the loop exactly if the induction value is below the bound. -/
  test : ∀ b v, Jumps p limit cs l.header b u v → ∃ x y,
    u.frame.value p.types c.iv = some (.int x) ∧ u.frame.value p.types c.bound = some (.int y) ∧
      b = if sc.lowBits x < sc.lowBits y then c.bodyEntry else c.exit
  /-- Other jumps stay in the loop. -/
  exits : ∀ a b v, Jumps p limit cs a b u v → b ∉ l.blocks → a = l.header ∧ b = c.exit
  /-- The activation does not return. -/
  advances : ∀ v, Advances p limit u v → Alive cs v
  halts : ∀ h, Machine.step p limit u = .halt h → ∃ e, h.result = .error e

theorem counts_of_onTour (hf : f.WellFormed) (hl : IsLoop (.ofFunc f) l) (hc : IsCounted f l c)
    (hsc : p.types.elementScalar? (f.inst c.induction).ty = some sc) {k : Nat}
    (ht : t.frame.Within f args) (hcs : u.callers = cs)
    (h : OnTour p.types f args l c sc t.frame k u.frame) : Counts p limit cs l c sc t k u := by
  have hvalue : ∀ v, u.frame.value p.types v = f.value p.types args u.frame.values v :=
    congrFun h.within.value_eq
  have hvalue' : ∀ v, t.frame.value p.types v = f.value p.types args t.frame.values v :=
    congrFun ht.value_eq
  refine ⟨?_, ?_, ?_, fun b v hj => ?_, fun a b v hj hb => ?_, fun v ha => ?_, fun r hr => ?_⟩
  · rw [hvalue, hvalue', h.start_eq]
  · rw [hvalue, hvalue', h.bound_eq]
  · simp only [hvalue, hvalue']
    exact h.ahead
  · simp only [hvalue, h.bound_eq]
    exact h.test hf hc hsc hj.source hj.enters
  · obtain ⟨hh, hb⟩ := (h.leaves hf hl hc).1 hj.enters hb
    exact ⟨hj.source.symm.trans hh, hb⟩
  · subst hcs
    cases ha with
    | plain _ _ _ _ => exact Nat.le_refl _
    | jump _ _ _ _ => exact Nat.le_refl _
    | call _ _ _ _ _ _ _ _ => exact Nat.le_succ _
    | ret hrest _ hret => exact absurd hret ((h.leaves (b := 0) hf hl hc).2 hrest)
  · cases hres : r.result with
    | error e => exact ⟨e, rfl⟩
    | ok d =>
      obtain ⟨_, m, n⟩ := r
      cases hres
      obtain ⟨i, rest, hrest, _, hret, _⟩ := step_eq_halt_ok_iff.mp hr
      exact absurd hret ((h.leaves (b := 0) hf hl hc).2 hrest)

/-- A loop that is recognised as counted is counted in every activation: it is entered from its
preheader, the induction value counts up from the start by the step within the range of its type,
the header compares it with the bound, and the loop is left from there only. -/
theorem tours_count (hv : f.verify p.types = .ok ()) {i : LoopId}
    (hi : i ∈ (LoopForest.ofFunc f).ids)
    (hrec : recognize f (.ofFunc f) (.ofGraph (.ofFunc f)) ((LoopForest.ofFunc f).loop i) = .ok c)
    (hsc : p.types.elementScalar? (f.inst c.induction).ty = some sc) {m : Memory} {n : Nat}
    (hn : n ≤ limit) (hs : invoke p limit f args cs m n = .next s) :
    let l := (LoopForest.ofFunc f).loop i
    -- Whenever the activation is in the loop, it is on a tour.
    (∀ u, Reaches p limit (Alive cs) s u → u.callers = cs → u.frame.block ∈ l.blocks →
      ∃ t tr, Reaches p limit (Alive cs) s t ∧ Tour p limit cs l t tr u) ∧
    ∀ t, Reaches p limit (Alive cs) s t →
      (∀ a b u, Jumps p limit cs a b t u → a ∉ l.blocks → b ∈ l.blocks →
        a = c.preheader ∧ b = l.header) ∧
      ∀ tr u, Tour p limit cs l t tr u → ∃ k, visits l.header tr = k + 1 ∧
        (u.callers = cs → Counts p limit cs l c sc t k u) := by
  have hil := LoopForest.isLoop_loop (FlowGraph.coherent_ofFunc f) hi
  have hc := isCounted_of_recognize hrec
  have hd := Func.isDeclaration_of_live (live_of_mem hil hil.header_mem)
  have hf := Func.wellFormed_of_verify hd hv
  have hty := Func.wellTyped_of_verify hd hv
  refine ⟨fun u hu hcs hb => exists_tour hf hil hc hn hs hu hcs hb, fun t ht =>
    ⟨fun a b u hj ha hb => ?_, fun tr u htour => ?_⟩⟩
  · obtain ⟨ha, hb, _⟩ := eq_preheader_of_jumps hf hil hc hn hs ht hj ha hb
    exact ⟨ha, hb⟩
  · obtain ⟨k, hk, hheld⟩ := onTour hf hil hc hn hs ht hty hsc htour
    refine ⟨k, hk, fun hcs => ?_⟩
    have hw := (held_of_reaches hf hn hs ht (Nat.le_of_eq (congrArg List.length htour.before.symm))).frame htour.before
    exact counts_of_onTour hf hil hc hsc hw hcs (hheld.frame hcs)

end CountedLoop

/-! ## Counting a byte -/

namespace Machine

/-- Whether an outermost activation jumps in a step. -/
def isJump (u v : State) : Bool :=
  u.callers.isEmpty && v.callers.isEmpty &&
    u.frame.rest.head?.any fun i => (u.frame.func.op i).isTerminator

theorem jumps_iff {p : Program} {limit : Nat} {u v : State} (h : Advances p limit u v) :
    (∃ a b, Jumps p limit [] a b u v) ↔ isJump u v = true := by
  simp only [isJump, Bool.and_eq_true, List.isEmpty_iff, Option.any_eq_true]
  constructor
  · rintro ⟨a, b, hj⟩
    exact ⟨⟨hj.before, hj.after⟩, hj.terminator⟩
  · rintro ⟨⟨hu, hv⟩, ht⟩
    exact ⟨_, _, h, hu, hv, ht, rfl, rfl⟩

/-- The edges of a tour some steps later, with the state there, if it is not over by then. -/
def touring (p : Program) (limit : Nat) (l : NaturalLoop) :
    Nat → List (BlockId × BlockId) → State → Option (List (BlockId × BlockId) × State)
  | 0, tr, u => some (tr, u)
  | n + 1, tr, u => do
    let v ← (step p limit u).state?
    if isJump u v then
      guard (l.contains v.frame.block)
      touring p limit l n ((u.frame.block, v.frame.block) :: tr) v
    else touring p limit l n tr v

theorem tour_of_touring {p : Program} {limit : Nat} {l : NaturalLoop} {t : State} :
    ∀ {n : Nat} {tr tr' : List (BlockId × BlockId)} {u v : State}, Tour p limit [] l t tr u →
      touring p limit l n tr u = some (tr', v) → Tour p limit [] l t tr' v
  | 0, tr, tr', u, v, h, hn => by
    cases hn
    exact h
  | n + 1, tr, tr', u, v, h, hn => by
    unfold touring at hn
    obtain ⟨w, hw, hn⟩ := Option.bind_eq_some_iff.mp hn
    have ha := step_eq_next_iff.mp (Transition.state?_eq_some.mp hw)
    split at hn
    · next hj =>
      obtain ⟨_, hmem, hn⟩ := Option.bind_eq_some_iff.mp hn
      have hmem : w.frame.block ∈ l.blocks := by simpa [guard, NaturalLoop.contains] using hmem
      obtain ⟨a, b, hj⟩ := (jumps_iff ha).mpr hj
      obtain rfl := hj.source
      obtain rfl := hj.target
      exact tour_of_touring (h.jump hj hmem) hn
    · next hj =>
      exact tour_of_touring (h.stay ha (Nat.zero_le _) fun a b hab => hj ((jumps_iff ha).mp ⟨a, b, hab⟩))
        hn

end Machine

/-- Void, bytes and truth values. -/
def countTypes : TypeTable :=
  ⟨#[⟨none, .void⟩, ⟨none, .scalar ⟨.uint, 1⟩⟩, ⟨none, .scalar .bool⟩]⟩

/-- Counts an unsigned byte, from a start by a step while it is below a bound. -/
def countFunc (start bound step : Int64) : Func where
  name := "count"
  params := #[]
  ret := 0
  blocks := #[⟨"entry", [0], false⟩, ⟨"header", [1, 2, 3], false⟩, ⟨"latch", [4, 5], false⟩,
    ⟨"exit", [6], false⟩]
  insts := #[⟨.br 1, 0, none, some 0⟩, ⟨.phi [(.const 0, 0), (.inst 4, 2)], 1, none, some 1⟩,
    ⟨.icmp .ult (.inst 1) (.const 1), 2, none, some 1⟩, ⟨.condBr (.inst 2) 2 3, 0, none, some 1⟩,
    ⟨.binary .add (.inst 1) (.const 2), 1, none, some 2⟩, ⟨.br 1, 0, none, some 2⟩,
    ⟨.ret none, 0, none, some 3⟩]
  constants := #[⟨1, .int start⟩, ⟨1, .int bound⟩, ⟨1, .int step⟩]
  layout := [0, 1, 2, 3]

/-- A program of `countFunc` alone. -/
def countProgram (start bound step : Int64) : Program := ⟨countTypes, #[countFunc start bound step]⟩

/-- The loop of `countFunc`, and what it is recognised as. -/
def countLoop (step : Int64) : CountedLoop := ⟨0, 1, 2, 3, [], 2, 1, .const 0, .const 1, step, 2, 4⟩

namespace Machine

/-- The start of a run of `countFunc`, and a state on its tour of the loop. -/
def countRun (start bound step : Int64) (n : Nat) :
    Option (State × List (BlockId × BlockId) × State) := do
  let p := countProgram start bound step
  let s ← (invoke p 1000 (countFunc start bound step) [] [] .empty 0).state?
  let u ← (Machine.step p 1000 s).state?
  guard (isJump s u && s.frame.block == 0 && u.frame.block == 1)
  let (tr, v) ← touring p 1000 ⟨1, [2], [1, 2]⟩ n [(0, 1)] u
  return (s, tr, v)

theorem tour_of_countRun {start bound step : Int64} {n : Nat} {s v : State}
    {tr : List (BlockId × BlockId)} (h : countRun start bound step n = some (s, tr, v)) :
    invoke (countProgram start bound step) 1000 (countFunc start bound step) [] [] .empty 0 =
        .next s ∧
      Tour (countProgram start bound step) 1000 [] ⟨1, [2], [1, 2]⟩ s tr v := by
  unfold countRun at h
  obtain ⟨s', hs, h⟩ := Option.bind_eq_some_iff.mp h
  obtain ⟨u, hu, h⟩ := Option.bind_eq_some_iff.mp h
  obtain ⟨_, hj, h⟩ := Option.bind_eq_some_iff.mp h
  obtain ⟨⟨tr', v'⟩, htour, h⟩ := Option.bind_eq_some_iff.mp h
  cases h
  have ha := step_eq_next_iff.mp (Transition.state?_eq_some.mp hu)
  have hj : isJump s u = true ∧ s.frame.block = 0 ∧ u.frame.block = 1 := by
    simpa [guard, and_assoc] using hj
  obtain ⟨a, b, hab⟩ := (jumps_iff ha).mpr hj.1
  obtain rfl : 0 = a := hj.2.1.symm.trans hab.source
  obtain rfl : 1 = b := hj.2.2.symm.trans hab.target
  exact ⟨Transition.state?_eq_some.mp hs,
    tour_of_touring (.enter hab (by decide) (by decide)) htour⟩

end Machine

namespace CountedLoop

open Machine

theorem verify_countFunc (start bound step : Int64) :
    (countFunc start bound step).verify countTypes = .ok () := by cbv

theorem loop_countFunc (start bound step : Int64) :
    (LoopForest.ofFunc (countFunc start bound step)).loops = #[⟨1, [2], [1, 2]⟩] := by cbv

/-- From 0 by hundreds, a byte is worth 44 at the fourth visit of the header. -/
theorem tours_count_countFunc : ∃ s tr u,
    invoke (countProgram 0 201 100) 1000 (countFunc 0 201 100) [] [] .empty 0 = .next s ∧
    Tour (countProgram 0 201 100) 1000 [] ⟨1, [2], [1, 2]⟩ s tr u ∧ visits 1 tr = 4 ∧
    u.frame.value countTypes (.inst 1) = some (.int 44) ∧
    Counts (countProgram 0 201 100) 1000 [] ⟨1, [2], [1, 2]⟩ (countLoop 100) ⟨.uint, 1⟩ s 3 u := by
  have hrun : (countRun 0 201 100 12).map (fun (_, tr, u) => (visits 1 tr, u.callers.length,
      (u.frame.value countTypes (.inst 1)).bind fun d => d.asInt.toOption)) =
      some (4, 0, some 44) := by decide +kernel
  obtain ⟨⟨s, tr, u⟩, hrun, hend⟩ := Option.map_eq_some_iff.mp hrun
  simp only [Prod.mk.injEq, List.length_eq_zero_iff, Option.bind_eq_some_iff] at hend
  obtain ⟨hvisits, hcs, d, hd, hint⟩ := hend
  obtain rfl := Datum.asInt_eq_ok.mp (toOption_eq_some.mp hint)
  obtain ⟨hs, htour⟩ := tour_of_countRun hrun
  have hloop : (LoopForest.ofFunc (countFunc 0 201 100)).loop 0 = ⟨1, [2], [1, 2]⟩ := by
    rw [LoopForest.loop, loop_countFunc]
    rfl
  have hcount := (tours_count (p := countProgram 0 201 100) (c := countLoop 100)
    (verify_countFunc 0 201 100) (i := 0) (by rw [LoopForest.ids, loop_countFunc]; decide)
    (by rw [hloop]; decide +kernel) (rfl : countTypes.elementScalar? 1 = some ⟨.uint, 1⟩)
    (Nat.zero_le 1000) hs).2 s .refl
  rw [hloop] at hcount
  obtain ⟨k, hk, hcounts⟩ := hcount.2 tr u htour
  obtain rfl : k = 3 := Nat.succ.inj (hk.symm.trans hvisits)
  exact ⟨s, tr, u, hs, htour, hvisits, hd, hcounts hcs⟩

end CountedLoop

end LoopNest
