import LoopNest.Proofs.Machine.Accesses
import Mathlib.Logic.Relation

/-!
# Points of a run

A run of a function that makes no calls goes from *point* to point: a place in the function,
the results so far, and the regions.  Counters, limits and waiting frames are left out.
`Passes` chains moves between points, and keeps a condition on every point that is left; `Takes`
chains them and counts the accesses.

A chain of moves from the entry to a return is a run of the machine
(`Program.run_of_passes`).  Whatever the limit, the machine visits points of the chain and no
others (`Program.at_of_visits`), and a limit is the only thing that can stop it before the
return.
-/

namespace LoopNest

/-- A place in a function, with what a run has computed there. -/
structure Point where
  /-- The block. -/
  block : BlockId
  /-- The instructions of the block that are still to come. -/
  rest : List InstId
  /-- The latest result of each instruction. -/
  values : Values
  /-- The regions of the memory. -/
  regions : Array Region

section

variable (tt : TypeTable) (f : Func) (args : List Datum)

/-- One instruction is executed. -/
inductive Moves : Point → Point → Prop where
  /-- It computes a result. -/
  | plain {b : BlockId} {i : InstId} {is : List InstId} {ρ : Values} {rs rs' : Array Region}
      {d : Datum} {δ : List Chunk} : i < f.insts.size →
      Computes tt (f.value tt args ρ) f.tyOf (f.inst i).ty (f.op i) rs d δ rs' →
      Moves ⟨b, i :: is, ρ, rs⟩ ⟨b, is, ρ.set i d, rs'⟩
  /-- It enters a block. -/
  | jump {b c : BlockId} {i : InstId} {is : List InstId} {ρ : Values} {rs : Array Region} :
      Leaves (f.value tt args ρ) (f.op i) (.goto c) → (∀ j ∈ f.phis c, j < f.insts.size) →
      (∀ j ∈ f.phis c, (phiValue tt f args (some b) ρ j).isSome) →
      Moves ⟨b, i :: is, ρ, rs⟩ ⟨c, f.afterPhis c, entered tt f args (some b) c ρ, rs⟩

/-- Some moves, each from a point that meets a condition. -/
abbrev Passes (ok : Point → Prop) : Point → Point → Prop :=
  Relation.ReflTransGen fun P Q => ok P ∧ Moves tt f args P Q

/-- Some moves, with the number of loads and the number of stores among them. -/
inductive Takes : Point → Nat → Nat → Point → Prop where
  /-- None. -/
  | refl {P : Point} : Takes P 0 0 P
  /-- One more, before the others. -/
  | step {P Q R : Point} {i : InstId} {is : List InstId} {l s : Nat} : P.rest = i :: is →
      Moves tt f args P Q → Takes Q l s R →
      Takes P ((f.op i).loads + l) ((f.op i).stores + s) R

end

/-- A state of the machine that runs a function at a point, with no one waiting. -/
structure State.At (s : State) (f : Func) (args : List Datum) (P : Point) : Prop where
  frame : s.frame.At f args P.block P.rest P.values
  regions_eq : s.memory.regions = P.regions
  callers_eq : s.callers = []

section

variable {f : Func} {args : List Datum} {p : Program} {limit : Nat} {P Q : Point} {s t : State}

theorem Frame.At.past {fr : Frame} {b : BlockId} {i : InstId} {is : List InstId} {ρ : Values}
    (h : fr.At f args b (i :: is) ρ) : fr.past.At f args b is ρ :=
  ⟨h.func_eq, h.args_eq, h.size_eq, h.block_eq, Frame.rest_past h.rest_eq, h.values_eq⟩

section

variable {fr : Frame} {b : BlockId} {is : List InstId} {ρ : Values} (h : fr.At f args b is ρ)
include h

theorem Frame.At.computes {tt : TypeTable} {i : InstId} {rs rs' : Array Region} {d : Datum}
    {δ : List Chunk}
    (hc : Computes tt (f.value tt args ρ) f.tyOf (f.inst i).ty (f.op i) rs d δ rs') :
    Computes tt (fr.value tt) fr.func.tyOf (fr.func.inst i).ty (fr.func.op i) rs d δ rs' := by
  rw [h.value_eq, h.func_eq]
  exact hc

theorem Frame.At.leaves {tt : TypeTable} {i : InstId} {l : Next}
    (hl : Leaves (f.value tt args ρ) (f.op i) l) : Leaves (fr.value tt) (fr.func.op i) l := by
  rw [h.value_eq, h.func_eq]
  exact hl

end

/-! ## Moves of the machine -/

/-- Entering a block whose phis have values fails at the limit only. -/
theorem Frame.At.enter_eq_error {fr : Frame} {b c : BlockId} {is : List InstId} {ρ : Values}
    {source : Option BlockId} {steps n : Nat} {e : Fault} (h : fr.At f args b is ρ)
    (hready : ∀ i ∈ f.phis c, (phiValue p.types f args source ρ i).isSome)
    (he : fr.enter p.types limit source c steps = (.error e, n)) : e = .stepLimit limit := by
  have hvalues : ∀ (is : List InstId) (steps n : Nat),
      (∀ i ∈ is, (phiValue p.types f args source ρ i).isSome) →
      fr.phiValues p.types limit source (f.block c).name is steps = (.error e, n) →
      e = .stepLimit limit := by
    intro is
    induction is with
    | nil => exact fun _ _ _ h => by cases (Prod.mk.inj h).1
    | cons i is ih =>
      intro steps n hready hp
      obtain ⟨d, hd⟩ := Option.isSome_iff_exists.mp (hready i List.mem_cons_self)
      obtain ⟨v, hv, hd⟩ := Option.bind_eq_some_iff.mp hd
      rw [← h.value_eq, ← Frame.eval_eq_ok] at hd
      rw [Frame.phiValues, h.func_eq, hv] at hp
      simp only [hd] at hp
      split at hp
      · exact (Except.error.inj (Prod.mk.inj hp).1).symm
      · split at hp
        · cases (Prod.mk.inj hp).1
        · rename_i hrec
          cases hp
          exact ih _ _ (fun j hj => hready j (List.mem_cons_of_mem _ hj)) hrec
  simp only [Frame.enter, h.func_eq] at he
  split at he
  · rename_i hp
    cases he
    exact hvalues _ _ _ hready hp
  · cases (Prod.mk.inj he).1

/-- The machine moves as far as the limit allows. -/
theorem Moves.advances (h : Moves p.types f args P Q) : ∃ n, ∀ {limit : Nat} {s : State},
    s.At f args P → s.steps + n ≤ limit →
    ∃ t, Machine.Advances p limit s t ∧ t.At f args Q ∧ t.steps = s.steps + n := by
  cases h with
  | plain hi hc =>
    refine ⟨1, fun {limit s} hs hn => ?_⟩
    obtain ⟨fr, cs, m, k⟩ := s
    obtain ⟨hat, rfl, hcs⟩ := hs
    obtain ⟨m', hm', ha⟩ :=
      Machine.exists_advances_of_computes hat.rest_eq hn cs (hat.computes hc)
    exact ⟨_, ha, ⟨hat.past.record hi _, hm', hcs⟩, rfl⟩
  | @jump b c i is ρ rs hl hlt hready =>
    refine ⟨1 + (f.phis c).length, fun {limit s} hs hn => ?_⟩
    obtain ⟨fr, cs, m, k⟩ := s
    obtain ⟨hat, hrs, hcs⟩ := hs
    dsimp only at hat hrs hcs hn
    have hroom : k + 1 + (f.phis c).length ≤ limit := by omega
    obtain ⟨fr', he, hat'⟩ := hat.past.enter (k + 1) hlt hroom hready
    rw [← hat.block_eq] at he
    have hn' : k + 1 ≤ limit := by omega
    exact ⟨_, .jump hat.rest_eq hn' (hat.leaves hl) he, ⟨hat', hrs, hcs⟩, Nat.add_assoc k 1 _⟩

/-- A step of the machine at a point is the move from there. -/
theorem Moves.at_of_advances (h : Moves p.types f args P Q) (hs : s.At f args P)
    (ha : Machine.Advances p limit s t) : t.At f args Q := by
  cases h with
  | plain hi hc =>
    obtain ⟨fr, cs, m, k⟩ := s
    obtain ⟨hat, rfl, hcs⟩ := hs
    obtain ⟨m', hm', ha'⟩ :=
      Machine.exists_advances_of_computes hat.rest_eq ha.steps_lt.2.1 cs (hat.computes hc)
    rw [ha.functional ha']
    exact ⟨hat.past.record hi _, hm', hcs⟩
  | @jump b c i is ρ rs hl hlt hready =>
    obtain ⟨hat, hrs, hcs⟩ := hs
    dsimp only at hat hrs hcs
    have hl' := hat.leaves hl
    have hrest := hat.rest_eq
    cases ha with
    | plain hr _ hp _ =>
      cases hr.symm.trans hrest
      exact absurd ((Op.not_isTerminator_of_isPlain hp).symm.trans hl'.isTerminator) (by simp)
    | jump hr hn hl'' he =>
      cases hr.symm.trans hrest
      cases hl'.functional hl''
      obtain ⟨_, _, _, hat'⟩ := hat.past.of_enter hlt hn he
      rw [hat.block_eq] at hat'
      exact ⟨hat', hrs, hcs⟩
    | call hr _ hop _ _ _ _ _ =>
      cases hr.symm.trans hrest
      rw [hop] at hl'
      cases hl'
    | ret => cases hcs

/-- Nothing is executed beyond the limit. -/
theorem Machine.step_of_limit {i : InstId} {is : List InstId} (hrest : s.frame.rest = i :: is)
    (hlim : limit < s.steps + 1) :
    step p limit s = .halt ⟨.error (.stepLimit limit), s.memory, s.steps + 1⟩ := by
  rw [step, hrest]
  simp only [hlim, if_true]

/-- At a point with a move, the limit alone can stop the machine. -/
theorem Moves.stepLimit_of_halt (h : Moves p.types f args P Q) (hs : s.At f args P) {e : Halt}
    (he : Machine.step p limit s = .halt e) : e.result = .error (.stepLimit limit) := by
  obtain ⟨fr, cs, m, k⟩ := s
  by_cases hlim : limit < k + 1
  · obtain ⟨i, is, hrest⟩ : ∃ i is, fr.rest = i :: is := by
      cases h with
      | plain | jump => exact ⟨_, _, hs.frame.rest_eq⟩
    rw [Machine.step_of_limit hrest hlim] at he
    cases he
    rfl
  have hn : k + 1 ≤ limit := Nat.not_lt.mp hlim
  cases h with
  | plain hi hc =>
    obtain ⟨hat, rfl, hcs⟩ := hs
    obtain ⟨m', _, ha⟩ := Machine.exists_advances_of_computes hat.rest_eq hn cs (hat.computes hc)
    rw [Machine.step_eq_next_iff.mpr ha] at he
    cases he
  | jump hl hlt hready =>
    obtain ⟨hat, rfl, hcs⟩ := hs
    rw [Machine.step_cons hat.rest_eq cs m hn,
      Machine.execute_of_goto _ (hat.past.leaves hl), Machine.goto] at he
    split at he
    · cases he
    · rename_i henter
      cases he
      rw [Frame.block_past, hat.block_eq] at henter
      rw [hat.past.enter_eq_error hready henter]

/-! ## Runs -/

/-- A state that a call of a function goes through. -/
def Machine.Visits (p : Program) (limit : Nat) (f : Func) (args : List Datum) (m : Memory)
    (s : State) : Prop :=
  ∃ s₀, invoke p limit f args [] m 0 = .next s₀ ∧ Reaches p limit (fun _ => True) s₀ s

/-- The next instruction of a point returns nothing. -/
def Point.Returns (P : Point) (f : Func) : Prop := ∃ i is, P.rest = i :: is ∧ f.op i = .ret none

/-- The entry of a function, before anything is executed. -/
def Func.start (f : Func) (e : BlockId) (rs : Array Region) : Point :=
  ⟨e, f.body e, fun _ => none, rs⟩

section

variable {ok : Point → Prop}

theorem Moves.exists_rest (h : Moves p.types f args P Q) : ∃ i is, P.rest = i :: is := by
  cases h with
  | plain | jump => exact ⟨_, _, rfl⟩

theorem Takes.reaches {l k : Nat} (h : Takes p.types f args P l k Q) :
    ∃ n, ∀ {limit : Nat} {s : State}, s.At f args P → s.steps + n ≤ limit →
      ∃ t, Machine.Reaches p limit (fun _ => True) s t ∧ t.At f args Q ∧ t.steps = s.steps + n ∧
        s.memory.Counts t.memory l k := by
  induction h with
  | refl => exact ⟨0, fun {_ s} hs _ => ⟨s, .refl, hs, rfl, rfl, rfl⟩⟩
  | @step P Q R i is l k hrest hm _ ih =>
    obtain ⟨n, hn⟩ := hm.advances
    obtain ⟨n', hn'⟩ := ih
    refine ⟨n + n', fun {limit s} hs hle => ?_⟩
    have hroom : s.steps + n ≤ limit := by omega
    obtain ⟨t, hst, ht, hsteps⟩ := hn hs hroom
    have hroom' : t.steps + n' ≤ limit := by omega
    obtain ⟨u, htu, hu, hsteps', hcounts⟩ := hn' ht hroom'
    have hcount := hst.counts (hs.frame.rest_eq.trans hrest)
    rw [hs.frame.func_eq] at hcount
    exact ⟨u, .cons trivial hst htu, hu, by omega, hcount.trans hcounts⟩

theorem Passes.exists_takes (h : Passes p.types f args ok P Q) :
    ∃ l k, Takes p.types f args P l k Q := by
  induction h using Relation.ReflTransGen.head_induction_on with
  | refl => exact ⟨0, 0, .refl⟩
  | head hm _ ih =>
    obtain ⟨l, k, h⟩ := ih
    obtain ⟨i, is, hrest⟩ := hm.2.exists_rest
    exact ⟨_, _, .step hrest hm.2 h⟩

/-- The machine stays on a chain of moves until its end. -/
theorem Passes.at_of_reaches (h : Passes p.types f args ok P Q) :
    ∀ {s u : State}, s.At f args P → Machine.Reaches p limit (fun _ => True) s u →
    (∃ R R', u.At f args R ∧ ok R ∧ Moves p.types f args R R') ∨
      ∃ t, t.At f args Q ∧ Machine.Reaches p limit (fun _ => True) t u := by
  induction h using Relation.ReflTransGen.head_induction_on with
  | refl => exact fun hs hr => .inr ⟨_, hs, hr⟩
  | head hm _ ih =>
    intro s u hs hr
    rcases hr.head with rfl | ⟨t, _, ha, hr⟩
    · exact .inl ⟨_, _, hs, hm.1, hm.2⟩
    · exact ih (hm.2.at_of_advances hs ha) hr

theorem Machine.step_of_returns (ht : t.At f args Q) (hQ : Q.Returns f) (hn : t.steps + 1 ≤ limit) :
    step p limit t = .halt ⟨.ok .void, t.memory, t.steps + 1⟩ := by
  obtain ⟨i, is, hrest, hop⟩ := hQ
  refine step_eq_halt_ok_iff.mpr
    ⟨i, is, ht.frame.rest_eq.trans hrest, hn, ?_, ht.callers_eq, rfl, rfl⟩
  rw [ht.frame.func_eq, hop]
  exact .retVoid

variable {m : Memory} {e : BlockId}

theorem Machine.invoke_at (he : f.entry? = some e) (hargs : f.params.size = args.length)
    (hphis : f.phis e = []) (limit : Nat) : ∃ s, invoke p limit f args [] m 0 = .next s ∧
      s.At f args (f.start e m.regions) ∧ s.steps = 0 ∧ s.memory = m := by
  have hready : ∀ i ∈ f.phis e, (phiValue p.types f args none (fun _ => none) i).isSome := by
    simp [hphis]
  have hroom : 0 + (f.phis e).length ≤ limit := by simp [hphis]
  obtain ⟨fr, henter, hat⟩ :=
    (Frame.at_activate f args).enter 0 (by simp [hphis]) hroom hready
  have hafter : f.afterPhis e = f.body e := by
    rw [← f.phis_append_afterPhis e, hphis, List.nil_append]
  rw [hafter, entered_of_nil hphis] at hat
  refine ⟨_, invoke_eq_next_iff.mpr ⟨e, fr, _, he, hargs, henter, rfl⟩, ⟨hat, rfl, rfl⟩, ?_, rfl⟩
  simp [hphis]

/-- Moves from the entry to a return are a run that succeeds, under every limit that is large
enough. -/
theorem Program.run_of_takes (he : f.entry? = some e) (hargs : f.params.size = args.length)
    (hphis : f.phis e = []) {l k : Nat} (h : Takes p.types f args (f.start e m.regions) l k Q)
    (hQ : Q.Returns f) : ∃ n, ∀ limit, n ≤ limit →
      (p.run f args m limit).result = .ok .void ∧
      (p.run f args m limit).memory.regions = Q.regions ∧
      m.Counts (p.run f args m limit).memory l k := by
  obtain ⟨n, hn⟩ := h.reaches
  refine ⟨n + 1, fun limit hle => ?_⟩
  obtain ⟨s, hs, hat, hsteps, hm⟩ := Machine.invoke_at (p := p) (m := m) he hargs hphis limit
  have hn' : s.steps + n ≤ limit := by omega
  obtain ⟨t, hr, ht, hsteps', hcounts⟩ := hn hat hn'
  have hn'' : t.steps + 1 ≤ limit := by omega
  have hhalt := Machine.step_of_returns (p := p) ht hQ hn''
  have hrun := Machine.run_of_reaches (limit + 1) hr hhalt (by omega) (by omega)
  rw [Program.run, hs]
  dsimp only
  rw [hrun]
  exact ⟨rfl, ht.regions_eq, hm ▸ hcounts⟩

theorem Program.run_of_passes (he : f.entry? = some e) (hargs : f.params.size = args.length)
    (hphis : f.phis e = []) (h : Passes p.types f args ok (f.start e m.regions) Q)
    (hQ : Q.Returns f) : ∃ n, ∀ limit, n ≤ limit →
      (p.run f args m limit).result = .ok .void ∧
      (p.run f args m limit).memory.regions = Q.regions := by
  obtain ⟨l, k, h⟩ := h.exists_takes
  obtain ⟨n, hn⟩ := Program.run_of_takes he hargs hphis h hQ
  exact ⟨n, fun limit hle => ⟨(hn limit hle).1, (hn limit hle).2.1⟩⟩

/-- Whatever the limit, a run along moves to a return visits points that meet the condition,
and a last one. -/
theorem Program.at_of_visits (he : f.entry? = some e) (hargs : f.params.size = args.length)
    (hphis : f.phis e = []) (h : Passes p.types f args ok (f.start e m.regions) Q)
    (hQ : Q.Returns f) (hv : Machine.Visits p limit f args m s) :
    (∃ R R', s.At f args R ∧ ok R ∧ Moves p.types f args R R') ∨ s.At f args Q := by
  obtain ⟨s₀, hs₀, hr⟩ := hv
  obtain ⟨s₁, hs₁, hat, _⟩ := Machine.invoke_at (p := p) (m := m) he hargs hphis limit
  cases hs₀.symm.trans hs₁
  refine (h.at_of_reaches hat hr).imp_right fun ⟨t, ht, hr⟩ => ?_
  rcases hr.head with rfl | ⟨u, _, ha, _⟩
  · exact ht
  · have hhalt := Machine.step_of_returns (p := p) ht hQ ha.steps_lt.2.1
    rw [Machine.step_eq_next_iff.mpr ha] at hhalt
    cases hhalt

/-- Whatever the limit, a run along moves to a return succeeds or runs into the limit. -/
theorem Program.result_of_passes (he : f.entry? = some e) (hargs : f.params.size = args.length)
    (hphis : f.phis e = []) (h : Passes p.types f args ok (f.start e m.regions) Q)
    (hQ : Q.Returns f) (limit : Nat) : (p.run f args m limit).result = .ok .void ∨
      (p.run f args m limit).result = .error (.stepLimit limit) := by
  obtain ⟨s, hs, hat, _⟩ := Machine.invoke_at (p := p) (m := m) he hargs hphis limit
  obtain ⟨t, hr, ht⟩ := Machine.exists_of_run p limit (limit + 1) s
  rw [Program.run, hs]
  dsimp only
  rcases ht with ht | ht
  · rcases Program.at_of_visits he hargs hphis h hQ ⟨s, hs, hr⟩ with ⟨R, R', hR, _, hm⟩ | hat'
    · exact .inr (hm.stepLimit_of_halt hR ht)
    · by_cases hn : t.steps + 1 ≤ limit
      · rw [Machine.step_of_returns hat' hQ hn] at ht
        rw [← Transition.halt.inj ht]
        exact .inl rfl
      · obtain ⟨i, is, hrest, _⟩ := hQ
        rw [Machine.step_of_limit (hat'.frame.rest_eq.trans hrest) (Nat.not_le.mp hn)] at ht
        rw [← Transition.halt.inj ht]
        exact .inr rfl
  · rw [ht]
    exact .inr rfl

end

end

end LoopNest
