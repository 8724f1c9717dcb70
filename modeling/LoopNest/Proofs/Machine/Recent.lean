import LoopNest.Proofs.Machine.PointsTo

/-!
# What a visit of a block has loaded

A load has the value that memory had when it was executed.  While the block that it stands in goes
on, memory still has that value if no store of the block may go to the memory behind the root of
the pointer (`Clear`).

`Machine.Recent` says this of a state of an activation, and every step keeps it
(`Machine.recent_of_reaches`), calls of other blocks included.
-/

namespace LoopNest

/-- No store of a block may go to the memory behind the root of a pointer. -/
def Func.Clear (f : Func) (b : BlockId) (ptr : Operand) : Prop :=
  ∀ x ∈ f.body b, ∀ v q, f.op x = .store v q →
    (f.place ptr).root.mayAlias (f.place q).root = false

/-- Memory outside of the regions that are written stays as it is. -/
theorem Computes.sameOn {tt : TypeTable} {value : Operand → Option Datum}
    {tyOf : Operand → TyId} {ty : TyId} {op : Op} {rs rs' : Array Region} {d : Datum}
    {δ : List Chunk} (h : Computes tt value tyOf ty op rs d δ rs') (hs : op.isSlot = false)
    {R : Nat → Prop}
    (hR : ∀ v ptr q, op = .store v ptr → value ptr = some (.ptr q) → ¬ R q.region) :
    SameOn R rs rs' := by
  cases h with
  | pure _ => exact SameOn.refl R rs
  | alloca => cases hs
  | load _ _ => exact SameOn.refl R rs
  | @store v ptr q d _ cs hq _ hcs _ =>
    refine sameOn_writeChunks rs fun c hc => ?_
    rw [region_of_storeChunks hcs c hc]
    exact hR v ptr q rfl hq

namespace Machine

variable {p : Program} {limit : Nat} {cs : List Caller} {f : Func} {args : List Datum}
  {b : BlockId} {s t w : State}

/-- No store of a block goes to a region, whenever the activation executes it. -/
def Quiet (p : Program) (limit : Nat) (f : Func) (cs : List Caller) (s : State) (b : BlockId)
    (r : Nat) : Prop :=
  ∀ t x v ptr q, x ∈ f.body b → f.op x = .store v ptr → Accesses p limit cs s t x ptr q →
    q.region ≠ r

/-- The loads and stores that the current visit of a block has executed: what was loaded is still
in memory, and a store has no result. -/
structure Recent (p : Program) (limit : Nat) (f : Func) (cs : List Caller) (s : State)
    (b : BlockId) (t : State) : Prop where
  load : ∀ j ptr, j ∈ f.body b → j ∉ t.frame.rest → f.op j = .load ptr → f.Clear b ptr →
    ∀ d, t.frame.values j = some d → ∃ q, t.frame.value p.types ptr = some (.ptr q) ∧
      (Memory.ofRegions t.memory.regions).load p.types q (f.inst j).ty = .ok d ∧
      Quiet p limit f cs s b q.region
  store : ∀ j v ptr, j ∈ f.body b → j ∉ t.frame.rest → f.op j = .store v ptr →
    ∀ d, t.frame.values j = some d → d = .void

/-- A block that has just been entered has executed its phis only. -/
theorem recent_of_afterPhis (h : t.frame.rest = f.afterPhis b) : Recent p limit f cs s b t := by
  have hphi : ∀ j, j ∈ f.body b → j ∉ t.frame.rest → (f.op j).isPhi = true := by
    intro j hj hrest
    rw [← f.phis_append_afterPhis b, ← h] at hj
    exact Func.isPhi_of_mem_phis ((List.mem_append.mp hj).resolve_right hrest)
  refine ⟨fun j ptr hj hrest hop => ?_, fun j v ptr hj hrest hop => ?_⟩
  · cases hop ▸ hphi j hj hrest
  · cases hop ▸ hphi j hj hrest

/-- Executing an instruction of the block. -/
theorem Recent.plain (h : Recent p limit f cs s b t) (hin : InFrame p limit f args cs s t t.frame)
    (hcs : t.callers = cs) (hb : t.frame.block = b) (hr : Reaches p limit (Alive cs) s t)
    (hsep : ∀ t i ptr q t' i' ptr' q', Accesses p limit cs s t i ptr q →
      Accesses p limit cs s t' i' ptr' q' →
      (f.place ptr).root.mayAlias (f.place ptr').root = false → q.region ≠ q'.region)
    {i : InstId} {rest : List InstId} {d : Datum} {δ : List Chunk} {m' : Memory} {n : Nat}
    (hrest : t.frame.rest = i :: rest) (hslot : (f.op i).isSlot = false)
    (hc : Computes p.types (t.frame.value p.types) f.tyOf (f.inst i).ty (f.op i) t.memory.regions d δ
      m'.regions) :
    Recent p limit f cs s b ⟨t.frame.past.record i d, cs, m', n⟩ := by
  obtain ⟨done, hco⟩ := hin.coherent
  have hpoint := hco.point
  have hwf := hco.wellFormed
  have ho := hco.listed_once
  have hl := hco.uses_listed
  have hlt : i < t.frame.past.results.size := lt_of_lt_of_eq (hco.next_lt hrest) hco.size_eq.symm
  rw [hin.func_eq] at hwf ho hl
  rw [hrest, hb, hin.func_eq] at hpoint
  have hvalues : (t.frame.past.record i d).values = t.frame.values.set i d := by
    rw [Frame.values_record hlt, Frame.values_past]
  have hexec : ExecutesAt cs i t := ⟨hcs, by rw [hrest]; rfl⟩
  have hmem : i ∈ f.body b := hpoint.mem_body
  -- An operand of what was executed before, or of the instruction itself, keeps its value.
  have hvalue : ∀ v : Operand, (∀ k, v = .inst k → f.Available b done k) →
      (t.frame.past.record i d).value p.types v = t.frame.value p.types v := by
    intro v hv
    unfold Frame.value
    rw [hvalues]
    refine Func.value_set_of_ne ?_
    rintro rfl
    exact hwf.ne_of_available ho hpoint (hv i rfl) rfl
  have hdone : ∀ j, j ∈ f.body b → j ∉ (t.frame.past.record i d).rest → j ≠ i →
      j ∈ done ∧ j ∉ t.frame.rest := by
    intro j hj hnot hne
    rw [Frame.rest_record, Frame.rest_past hrest] at hnot
    have hnot' : j ∉ t.frame.rest := by
      rw [hrest, List.mem_cons]
      exact fun hor => hor.elim hne hnot
    rw [hpoint.body_eq, ← hrest] at hj
    exact ⟨(List.mem_append.mp hj).resolve_right hnot', hnot'⟩
  have hbefore : ∀ j ∈ done, j ∈ f.body b ∧ ∀ k, Operand.inst k ∈ (f.op j).operands →
      (f.op j).isPhi = false → f.Available b done k := fun j hj =>
    ⟨by rw [hpoint.body_eq]; exact List.mem_append_left _ hj, fun k hk hphi =>
      hwf.available_of_available hl hpoint.reachable hpoint.body_eq (.inl hj) hphi hk⟩
  refine ⟨fun j ptr hj hnot hop hclear e he => ?_, fun j v ptr hj hnot hop e he => ?_⟩
  · change (t.frame.past.record i d).values j = some e at he
    rw [hvalues] at he
    by_cases hji : j = i
    · -- The load itself: memory is as it was, and the pointer was used just now.
      subst hji
      rw [Values.set_self] at he
      obtain rfl := Option.some.inj he
      rw [hop] at hc
      have hav : ∀ k, ptr = .inst k → f.Available b done k := by
        rintro k rfl
        exact hwf.available_operand hl hpoint (hop ▸ List.mem_singleton.mpr rfl)
      generalize m'.regions = rs at hc ⊢
      cases hc with
      | pure hp => cases hp
      | load hq hd =>
        refine ⟨_, (hvalue ptr hav).trans hq, hd, ?_⟩
        intro t' x v' ptr' q' hx hopx hacc
        refine Ne.symm (hsep t j ptr _ t' x ptr' q' ⟨hr, hexec, ?_, hq⟩ hacc (hclear x hx v' ptr' hopx))
        rw [hin.func_eq, hop]
        rfl
    · rw [Values.set_of_ne hji] at he
      obtain ⟨hjd, hjr⟩ := hdone j hj hnot hji
      obtain ⟨q, hq, hd, hquiet⟩ := h.load j ptr hj hjr hop hclear e he
      refine ⟨q, (hvalue ptr ?_).trans hq, ?_, hquiet⟩
      · rintro k rfl
        exact (hbefore j hjd).2 k (hop ▸ List.mem_singleton.mpr rfl) (by rw [hop]; rfl)
      · have hsame := Computes.sameOn hc hslot (R := (· = q.region)) fun v' ptr' q' hopi hq' heq => by
          refine hquiet t i v' ptr' q' hmem hopi ⟨hr, hexec, ?_, hq'⟩ heq
          rw [hin.func_eq, hopi]
          rfl
        have hload : (Memory.ofRegions t.memory.regions).load p.types q (f.inst j).ty =
            (Memory.ofRegions m'.regions).load p.types q (f.inst j).ty :=
          Memory.load_congr_region hsame.1.1 (hsame.2 _ rfl)
        exact hload.symm.trans hd
  · change (t.frame.past.record i d).values j = some e at he
    rw [hvalues] at he
    by_cases hji : j = i
    · subst hji
      rw [Values.set_self] at he
      obtain rfl := Option.some.inj he
      rw [hop] at hc
      generalize m'.regions = rs at hc
      cases hc with
      | pure hp => cases hp
      | store _ _ _ _ => rfl
    · rw [Values.set_of_ne hji] at he
      exact h.store j v ptr hj (hdone j hj hnot hji).2 hop e he

/-- What is executed in a block without calls and stack slots stays recent, as long as the
activation goes on. -/
theorem recent_of_reaches (hf : f.WellFormed) (ho : f.ListedOnce) (hl : f.UsesListed) {m : Memory}
    {n : Nat} (hn : n ≤ limit) (hs : invoke p limit f args cs m n = .next s)
    (hsep : ∀ t i ptr q t' i' ptr' q', Accesses p limit cs s t i ptr q →
      Accesses p limit cs s t' i' ptr' q' →
      (f.place ptr).root.mayAlias (f.place ptr').root = false → q.region ≠ q'.region)
    (hcall : ∀ i ∈ f.body b, (f.op i).isCall = false)
    (hslot : ∀ i ∈ f.body b, (f.op i).isSlot = false) (hr : Reaches p limit (Alive cs) s t)
    (hcs : t.callers = cs) (hb : t.frame.block = b) : Recent p limit f cs s b t := by
  -- While the activation waits, it does so in another block.
  have hinv := hr.invariant
    (motive := fun t => Alive cs t →
      (t.callers = cs ∧ (t.frame.block = b → Recent p limit f cs s b t)) ∨
        ∃ pre c, t.callers = pre ++ c :: cs ∧ c.frame.block ≠ b) ?_ ?_
      (Nat.le_of_eq (congrArg List.length hcs.symm))
  · rcases hinv with ⟨_, h⟩ | ⟨pre, c, h, _⟩
    · exact h hb
    · have := congrArg List.length (h.symm.trans hcs)
      simp only [List.length_append, List.length_cons] at this
      omega
  · intro _
    obtain ⟨e, fr, n', hent, _, he, rfl⟩ := invoke_eq_next_iff.mp hs
    refine .inl ⟨rfl, fun hb => recent_of_afterPhis ?_⟩
    have hlive := List.mem_of_head? hent
    obtain ⟨_, _, _, hat⟩ := (Frame.at_activate f args).of_enter
      (fun j hj => hf.inst_lt hlive (Func.mem_body_of_phis hj)) hn he
    rw [hat.rest_eq, ← hat.block_eq, hb]
  · intro v w hv hal ha ih hal'
    rcases ih hal with ⟨hcs, hrec⟩ | ⟨pre, c, hcs, hne⟩
    · subst hcs
      have hin := (active_of_reaches hf ho hl hn hs hv hal).inFrame rfl
      obtain ⟨done, hco⟩ := hin.coherent
      have hpoint := hco.point
      have hwf := hco.wellFormed
      cases ha with
      | @plain fr i rest _ mv m' k d hrest hk hplain hc =>
        refine .inl ⟨rfl, fun hb => ?_⟩
        have hbv : fr.block = b := hb
        obtain ⟨δ, hc⟩ := (Frame.compute_ok_iff hplain).mp ⟨m', hc, rfl⟩
        rw [hrest, hin.func_eq, hbv] at hpoint
        rw [Frame.value_past, Frame.func_past, hin.func_eq] at hc
        exact (hrec hbv).plain hin rfl hbv hv hsep hrest (hslot i hpoint.mem_body) hc
      | @jump fr fr' i rest _ mv k k' c hrest hk hleaves he =>
        refine .inl ⟨rfl, fun hb => recent_of_afterPhis ?_⟩
        rw [hrest] at hpoint
        have hlive := ((FlowGraph.edge_ofFunc _ _ _).mp
          (hwf.edge_of_point hpoint hleaves.mem_targets)).2.1
        obtain ⟨_, _, _, hat⟩ := (Frame.at_self fr.past hco.size_eq).of_enter
          (fun j hj => hwf.inst_lt hlive (Func.mem_body_of_phis hj)) hk he
        rw [hat.rest_eq, ← hat.block_eq, hb, Frame.func_past, hin.func_eq]
      | @call fr _ i rest _ _ _ _ _ _ _ _ _ hrest _ hop _ _ _ _ _ =>
        refine .inr ⟨[], _, rfl, fun hb => ?_⟩
        have hbv : fr.block = b := hb
        rw [hrest, hin.func_eq, hbv] at hpoint
        have := hcall i hpoint.mem_body
        rw [← hin.func_eq, hop] at this
        cases this
      | ret _ _ _ => exact absurd hal' (by simp [Alive])
    · cases ha with
      | plain _ _ _ _ => exact .inr ⟨pre, c, hcs, hne⟩
      | jump _ _ _ _ => exact .inr ⟨pre, c, hcs, hne⟩
      | @call fr _ i _ cs' _ _ _ _ _ _ _ _ _ _ _ _ _ _ _ _ =>
        change cs' = pre ++ c :: cs at hcs
        subst hcs
        exact .inr ⟨⟨fr.past, i⟩ :: pre, c, rfl, hne⟩
      | ret _ _ _ =>
        cases pre with
        | nil =>
          cases hcs
          exact .inl ⟨rfl, fun hb => absurd hb hne⟩
        | cons _ pre =>
          cases hcs
          exact .inr ⟨pre, c, rfl, hne⟩

end Machine

end LoopNest
