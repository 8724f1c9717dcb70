import LoopNest.Proofs.Func.Traces
import LoopNest.Proofs.Machine.Coherent
import LoopNest.Proofs.Typing
import Mathlib

/-!
# Where accesses go

An activation of a function starts with `Machine.invoke` above the frames that wait for it, and
goes on as long as they do (`Machine.Alive`).  Calls it makes run in between.

`Machine.Located` says that a pointer lies where the place found by tracing says: at an
argument, or at the region that the latest execution of a stack slot made, by the offset.  Every
access of every activation of a verified function goes through such a pointer
(`Machine.Active.located`), so accesses whose roots cannot alias go to different regions.
-/

namespace LoopNest

/-- The pointer that an access goes through. -/
def Op.pointer? : Op → Option Operand
  | .load p => some p
  | .store _ p => some p
  | _ => none

section

variable {tt : TypeTable} {value : Operand → Option Datum} {tyOf : Operand → TyId} {ty : TyId}
  {op : Op} {rs rs' : Array Region} {d : Datum} {δ : List Chunk}

theorem Computes.pureResult_eq (h : Computes tt value tyOf ty op rs d δ rs')
    (hp : op.isPure = true) : pureResult tt value tyOf ty op = some d := by
  cases h with
  | pure h => exact h
  | alloca => cases hp
  | load _ _ => cases hp
  | store _ _ _ _ => cases hp

/-- A slot points to a new region. -/
theorem Computes.of_isSlot (h : Computes tt value tyOf ty op rs d δ rs')
    (hs : op.isSlot = true) : d = .ptr ⟨rs.size, 0⟩ ∧ rs'.size = rs.size + 1 := by
  cases h with
  | pure h => cases op <;> simp_all [pureResult, Op.isSlot]
  | alloca => exact ⟨rfl, Array.size_push _⟩
  | load _ _ => cases hs
  | store _ _ _ _ => cases hs

end

namespace Machine

variable {p : Program} {limit : Nat} {cs : List Caller} {s t u v w : State}

/-! ## Activations -/

/-- The activation above some waiting frames goes on. -/
def Alive (cs : List Caller) (s : State) : Prop := cs.length ≤ s.callers.length

/-- The activation above some waiting frames executes an instruction next. -/
def ExecutesAt (cs : List Caller) (i : InstId) (s : State) : Prop :=
  s.callers = cs ∧ s.frame.rest.head? = some i

/-- The activation executes an instruction in `u`, which leads to `v`, and not again before
`t`. -/
structure Latest (p : Program) (limit : Nat) (cs : List Caller) (i : InstId) (u v t : State) :
    Prop where
  executes : ExecutesAt cs i u
  advances : Advances p limit u v
  reaches : Reaches p limit (fun w => Alive cs w ∧ ¬ ExecutesAt cs i w) v t

/-- The pointer to the region that the latest execution of a stack slot made, in an activation
that started in `s`. -/
def Made (p : Program) (limit : Nat) (cs : List Caller) (s t : State) (i : InstId) (r : Pointer) :
    Prop :=
  ∃ u v, Reaches p limit (Alive cs) s u ∧ Latest p limit cs i u v t ∧
    r = ⟨u.memory.regions.size, 0⟩ ∧ v.memory.regions.size = u.memory.regions.size + 1

/-- A slot stays the latest one until it is executed again. -/
theorem Made.step {i : InstId} {r : Pointer} (h : Made p limit cs s t i r) (hal : Alive cs t)
    (hne : ¬ ExecutesAt cs i t) (ha : Advances p limit t w) : Made p limit cs s w i r := by
  obtain ⟨u, v, hu, hl, hr⟩ := h
  exact ⟨u, v, hu, ⟨hl.executes, hl.advances, hl.reaches.snoc ⟨hal, hne⟩ ha⟩, hr⟩

/-- What holds of the frame of an activation that started in `s`, at the state `t`. -/
structure InFrame (p : Program) (limit : Nat) (f : Func) (args : List Datum) (cs : List Caller)
    (s t : State) (fr : Frame) : Prop where
  func_eq : fr.func = f
  args_eq : fr.args = args
  coherent : ∃ done, fr.Coherent p.types done
  slots : ∀ i, (f.op i).isSlot = true → ∀ d, fr.values i = some d →
    ∃ r, d = .ptr r ∧ Made p limit cs s t i r

/-- The activation runs, or waits for a call to return. -/
def Active (p : Program) (limit : Nat) (f : Func) (args : List Datum) (cs : List Caller)
    (s t : State) : Prop :=
  (t.callers = cs ∧ InFrame p limit f args cs s t t.frame) ∨
    ∃ pre c, t.callers = pre ++ c :: cs ∧ ∀ d, InFrame p limit f args cs s t (c.frame.record c.call d)

variable {f : Func} {args : List Datum} {fr fr' : Frame}

/-- A step that does not execute a slot of the activation. -/
theorem InFrame.step (h : InFrame p limit f args cs s t fr) (hal : Alive cs t)
    (hne : ∀ i, (f.op i).isSlot = true → ¬ ExecutesAt cs i t) (ha : Advances p limit t w) :
    InFrame p limit f args cs s w fr := by
  refine ⟨h.func_eq, h.args_eq, h.coherent, fun i hi d hd => ?_⟩
  obtain ⟨r, hr, hmade⟩ := h.slots i hi d hd
  exact ⟨r, hr, hmade.step hal (hne i hi) ha⟩

theorem ExecutesAt.eq {i j : InstId} {rest : List InstId} (h : ExecutesAt cs j t)
    (hrest : t.frame.rest = i :: rest) : j = i := by
  have := h.2
  rw [hrest] at this
  exact (Option.some.inj this).symm

/-- What a computed result is, for pure instructions and for slots. -/
theorem compute_eq_ok {tt : TypeTable} {x : Inst} {m m' : Memory} {d : Datum}
    (hx : x.op.isPlain = true) (h : fr.compute tt x m = (.ok d, m')) :
    (x.op.isPure = true → pureResult tt (fr.value tt) fr.func.tyOf x.ty x.op = some d) ∧
    (x.op.isSlot = true → d = .ptr ⟨m.regions.size, 0⟩ ∧
      m'.regions.size = m.regions.size + 1) ∧ m.regions.size ≤ m'.regions.size := by
  obtain ⟨δ, hc⟩ := (Frame.compute_ok_iff hx).mp ⟨m', h, rfl⟩
  exact ⟨hc.pureResult_eq, hc.of_isSlot, hc.size_le⟩

/-- The running activation executes an instruction that neither calls nor directs control. -/
theorem InFrame.plain (h : InFrame p limit f args t.callers s t t.frame)
    (hs : Reaches p limit (Alive t.callers) s t) {i : InstId} {rest : List InstId} {m' : Memory}
    {d : Datum} (hrest : t.frame.rest = i :: rest) (hn : t.steps + 1 ≤ limit)
    (hplain : (t.frame.func.op i).isPlain = true)
    (hc : t.frame.past.compute p.types (t.frame.func.inst i) t.memory = (.ok d, m')) :
    InFrame p limit f args t.callers s ⟨t.frame.past.record i d, t.callers, m', t.steps + 1⟩
      (t.frame.past.record i d) := by
  have ha : Advances p limit t ⟨t.frame.past.record i d, t.callers, m', t.steps + 1⟩ :=
    .plain hrest hn hplain hc
  obtain ⟨hpure, hslot, _⟩ := compute_eq_ok hplain hc
  obtain ⟨done, hco⟩ := h.coherent
  refine ⟨h.func_eq, h.args_eq, ⟨_, hco.record hrest hpure⟩, fun j hj e he => ?_⟩
  have hlt : i < t.frame.past.results.size := lt_of_lt_of_eq (hco.next_lt hrest) hco.size_eq.symm
  rw [Frame.values_record hlt, Frame.values_past] at he
  by_cases hji : j = i
  · subst hji
    rw [Values.set_self] at he
    rw [← h.func_eq] at hj
    obtain ⟨hd, hsize⟩ := hslot hj
    refine ⟨_, (Option.some.inj he).symm.trans hd, t, _, hs, ⟨⟨rfl, ?_⟩, ha, .refl⟩, rfl, hsize⟩
    rw [hrest]
    rfl
  · rw [Values.set_of_ne hji] at he
    obtain ⟨r, hr, hmade⟩ := h.slots j hj e he
    exact ⟨r, hr, hmade.step (Nat.le_refl _) (fun hex => hji (hex.eq hrest)) ha⟩

/-- The running activation goes along an edge. -/
theorem InFrame.jump (h : InFrame p limit f args t.callers s t t.frame) {i : InstId}
    {rest : List InstId} {c : BlockId} {n' : Nat} (hrest : t.frame.rest = i :: rest)
    (hn : t.steps + 1 ≤ limit) (hc : Leaves (t.frame.value p.types) (t.frame.func.op i) (.goto c))
    (he : t.frame.past.enter p.types limit (some t.frame.block) c (t.steps + 1) = (.ok fr', n')) :
    InFrame p limit f args t.callers s ⟨fr', t.callers, t.memory, n'⟩ fr' := by
  have ha : Advances p limit t ⟨fr', t.callers, t.memory, n'⟩ := .jump hrest hn hc he
  obtain ⟨done, hco⟩ := h.coherent
  have hpoint := hco.point
  rw [hrest] at hpoint
  have hlive := ((FlowGraph.edge_ofFunc _ _ _).mp
    (hco.wellFormed.edge_of_point hpoint hc.mem_targets)).2.1
  obtain ⟨_, _, _, hat⟩ := (Frame.at_self t.frame.past hco.size_eq).of_enter
    (fun j hj => hco.wellFormed.inst_lt hlive (Func.mem_body_of_phis hj)) hn he
  refine ⟨hat.func_eq.trans h.func_eq, hat.args_eq.trans h.args_eq,
    hco.jump hrest hc.mem_targets hn he, fun j hj e hval => ?_⟩
  rw [hat.values_eq, entered_of_not_mem] at hval
  · obtain ⟨r, hr, hmade⟩ := h.slots j hj e hval
    refine ⟨r, hr, hmade.step (Nat.le_refl _) (fun hex => ?_) ha⟩
    rw [hex.eq hrest, ← h.func_eq, Op.not_isSlot_of_isTerminator hc.isTerminator] at hj
    cases hj
  · intro hphi
    have := Func.isPhi_of_mem_phis hphi
    rw [← h.func_eq] at hj
    cases (Op.not_isSlot_of_isPhi this).symm.trans hj

/-- The running activation calls a function, and waits for any result. -/
theorem InFrame.call (h : InFrame p limit f args t.callers s t t.frame) {i : InstId}
    {rest : List InstId} {name : String} {ops : List Operand} (hrest : t.frame.rest = i :: rest)
    (hop : t.frame.func.op i = .call name ops) (ha : Advances p limit t w) (d : Datum) :
    InFrame p limit f args t.callers s w (t.frame.past.record i d) := by
  obtain ⟨done, hco⟩ := h.coherent
  have hlt : i < t.frame.past.results.size := lt_of_lt_of_eq (hco.next_lt hrest) hco.size_eq.symm
  refine ⟨h.func_eq, h.args_eq, ⟨_, hco.record hrest ?_⟩, fun j hj e he => ?_⟩
  · rw [hop]
    exact fun hpure => by cases hpure
  · have hji : j ≠ i := by
      rintro rfl
      rw [← h.func_eq, hop] at hj
      cases hj
    rw [Frame.values_record hlt, Frame.values_past, Values.set_of_ne hji] at he
    obtain ⟨r, hr, hmade⟩ := h.slots j hj e he
    exact ⟨r, hr, hmade.step (Nat.le_refl _) (fun hex => hji (hex.eq hrest)) ha⟩

/-- Every step keeps the activation. -/
theorem Active.step (h : Active p limit f args cs s t) (hs : Reaches p limit (Alive cs) s t)
    (hal : Alive cs t) (ha : Advances p limit t w) (hal' : Alive cs w) :
    Active p limit f args cs s w := by
  rcases h with ⟨hcs, hin⟩ | ⟨pre, c, hcs, hin⟩
  · -- The activation itself takes the step.
    subst hcs
    cases ha with
    | plain hrest hn hplain hc => exact .inl ⟨rfl, hin.plain hs hrest hn hplain hc⟩
    | jump hrest hn hl he => exact .inl ⟨rfl, hin.jump hrest hn hl he⟩
    | call hrest hn hop hg hds hent hsize he =>
      refine .inr ⟨[], _, rfl, fun d => ?_⟩
      exact hin.call hrest hop (.call hrest hn hop hg hds hent hsize he) d
    | ret _ _ _ => exact absurd hal' (by simp [Alive])
  · -- The activation waits, and does not execute a slot.
    have hne : ∀ i, (f.op i).isSlot = true → ¬ ExecutesAt cs i t := by
      intro i _ hex
      have hlen := congrArg List.length (hcs.symm.trans hex.1)
      simp only [List.length_append, List.length_cons] at hlen
      omega
    have hin' := fun d => (hin d).step hal hne ha
    cases ha with
    | plain _ _ _ _ => exact .inr ⟨pre, c, hcs, hin'⟩
    | jump _ _ _ _ => exact .inr ⟨pre, c, hcs, hin'⟩
    | @call fr _ i _ cs' _ _ _ _ _ _ _ _ _ _ _ _ _ _ _ _ =>
      change cs' = pre ++ c :: cs at hcs
      subst hcs
      exact .inr ⟨⟨fr.past, i⟩ :: pre, c, rfl, hin'⟩
    | ret _ _ _ =>
      cases pre with
      | nil =>
        cases hcs
        exact .inl ⟨rfl, hin' _⟩
      | cons _ pre =>
        cases hcs
        exact .inr ⟨pre, c, rfl, hin'⟩

/-- As long as it goes on, the activation runs or waits. -/
theorem active_of_reaches (hf : f.WellFormed) (ho : f.ListedOnce) (hl : f.UsesListed) {m : Memory}
    {n : Nat} (hn : n ≤ limit) (hs : invoke p limit f args cs m n = .next s)
    (hr : Reaches p limit (Alive cs) s t) (hal : Alive cs t) : Active p limit f args cs s t := by
  refine hr.invariant (motive := fun t => Alive cs t → Active p limit f args cs s t) ?_ ?_ hal
  · intro _
    obtain ⟨e, fr, n', hent, hsize, he, rfl⟩ := invoke_eq_next_iff.mp hs
    obtain ⟨hfunc, hargs⟩ := Frame.of_enter he
    refine .inl ⟨rfl, hfunc, hargs, Frame.coherent_of_activate hf ho hl hent hn he, ?_⟩
    intro i hi d hd
    have hlive := List.mem_of_head? hent
    obtain ⟨_, _, _, hat⟩ := (Frame.at_activate f args).of_enter
      (fun j hj => hf.inst_lt hlive (Func.mem_body_of_phis hj)) hn he
    change fr.values i = some d at hd
    rw [hat.values_eq, entered_of_not_mem] at hd
    · cases hd
    · intro hphi
      cases (Op.not_isSlot_of_isPhi (Func.isPhi_of_mem_phis hphi)).symm.trans hi
  · intro v w hv hal ha ih hal'
    exact (ih hal).step hv hal ha hal'

/-- The frame of an activation that runs. -/
theorem Active.inFrame (h : Active p limit f args cs s t) (hcs : t.callers = cs) :
    InFrame p limit f args cs s t t.frame := by
  rcases h with ⟨_, hin⟩ | ⟨pre, c, hpre, _⟩
  · exact hin
  · have hlen := congrArg List.length (hpre.symm.trans hcs)
    simp only [List.length_append, List.length_cons] at hlen
    omega

/-! ## Places of pointers -/

/-- Where a root is, in the state `t` of an activation that started in `s`. -/
def RootAt (p : Program) (limit : Nat) (args : List Datum) (cs : List Caller) (s t : State) :
    MemRoot → Pointer → Prop
  | .param k _, r => args[k]? = some (.ptr r)
  | .alloca i, r => Made p limit cs s t i r
  | .unknown, _ => True

/-- A pointer lies at an offset from another one.  An index counts elements of what the pointer
points to. -/
def OffsetAt (tt : TypeTable) (value : Operand → Option Datum) (ty : TyId) (r q : Pointer) :
    Offset → Prop
  | .zero => q = r
  | .index v => ∃ n e, value v = some (.int n) ∧ tt.pointee? ty = some e ∧
      q = r.advance (n * Int64.ofNat (tt.paddedSize e))
  | .unknown => True

/-- A pointer of a type lies in the region of the root of a place, at its offset. -/
def Located (p : Program) (limit : Nat) (args : List Datum) (cs : List Caller) (s t : State)
    (ty : TyId) (pl : Place) (q : Pointer) : Prop :=
  ∃ r, RootAt p limit args cs s t pl.root r ∧ q.region = r.region ∧
    OffsetAt p.types (t.frame.value p.types) ty r q pl.offset

theorem located_unknown {ty : TyId} (q : Pointer) :
    Located p limit args cs s t ty .unknown q := ⟨q, trivial, rfl, trivial⟩

theorem Located.cast {ty ty' : TyId} {pl : Place} {q : Pointer}
    (h : Located p limit args cs s t ty pl q) : Located p limit args cs s t ty' pl.cast q := by
  obtain ⟨r, hr, hreg, hoff⟩ := h
  refine ⟨r, hr, hreg, ?_⟩
  unfold Place.cast
  by_cases hz : pl.offset = .zero
  · rw [if_pos hz]
    rw [hz] at hoff
    exact hoff
  · rw [if_neg hz]
    exact trivial

theorem Located.gep {ty ty' : TyId} {pl : Place} {q : Pointer} {index : Operand} {n : Int64}
    {e : TyId} (h : Located p limit args cs s t ty pl q)
    (hn : t.frame.value p.types index = some (.int n)) (he : p.types.pointee? ty' = some e) :
    Located p limit args cs s t ty' (pl.step index)
      (q.advance (n * Int64.ofNat (p.types.paddedSize e))) := by
  obtain ⟨r, hr, hreg, hoff⟩ := h
  refine ⟨r, hr, hreg, ?_⟩
  unfold Place.step
  by_cases hz : pl.offset = .zero
  · rw [if_pos hz]
    rw [hz] at hoff
    obtain rfl : q = r := hoff
    exact ⟨n, e, hn, he, rfl⟩
  · rw [if_neg hz]
    exact trivial

/-- While an activation runs, a pointer that can be used is where tracing says. -/
theorem InFrame.located (h : InFrame p limit f args cs s t t.frame) {done : List InstId}
    (hco : t.frame.Coherent p.types done) {v : Operand} {pl : Place} (hv : f.Traces v pl) :
    ∀ {q : Pointer}, (∀ j, v = .inst j → f.Available t.frame.block done j) →
      t.frame.value p.types v = some (.ptr q) →
      Located p limit args cs s t (f.tyOf v) pl q := by
  have hf := h.func_eq
  have operand : ∀ {i j}, f.Available t.frame.block done i → (f.op i).isPure = true →
      Operand.inst j ∈ (f.op i).operands → f.Available t.frame.block done j := by
    intro i j hi hpure hj
    have hpoint := hco.point
    have hwf := hco.wellFormed
    have hl := hco.uses_listed
    rw [hf] at hpoint hwf hl
    exact hwf.available_of_available hl hpoint.reachable hpoint.body_eq hi
      (Op.not_isPhi_of_isPure hpure) hj
  have current : ∀ {i q}, f.Available t.frame.block done i → (f.op i).isPure = true →
      t.frame.value p.types (.inst i) = some (.ptr q) →
      pureResult p.types (t.frame.value p.types) f.tyOf (f.inst i).ty (f.op i) =
        some (.ptr q) := by
    intro i q hi hpure hq
    have := hco.current
    rw [hf] at this
    exact this i hi hpure _ hq
  induction hv with
  | @param k _ hp =>
    intro q _ hq
    refine ⟨q, ?_, rfl, rfl⟩
    change t.frame.args[k]? = some (.ptr q) at hq
    rwa [h.args_eq] at hq
  | noParam _ => exact fun _ _ => located_unknown _
  | const => exact fun _ _ => located_unknown _
  | @alloca i _ _ _ hop =>
    intro q _ hq
    obtain ⟨r, hr, hmade⟩ := h.slots i (by rw [hop]; rfl) _ hq
    cases hr
    exact ⟨q, hmade, rfl, rfl⟩
  | @bitcast i v pl hop _ ih =>
    intro q hav hq
    have hcur := current (hav i rfl) (by rw [hop]; rfl) hq
    rw [hop] at hcur
    refine (ih (fun j hj => ?_) hcur).cast
    exact operand (hav i rfl) (by rw [hop]; rfl) (by rw [hop, hj]; exact List.mem_singleton.mpr rfl)
  | @gep i base index pl hop _ ih =>
    intro q hav hq
    have hcur := current (hav i rfl) (by rw [hop]; rfl) hq
    rw [hop, pureResult] at hcur
    split at hcur
    · rename_i r n e hb hn he
      cases hcur
      rw [Func.tyOf_inst]
      refine (ih (fun j hj => ?_) hb).gep hn he
      exact operand (hav i rfl) (by rw [hop]; rfl) (by rw [hop, hj]; exact List.mem_cons_self)
    · cases hcur
  | other _ _ _ => exact fun _ _ => located_unknown _

/-! ## Accesses -/

/-- In the state `t`, an activation that started in `s` executes an access through a pointer. -/
structure Accesses (p : Program) (limit : Nat) (cs : List Caller) (s t : State) (i : InstId)
    (ptr : Operand) (q : Pointer) : Prop where
  reaches : Reaches p limit (Alive cs) s t
  executes : ExecutesAt cs i t
  pointer : (t.frame.func.op i).pointer? = some ptr
  value : t.frame.value p.types ptr = some (.ptr q)

theorem mem_operands_of_pointer? {op : Op} {ptr : Operand} (h : op.pointer? = some ptr) :
    ptr ∈ op.operands ∧ op.isPhi = false := by
  cases op with
  | load p =>
    cases h
    exact ⟨List.mem_singleton.mpr rfl, rfl⟩
  | store v p =>
    cases h
    exact ⟨List.mem_cons_of_mem _ (List.mem_singleton.mpr rfl), rfl⟩
  | _ => cases h

/-- An access of a running activation goes where tracing says. -/
theorem Active.located (h : Active p limit f args cs s t) {i : InstId} {ptr : Operand}
    {q : Pointer} (hacc : Accesses p limit cs s t i ptr q) :
    Located p limit args cs s t (f.tyOf ptr) (f.place ptr) q := by
  have hin := h.inFrame hacc.executes.1
  obtain ⟨done, hco⟩ := hin.coherent
  obtain ⟨rest, hrest⟩ := List.head?_eq_some_iff.mp hacc.executes.2
  obtain ⟨hptr, hphi⟩ := mem_operands_of_pointer? hacc.pointer
  have hpoint := hco.point
  have hwf := hco.wellFormed
  have hl := hco.uses_listed
  rw [hrest] at hpoint
  rw [hin.func_eq] at hpoint hwf hl hptr hphi
  refine hin.located hco (hwf.traces_place hl hpoint.reachable hpoint.mem_body hphi hptr)
    (fun j hj => ?_) hacc.value
  exact hwf.available_operand hl hpoint (hj ▸ hptr)

/-- Regions are never taken away. -/
theorem Advances.regions_size_le (h : Advances p limit s t) :
    s.memory.regions.size ≤ t.memory.regions.size := by
  cases h with
  | plain _ _ hplain hc => exact (compute_eq_ok hplain hc).2.2
  | jump _ _ _ _ => exact Nat.le_refl _
  | call _ _ _ _ _ _ _ _ => exact Nat.le_refl _
  | ret _ _ _ => exact Nat.le_refl _

theorem Reaches.regions_size_le {ok : State → Prop} (h : Reaches p limit ok s t) :
    s.memory.regions.size ≤ t.memory.regions.size := by
  induction h with
  | refl => exact Nat.le_refl _
  | snoc _ _ ha ih => exact Nat.le_trans ih ha.regions_size_le

/-- A slot that is executed later makes a later region. -/
theorem Latest.region_lt {i j : InstId} {u' : State} {ok : State → Prop}
    (h : Latest p limit cs i u v t) (hv : v.memory.regions.size = u.memory.regions.size + 1)
    (hr : Reaches p limit ok u u') (hex : ExecutesAt cs j u') (hne : i ≠ j) :
    u.memory.regions.size < u'.memory.regions.size := by
  rcases hr.head with rfl | ⟨v', _, ha, hr⟩
  · exact absurd (Option.some.inj (h.executes.2.symm.trans hex.2)) hne
  · rw [← h.advances.functional ha] at hr
    have := hr.regions_size_le
    omega

/-- Different slots of an activation make different regions. -/
theorem Made.region_ne {i j : InstId} {r r' : Pointer} {t' : State}
    (h : Made p limit cs s t i r) (h' : Made p limit cs s t' j r') (hne : i ≠ j) :
    r.region ≠ r'.region := by
  obtain ⟨u, v, hu, hl, rfl, hv⟩ := h
  obtain ⟨u', v', hu', hl', rfl, hv'⟩ := h'
  rcases hu.linear hu' with hr | hr
  · exact Nat.ne_of_lt (hl.region_lt hv hr hl'.executes hne)
  · exact Nat.ne_of_gt (hl'.region_lt hv' hr hl.executes (Ne.symm hne))

theorem Made.le_region {i : InstId} {r : Pointer} (h : Made p limit cs s t i r) :
    s.memory.regions.size ≤ r.region := by
  obtain ⟨u, v, hu, _, rfl, _⟩ := h
  exact hu.regions_size_le

/-- Roots that cannot alias are in different regions. -/
theorem RootAt.region_ne {t' : State} {x y : Operand} {r r' : Pointer}
    (hsep : Separate f args s.memory.regions.size)
    (h : RootAt p limit args cs s t (f.place x).root r)
    (h' : RootAt p limit args cs s t' (f.place y).root r')
    (hna : (f.place x).root.mayAlias (f.place y).root = false) : r.region ≠ r'.region := by
  cases hx : (f.place x).root with
  | unknown =>
    rw [hx] at hna
    cases hna
  | param k na =>
    cases hy : (f.place y).root with
    | unknown =>
      rw [hx, hy] at hna
      cases hna
    | param l nb =>
      rw [hx] at h hna
      rw [hy] at h' hna
      simp only [MemRoot.mayAlias, Bool.or_eq_false_iff, beq_eq_false_iff_ne,
        Bool.not_eq_false_eq_eq_true, Bool.and_eq_true] at hna
      obtain ⟨hkl, rfl, rfl⟩ := hna
      obtain ⟨pk, hpk, hnk⟩ := f.param_of_placeWithin _ _ hx
      obtain ⟨pl, hpl, hnl⟩ := f.param_of_placeWithin _ _ hy
      exact hsep.region_ne k l pk pl r r' hkl hpk hpl hnk hnl h h'
    | alloca j =>
      rw [hx] at h
      rw [hy] at h'
      exact Nat.ne_of_lt (Nat.lt_of_lt_of_le (hsep.region_lt k r h) h'.le_region)
  | alloca i =>
    cases hy : (f.place y).root with
    | unknown =>
      rw [hx, hy] at hna
      cases hna
    | param l nb =>
      rw [hx] at h
      rw [hy] at h'
      exact Nat.ne_of_gt (Nat.lt_of_lt_of_le (hsep.region_lt l r' h') h.le_region)
    | alloca j =>
      rw [hx] at h hna
      rw [hy] at h' hna
      exact Made.region_ne h h' (by simpa [MemRoot.mayAlias] using hna)

/-- In a function that the verifier accepts and that lists no instruction twice and used ones in
the block they record, the walk from every reachable access to its root ends.  In every
activation, every access goes through a pointer that lies where the walk says.  If the caller
keeps its promises about pointers, accesses whose roots cannot alias go to different regions. -/
theorem accesses_located {p : Program} {f : Func} (hv : f.verify p.types = .ok ())
    (ho : f.ListedOnce) (hl : f.UsesListed) :
    (∀ b i ptr, (FlowGraph.ofFunc f).Reachable b → i ∈ f.body b → (f.op i).pointer? = some ptr →
      f.Traces ptr (f.place ptr)) ∧
    ∀ limit args cs m n s, n ≤ limit → invoke p limit f args cs m n = .next s →
      (∀ t i ptr q, Accesses p limit cs s t i ptr q →
        Located p limit args cs s t (f.tyOf ptr) (f.place ptr) q) ∧
      (Separate f args m.regions.size → ∀ t i ptr q t' i' ptr' q',
        Accesses p limit cs s t i ptr q → Accesses p limit cs s t' i' ptr' q' →
        (f.place ptr).root.mayAlias (f.place ptr').root = false → q.region ≠ q'.region) := by
  refine ⟨fun b i ptr hr hi hptr => ?_, fun limit args cs m n s hn hs => ?_⟩
  · have hb := hr.live
    rw [FlowGraph.blocks_ofFunc] at hb
    have hf := Func.wellFormed_of_verify (Func.isDeclaration_of_live hb) hv
    obtain ⟨hmem, hphi⟩ := mem_operands_of_pointer? hptr
    exact hf.traces_place hl hr hi hphi hmem
  · obtain ⟨e, fr, n', hent, _, _, rfl⟩ := invoke_eq_next_iff.mp hs
    have hf := Func.wellFormed_of_verify (Func.isDeclaration_of_live (List.mem_of_head? hent)) hv
    have located : ∀ t i ptr q, Accesses p limit cs ⟨fr, cs, m, n'⟩ t i ptr q →
        Located p limit args cs ⟨fr, cs, m, n'⟩ t (f.tyOf ptr) (f.place ptr) q := by
      intro t i ptr q hacc
      refine (active_of_reaches hf ho hl hn hs hacc.reaches ?_).located hacc
      exact Nat.le_of_eq (congrArg List.length hacc.executes.1.symm)
    refine ⟨located, fun hsep t i ptr q t' i' ptr' q' hacc hacc' hna => ?_⟩
    obtain ⟨r, hroot, hreg, _⟩ := located t i ptr q hacc
    obtain ⟨r', hroot', hreg', _⟩ := located t' i' ptr' q' hacc'
    rw [hreg, hreg']
    exact RootAt.region_ne hsep hroot hroot' hna

/-- A function with a stack slot (0), a cast of it (1), a pointer step from the cast (2), and
loads through both (3 and 4).  The instructions of its block are given. -/
def slotFunc (body : List InstId) : Func where
  name := "slot"
  params := #[⟨"n", 2, false⟩]
  ret := 1
  blocks := #[⟨"entry", body, false⟩]
  insts := #[⟨.alloca 1 4, 3, none, some 0⟩, ⟨.bitcast (.inst 0), 3, none, some 0⟩,
    ⟨.gep (.inst 1) (.param 0), 3, none, some 0⟩, ⟨.load (.inst 2), 1, none, some 0⟩,
    ⟨.load (.inst 1), 1, none, some 0⟩, ⟨.ret (some (.inst 4)), 0, none, some 0⟩]
  constants := #[]
  layout := [0]

/-- The program of `slotFunc`. -/
def slotProgram (body : List InstId) : Program where
  types := ⟨#[⟨none, .void⟩, ⟨none, .scalar .f32⟩, ⟨none, .scalar .i64⟩, ⟨none, .pointer 1⟩]⟩
  funcs := #[slotFunc body]

/-- A state of `slotProgram`, by the instructions to come, the pointers computed so far, and the
number of regions. -/
def slotState (body rest : List InstId) (results : List Pointer) (regions : Nat) : State :=
  ⟨⟨slotFunc body, [.int 5],
      (results.map (some ∘ Datum.ptr) ++ List.replicate (6 - results.length) none).toArray, 0, rest⟩,
    [], ⟨Array.replicate regions (Array.replicate 4 0), 0, 0⟩, body.length - rest.length⟩

theorem located_slotFunc :
    Located (slotProgram [0, 1, 2, 3, 4, 5]) 10 [.int 5] []
      (slotState [0, 1, 2, 3, 4, 5] [0, 1, 2, 3, 4, 5] [] 0)
      (slotState [0, 1, 2, 3, 4, 5] [3, 4, 5] [⟨0, 0⟩, ⟨0, 0⟩, ⟨0, 20⟩] 1)
      3 ⟨.alloca 0, .index (.param 0)⟩ ⟨0, 20⟩ := by
  have h₁ : Reaches (slotProgram [0, 1, 2, 3, 4, 5]) 10 (Alive [])
      (slotState [0, 1, 2, 3, 4, 5] [0, 1, 2, 3, 4, 5] [] 0)
      (slotState [0, 1, 2, 3, 4, 5] [1, 2, 3, 4, 5] [⟨0, 0⟩] 1) := .of_step rfl (Nat.zero_le _)
  have h₂ : Reaches (slotProgram [0, 1, 2, 3, 4, 5]) 10 (Alive [])
      (slotState [0, 1, 2, 3, 4, 5] [1, 2, 3, 4, 5] [⟨0, 0⟩] 1)
      (slotState [0, 1, 2, 3, 4, 5] [2, 3, 4, 5] [⟨0, 0⟩, ⟨0, 0⟩] 1) :=
    .of_step rfl (Nat.zero_le _)
  have h₃ : Reaches (slotProgram [0, 1, 2, 3, 4, 5]) 10 (Alive [])
      (slotState [0, 1, 2, 3, 4, 5] [2, 3, 4, 5] [⟨0, 0⟩, ⟨0, 0⟩] 1)
      (slotState [0, 1, 2, 3, 4, 5] [3, 4, 5] [⟨0, 0⟩, ⟨0, 0⟩, ⟨0, 20⟩] 1) :=
    .of_step rfl (Nat.zero_le _)
  have hall := (accesses_located (p := slotProgram [0, 1, 2, 3, 4, 5])
    (f := slotFunc [0, 1, 2, 3, 4, 5]) (by cbv) (by decide) (by decide)).2
  exact (hall 10 [.int 5] [] .empty 0 _ (Nat.zero_le _) rfl).1 _ 3 (.inst 2) ⟨0, 20⟩
    ⟨(h₁.trans h₂).trans h₃, ⟨rfl, rfl⟩, rfl, rfl⟩

/-- A function that lists its stack slot again after the cast is accepted.  The load through the
cast then goes to region 0, although the latest execution of its root made region 1. -/
theorem slotFunc_twice :
    (slotFunc [0, 1, 0, 4, 5]).verify (slotProgram []).types = .ok () ∧
    (slotFunc [0, 1, 0, 4, 5]).place (.inst 1) = ⟨.alloca 0, .zero⟩ ∧
    ∃ s u t, invoke (slotProgram [0, 1, 0, 4, 5]) 10 (slotFunc [0, 1, 0, 4, 5]) [.int 5] [] .empty 0 =
        .next s ∧
      Accesses (slotProgram [0, 1, 0, 4, 5]) 10 [] s t 4 (.inst 1) ⟨0, 0⟩ ∧
      Latest (slotProgram [0, 1, 0, 4, 5]) 10 [] 0 u t t ∧ u.memory.regions.size = 1 := by
  have h₁ : Reaches (slotProgram [0, 1, 0, 4, 5]) 10 (Alive [])
      (slotState [0, 1, 0, 4, 5] [0, 1, 0, 4, 5] [] 0)
      (slotState [0, 1, 0, 4, 5] [1, 0, 4, 5] [⟨0, 0⟩] 1) := .of_step rfl (Nat.zero_le _)
  have h₂ : Reaches (slotProgram [0, 1, 0, 4, 5]) 10 (Alive [])
      (slotState [0, 1, 0, 4, 5] [1, 0, 4, 5] [⟨0, 0⟩] 1)
      (slotState [0, 1, 0, 4, 5] [0, 4, 5] [⟨0, 0⟩, ⟨0, 0⟩] 1) := .of_step rfl (Nat.zero_le _)
  have h₃ : step (slotProgram [0, 1, 0, 4, 5]) 10
      (slotState [0, 1, 0, 4, 5] [0, 4, 5] [⟨0, 0⟩, ⟨0, 0⟩] 1) =
      .next (slotState [0, 1, 0, 4, 5] [4, 5] [⟨1, 0⟩, ⟨0, 0⟩] 2) := rfl
  exact ⟨by cbv, by decide, _, _, _, rfl,
    ⟨(h₁.trans h₂).trans (.of_step h₃ (Nat.zero_le _)), ⟨rfl, rfl⟩, rfl, rfl⟩,
    ⟨⟨rfl, rfl⟩, step_eq_next_iff.mp h₃, .refl⟩, rfl⟩

end Machine

end LoopNest
