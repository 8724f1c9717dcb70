import LoopNest.Proofs.Machine.PointsTo

/-!
# Frames of an activation

An activation executes the instructions of a block up to the first terminator, which takes it to
another block.  In between it may call functions, and waits for them.  So its frame changes in two
ways only: an instruction that is no terminator gets a result (`Frame.Records`), or a block is
entered (`Frame.Enters`).

`Machine.Held` says of a condition that it holds of the frame of an activation while it runs, and
also of the frame that it will go on with once a call has returned, whatever that returns.
`Held.step` is the step lemma: apart from jumps, a step of the machine leaves the frame of the
activation alone or records a result in it.

`Frame.Within` is what holds of all these frames in a well-formed function.  Unlike
`Frame.Coherent` it does not need that blocks list instructions once: it says that a result can
only come from an instruction in the part of a block that is executed.
-/

namespace LoopNest

/-! ## What an activation does by itself -/

namespace Frame

/-- The instructions to come before the next terminator. -/
def pending (fr : Frame) : List InstId := fr.rest.takeWhile fun i => !(fr.func.op i).isTerminator

/-- A pure instruction is still to come, or has the result that its operands give now. -/
def Fresh (fr : Frame) (tt : TypeTable) (j : InstId) : Prop :=
  j ∈ fr.pending ∨ ∀ d, fr.values j = some d →
    pureResult tt (fr.value tt) fr.func.tyOf (fr.func.inst j).ty (fr.func.op j) = some d

/-- The next instruction is no terminator and gets a result, which is any datum if it is a call. -/
inductive Records (tt : TypeTable) (fr : Frame) : Frame → Prop where
  | intro {i : InstId} {rest : List InstId} {d : Datum} : fr.rest = i :: rest →
      (fr.func.op i).isTerminator = false →
      ((fr.func.op i).isPure = true →
        pureResult tt (fr.value tt) fr.func.tyOf (fr.func.inst i).ty (fr.func.op i) = some d) →
      Records tt fr (fr.past.record i d)

/-- The next instruction is a terminator that leads to a block, which is entered. -/
inductive Enters (tt : TypeTable) (fr : Frame) (c : BlockId) : Frame → Prop where
  | intro {i : InstId} {rest : List InstId} {limit n n' : Nat} {fr' : Frame} : fr.rest = i :: rest →
      Leaves (fr.value tt) (fr.func.op i) (.goto c) → n ≤ limit →
      fr.past.enter tt limit (some fr.block) c n = (.ok fr', n') → Enters tt fr c fr'

/-- A frame in the middle of a reachable block of a function.  Only what stands among the phis of
some block or in the code after them has a result. -/
structure Within (fr : Frame) (f : Func) (args : List Datum) : Prop where
  func_eq : fr.func = f
  args_eq : fr.args = args
  size_eq : fr.results.size = f.insts.size
  reachable : (FlowGraph.ofFunc f).Reachable fr.block
  /-- No terminator was executed in this block. -/
  afterPhis_eq : ∃ done, f.afterPhis fr.block = done ++ fr.rest ∧
    ∀ i ∈ done, (f.op i).isTerminator = false
  executed : ∀ i d, fr.values i = some d → ∃ b ∈ f.layout, i ∈ f.phis b ∨ i ∈ f.code b

variable {tt : TypeTable} {f : Func} {args : List Datum} {fr fr' : Frame} {i : InstId} {c : BlockId}

theorem Within.value_eq (h : fr.Within f args) : fr.value tt = f.value tt args fr.values := by
  unfold value
  rw [h.func_eq, h.args_eq]

theorem Within.live (h : fr.Within f args) : fr.block ∈ f.layout :=
  FlowGraph.blocks_ofFunc f ▸ h.reachable.live

theorem Within.mem_afterPhis (h : fr.Within f args) (hi : i ∈ fr.rest) : i ∈ f.afterPhis fr.block := by
  obtain ⟨done, hdone, _⟩ := h.afterPhis_eq
  exact hdone ▸ List.mem_append_right _ hi

theorem Within.mem_body (h : fr.Within f args) (hi : i ∈ fr.rest) : i ∈ f.body fr.block :=
  Func.mem_body_of_afterPhis (h.mem_afterPhis hi)

/-- What comes before the next terminator is part of the code of the block. -/
theorem Within.mem_code (h : fr.Within f args) (hi : i ∈ fr.pending) : i ∈ f.code fr.block := by
  obtain ⟨done, hdone, hterm⟩ := h.afterPhis_eq
  unfold pending at hi
  rw [h.func_eq] at hi
  rw [Func.code, hdone, List.takeWhile_append_of_pos fun j hj => by rw [hterm j hj]; rfl]
  exact List.mem_append_right _ hi

/-- An instruction that is executed next is pending, if it is no terminator. -/
theorem pending_cons {rest : List InstId} (hrest : fr.rest = i :: rest)
    (ht : (fr.func.op i).isTerminator = false) (d : Datum) :
    fr.pending = i :: (fr.past.record i d).pending := by
  unfold pending
  rw [rest_record, rest_past hrest, func_record, func_past, hrest,
    List.takeWhile_cons_of_pos (by rw [ht]; rfl)]

/-- In front of a terminator, nothing is pending. -/
theorem pending_eq_nil {rest : List InstId} (hrest : fr.rest = i :: rest)
    (ht : (fr.func.op i).isTerminator = true) : fr.pending = [] := by
  unfold pending
  rw [hrest, List.takeWhile_cons_of_neg (by rw [ht]; decide)]

theorem block_of_enter {source : Option BlockId} {limit n n' : Nat}
    (h : fr.enter tt limit source c n = (.ok fr', n')) : fr'.block = c := by
  simp only [enter] at h
  split at h
  · cases (Prod.mk.inj h).1
  · cases h
    rfl

/-! ## Keeping to the code -/

variable (hf : f.WellFormed)
include hf

/-- The results after an instruction was executed. -/
theorem Within.values_past_record (h : fr.Within f args) {rest : List InstId}
    (hrest : fr.rest = i :: rest) (d : Datum) :
    (fr.past.record i d).values = fr.values.set i d := by
  have hlt : i < f.insts.size := hf.inst_lt h.live (h.mem_body (hrest ▸ List.mem_cons_self))
  rw [values_record (by rw [show fr.past.results.size = _ from h.size_eq]; exact hlt), values_past]

theorem Within.record (h : fr.Within f args) {rest : List InstId} (hrest : fr.rest = i :: rest)
    (ht : (f.op i).isTerminator = false) (d : Datum) : (fr.past.record i d).Within f args := by
  refine ⟨h.func_eq, h.args_eq, (size_record _ i d).trans h.size_eq, h.reachable, ?_, fun j e he => ?_⟩
  · obtain ⟨done, hdone, hterm⟩ := h.afterPhis_eq
    rw [block_record, block_past, rest_record, rest_past hrest, hdone, hrest]
    refine ⟨done ++ [i], by simp, fun j hj => ?_⟩
    rcases List.mem_append.mp hj with hj | hj
    · exact hterm j hj
    · exact List.mem_singleton.mp hj ▸ ht
  · rw [h.values_past_record hf hrest] at he
    by_cases hji : j = i
    · subst hji
      refine ⟨_, h.live, .inr (h.mem_code ?_)⟩
      rw [pending_cons hrest (h.func_eq ▸ ht) e]
      exact List.mem_cons_self
    · rw [Values.set_of_ne hji] at he
      exact h.executed j e he

theorem Within.records (h : fr.Within f args) (hr : fr.Records tt fr') : fr'.Within f args := by
  obtain ⟨hrest, ht, _⟩ := hr
  exact h.record hf hrest (h.func_eq ▸ ht) _

/-- A frame that has entered a block, from another one or at the start. -/
theorem within_of_enter (hr : (FlowGraph.ofFunc f).Reachable c) {b : BlockId} {is : List InstId}
    {ρ : Values} (hat : fr.At f args b is ρ)
    (hex : ∀ i d, ρ i = some d → ∃ b ∈ f.layout, i ∈ f.phis b ∨ i ∈ f.code b)
    {source : Option BlockId} {limit n n' : Nat} (hn : n ≤ limit)
    (he : fr.enter tt limit source c n = (.ok fr', n')) : fr'.Within f args ∧
      (∀ i ∈ f.phis c, (phiValue tt f args source ρ i).isSome) ∧
      fr'.block = c ∧ fr'.rest = f.afterPhis c ∧ fr'.values = entered tt f args source c ρ := by
  have hlive : c ∈ f.layout := FlowGraph.blocks_ofFunc f ▸ hr.live
  obtain ⟨_, _, hready, hat'⟩ :=
    hat.of_enter (fun j hj => hf.inst_lt hlive (Func.mem_body_of_phis hj)) hn he
  refine ⟨⟨hat'.func_eq, hat'.args_eq, hat'.size_eq, ?_, ⟨[], ?_, ?_⟩, ?_⟩, hready, hat'.block_eq,
    hat'.rest_eq, hat'.values_eq⟩
  · rw [hat'.block_eq]
    exact hr
  · rw [hat'.block_eq, hat'.rest_eq]
    rfl
  · exact fun i hi => absurd hi List.not_mem_nil
  · intro i d hd
    by_cases hi : i ∈ f.phis c
    · exact ⟨c, hlive, .inl hi⟩
    · rw [hat'.values_eq, entered_of_not_mem hi] at hd
      exact hex i d hd

/-- A terminator leads along an edge. -/
theorem Within.edge (h : fr.Within f args) {rest : List InstId} (hrest : fr.rest = i :: rest)
    {value : Operand → Option Datum} (hl : Leaves value (f.op i) (.goto c)) :
    (FlowGraph.ofFunc f).Edge fr.block c := by
  have hmem := h.mem_body (hrest ▸ List.mem_cons_self : i ∈ fr.rest)
  have ht := hf.terminator_eq _ h.live i hmem hl.isTerminator
  have hs := (Func.mem_successors_iff ht).mpr hl.mem_targets
  exact (FlowGraph.edge_ofFunc f _ c).mpr ⟨h.live, hf.successor_live _ h.live c hs, hs⟩

/-- Where a frame is after it has entered a block, and what it has left. -/
theorem Within.enters (h : fr.Within f args) (he : fr.Enters tt c fr') : fr'.Within f args ∧
    (∃ t, f.terminator? fr.block = some t ∧ fr.pending = [] ∧
      Leaves (f.value tt args fr.values) (f.op t) (.goto c)) ∧
    (∀ i ∈ f.phis c, (phiValue tt f args (some fr.block) fr.values i).isSome) ∧
    (FlowGraph.ofFunc f).Edge fr.block c ∧ fr'.block = c ∧ fr'.rest = f.afterPhis c ∧
    fr'.values = entered tt f args (some fr.block) c fr.values := by
  obtain ⟨hrest, hl, hn, he⟩ := he
  rw [h.value_eq, h.func_eq] at hl
  have hedge := h.edge hf hrest hl
  have hmem := h.mem_body (hrest ▸ List.mem_cons_self)
  have hat := at_self fr.past (h.size_eq.trans (congrArg (fun g => g.insts.size) h.func_eq.symm))
  rw [func_past, args_past, h.func_eq, h.args_eq, values_past] at hat
  obtain ⟨hw, hready, hrest'⟩ := within_of_enter hf (h.reachable.edge hedge) hat h.executed hn he
  exact ⟨hw, ⟨_, hf.terminator_eq _ h.live _ hmem hl.isTerminator,
    pending_eq_nil hrest (h.func_eq ▸ hl.isTerminator), hl⟩, hready, hedge, hrest'⟩

/-- The frame of an activation that starts. -/
theorem within_of_activate {e : BlockId} (hent : f.entry? = some e) {limit n n' : Nat}
    (hn : n ≤ limit) (he : (activate f args).enter tt limit none e n = (.ok fr', n')) :
    fr'.Within f args ∧ fr'.block = e := by
  obtain ⟨hw, _, hb, _⟩ := within_of_enter hf (Func.reachable_entry hent) (at_activate f args)
    (fun _ _ h => by cases h) hn he
  exact ⟨hw, hb⟩

/-- An instruction is only executed in the block that it records. -/
theorem Within.mem_of_owner (h : fr.Within f args) (ho : f.owner i = some c) {d : Datum}
    (hd : fr.values i = some d) : c ∈ f.layout ∧ (i ∈ f.phis c ∨ i ∈ f.code c) := by
  obtain ⟨b, hb, hi⟩ := h.executed i d hd
  have hbc : b = c := Option.some.inj <|
    (hf.owner_eq b hb i (hi.elim Func.mem_body_of_phis Func.mem_body_of_code)).symm.trans ho
  exact hbc ▸ ⟨hb, hi⟩

/-- Recording a result leaves values alone that are not computed in the block. -/
theorem Within.value_of_records (h : fr.Within f args) (hr : fr.Records tt fr') {v : Operand}
    (hv : ∀ j, v = .inst j → f.owner j ≠ some fr.block ∨ (f.op j).isPhi = true) :
    fr'.block = fr.block ∧ f.value tt args fr'.values v = f.value tt args fr.values v := by
  obtain ⟨hrest, ht, _⟩ := hr
  refine ⟨rfl, ?_⟩
  rw [h.values_past_record hf hrest]
  refine Func.value_set_of_ne ?_
  rintro rfl
  have hmem := h.mem_afterPhis (hrest ▸ List.mem_cons_self)
  rcases hv _ rfl with ho | hphi
  · exact ho (hf.owner_eq _ h.live _ (Func.mem_body_of_afterPhis hmem))
  · cases hphi.symm.trans (hf.phi_first _ h.live _ hmem)

/-- Entering a block leaves values alone that are not phis of it. -/
theorem Within.value_of_enters (h : fr.Within f args) (he : fr.Enters tt c fr') {v : Operand}
    (hv : ∀ j, v = .inst j → j ∉ f.phis c) :
    f.value tt args fr'.values v = f.value tt args fr.values v := by
  obtain ⟨_, _, _, _, _, _, hvalues⟩ := h.enters hf he
  rw [hvalues]
  cases v with
  | inst j => exact entered_of_not_mem (hv j rfl)
  | _ => rfl

/-- A pure instruction whose operands are not computed in the block stays fresh. -/
theorem Within.fresh_of_records (h : fr.Within f args) (hr : fr.Records tt fr')
    (hpure : (f.op i).isPure = true) (hops : ∀ v ∈ (f.op i).operands, ∀ j, v = .inst j →
      f.owner j ≠ some fr.block ∨ (f.op j).isPhi = true)
    (hi : fr.Fresh tt i) : fr'.Fresh tt i := by
  have hw := h.records hf hr
  have hsame : pureResult tt (fr'.value tt) f.tyOf (f.inst i).ty (f.op i) =
      pureResult tt (fr.value tt) f.tyOf (f.inst i).ty (f.op i) := by
    refine pureResult_congr fun v hv => ?_
    rw [hw.value_eq, h.value_eq]
    exact (h.value_of_records hf hr (hops v hv)).2
  unfold Fresh at hi ⊢
  rw [hw.func_eq, hsame]
  rw [h.func_eq] at hi
  obtain @⟨j, rest, d, hrest, ht, hd⟩ := hr
  rw [pending_cons hrest ht d, List.mem_cons] at hi
  rw [h.values_past_record hf hrest]
  by_cases hij : i = j
  · subst hij
    refine .inr fun e he => ?_
    rw [Values.set_self] at he
    rw [← he, ← hd (h.func_eq ▸ hpure), h.func_eq]
  · rw [Values.set_of_ne hij]
    exact hi.imp_left fun hi => hi.resolve_left hij

/-- A pure instruction of a block that is entered is still to come, or is never executed. -/
theorem Within.fresh_of_enters (h : fr.Within f args) (he : fr.Enters tt c fr')
    (ho : f.owner i = some c) (hpure : (f.op i).isPure = true) : fr'.Fresh tt i := by
  obtain ⟨hw, _, _, _, hblock, hrest, hvalues⟩ := h.enters hf he
  have hphi : i ∉ f.phis c := fun hmem =>
    by cases (Op.not_isPhi_of_isPure hpure).symm.trans (Func.isPhi_of_mem_phis hmem)
  by_cases hi : i ∈ f.code c
  · left
    rwa [pending, hrest, hw.func_eq]
  · refine .inr fun d hd => ?_
    exact absurd (hw.mem_of_owner hf ho hd).2 (not_or.mpr ⟨hphi, hi⟩)

end Frame

/-! ## Running and waiting -/

namespace Machine

variable {p : Program} {limit : Nat} {cs : List Caller} {s t u : State} {P Q : Frame → Prop}

/-- The frame of the activation above some waiting frames meets a condition, or it waits for a call
and will meet it after any result. -/
def Held (cs : List Caller) (P : Frame → Prop) (t : State) : Prop :=
  (t.callers = cs ∧ P t.frame) ∨
    ∃ pre c, t.callers = pre ++ c :: cs ∧ ∀ d, P (c.frame.record c.call d)

theorem Held.mono (h : Held cs P t) (hPQ : ∀ fr, P fr → Q fr) : Held cs Q t := by
  rcases h with ⟨hcs, h⟩ | ⟨pre, c, hcs, h⟩
  · exact .inl ⟨hcs, hPQ _ h⟩
  · exact .inr ⟨pre, c, hcs, fun d => hPQ _ (h d)⟩

/-- The frame of an activation that runs. -/
theorem Held.frame (h : Held cs P t) (hcs : t.callers = cs) : P t.frame := by
  rcases h with ⟨_, h⟩ | ⟨pre, c, hpre, _⟩
  · exact h
  · have hlen := congrArg List.length (hpre.symm.trans hcs)
    simp only [List.length_append, List.length_cons] at hlen
    omega

/-- The activation above some waiting frames jumps from the end of a block to another one. -/
structure Jumps (p : Program) (limit : Nat) (cs : List Caller) (a b : BlockId) (t u : State) :
    Prop where
  advances : Advances p limit t u
  before : t.callers = cs
  after : u.callers = cs
  /-- A terminator is executed. -/
  terminator : ∃ i ∈ t.frame.rest.head?, (t.frame.func.op i).isTerminator = true
  source : t.frame.block = a
  target : u.frame.block = b

/-- What is left and entered in a jump. -/
theorem Jumps.enters {a b : BlockId} (h : Jumps p limit cs a b t u) :
    t.frame.Enters p.types b u.frame := by
  obtain ⟨ha, hcs, hcs', ⟨i, hi, ht⟩, _, rfl⟩ := h
  have next : ∀ {fr : Frame} {j rest}, fr.rest = j :: rest → i ∈ fr.rest.head? → j = i := by
    intro fr j rest hrest hi
    rw [hrest] at hi
    exact Option.some.inj hi
  cases ha with
  | plain hrest _ hplain _ =>
    obtain rfl := next hrest hi
    cases ht.symm.trans (Op.not_isTerminator_of_isPlain hplain)
  | jump hrest hn hl he =>
    have hb := Frame.block_of_enter he
    dsimp only
    rw [hb]
    exact .intro hrest hl hn he
  | call hrest _ hop _ _ _ _ _ =>
    obtain rfl := next hrest hi
    dsimp only at ht
    rw [hop] at ht
    cases ht
  | ret _ _ _ =>
    have hlen := congrArg List.length (hcs.trans hcs'.symm)
    simp at hlen

/-- A step that keeps an activation is a jump of it, or leaves its frame alone but for a result that
is recorded. -/
theorem Held.step (h : Held cs P t) (ha : Advances p limit t u) (hal : Alive cs u) :
    Jumps p limit cs t.frame.block u.frame.block t u ∨
      Held cs (fun fr' => P fr' ∨ ∃ fr, P fr ∧ fr.Records p.types fr') u := by
  rcases h with ⟨hcs, h⟩ | ⟨pre, c, hcs, h⟩
  · subst hcs
    cases ha with
    | plain hrest hn hplain hc =>
      refine .inr (.inl ⟨rfl, .inr ⟨_, h, .intro hrest (Op.not_isTerminator_of_isPlain hplain) ?_⟩⟩)
      exact (compute_eq_ok hplain hc).1
    | jump hrest hn hl he =>
      refine .inl ⟨.jump hrest hn hl he, rfl, rfl, ⟨_, ?_, hl.isTerminator⟩, rfl, rfl⟩
      rw [hrest]
      rfl
    | call hrest _ hop _ _ _ _ _ =>
      refine .inr (.inr ⟨[], _, rfl, fun d => .inr ⟨_, h, .intro hrest ?_ ?_⟩⟩)
      · rw [hop]
        rfl
      · rw [hop]
        exact fun hpure => by cases hpure
    | ret _ _ _ => exact absurd hal (by simp [Alive])
  · have h' := fun d => Or.inl (b := ∃ fr, P fr ∧ fr.Records p.types (c.frame.record c.call d)) (h d)
    right
    cases ha with
    | plain _ _ _ _ => exact .inr ⟨pre, c, hcs, h'⟩
    | jump _ _ _ _ => exact .inr ⟨pre, c, hcs, h'⟩
    | call _ _ _ _ _ _ _ _ => exact .inr ⟨_ :: pre, c, congrArg (_ :: ·) hcs, h'⟩
    | ret _ _ _ =>
      cases pre with
      | nil =>
        cases hcs
        exact .inl ⟨rfl, h' _⟩
      | cons _ pre =>
        cases hcs
        exact .inr ⟨pre, c, rfl, h'⟩

/-- The frames of an activation of a well-formed function. -/
theorem held_of_reaches {f : Func} {args : List Datum} (hf : f.WellFormed) {m : Memory} {n : Nat}
    (hn : n ≤ limit) (hs : invoke p limit f args cs m n = .next s)
    (hr : Reaches p limit (Alive cs) s t) (hal : Alive cs t) : Held cs (Frame.Within · f args) t := by
  refine hr.invariant (motive := fun t => Alive cs t → Held cs (Frame.Within · f args) t) ?_ ?_ hal
  · intro _
    obtain ⟨e, fr, n', hent, _, he, rfl⟩ := invoke_eq_next_iff.mp hs
    exact .inl ⟨rfl, (Frame.within_of_activate hf hent hn he).1⟩
  · intro t u _ hal ha ih hal'
    rcases (ih hal).step ha hal' with hj | hheld
    · exact .inl ⟨hj.after, (((ih hal).frame hj.before).enters hf hj.enters).1⟩
    · refine hheld.mono ?_
      rintro fr (hw | ⟨fr', hw, hrec⟩)
      · exact hw
      · exact hw.records hf hrec

end Machine

end LoopNest
