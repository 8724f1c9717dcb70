import LoopNest.Proofs.Vectorize.Shapes

/-!
# Widened accesses are contiguous

A load or store is widened when its pointer has the lane shape of an address that advances by one
element.  Executed `k` laps later in the same run of the loop, it goes `k` elements further on
(`widened_contiguous`), unless the index wraps around in its type: strides are found in integers
without bounds, and a type with fewer than 64 bits is left out of account.  `wrapping_accepted` is a
loop in which that happens.

What has the same lane shape in every lane is worth the same in every lap
(`Parallel.agrees`): it is computed from such values, loaded from memory that the loop leaves alone,
or an index of stride zero.
-/

namespace LoopNest

namespace Vectorize

open Machine NaturalLoop

variable {p : Program} {limit : Nat} {c : Context} {steps : List (InstId × Lowering)}
  {T : LaneShapes} {args : List Datum} {cs : List Caller} {s u w : State} {k : Int64}
  {done rest : List InstId} {i : InstId}

/-! ## Visits of the body -/

/-- A state at a point of the body of an accepted loop. -/
structure InBody (p : Program) (limit : Nat) (c : Context) (args : List Datum) (cs : List Caller)
    (s : State) (done rest : List InstId) (u : State) : Prop where
  value_eq : u.frame.value p.types = c.func.value p.types args u.frame.values
  rest_eq : u.frame.rest = rest
  current : UpToDate p.types c.func args (c.func.Available c.loop.bodyEntry done) u.frame.values
  recent : Recent p limit c.func cs s c.loop.bodyEntry u

/-- Two states at the same point of the body, in one run of the loop, between which the induction
value has advanced. -/
structure Parallel (p : Program) (limit : Nat) (c : Context) (args : List Datum) (cs : List Caller)
    (s : State) (k : Int64) (done rest : List InstId) (u w : State) : Prop where
  before : InBody p limit c args cs s done rest u
  after : InBody p limit c args cs s done rest w
  since : Since c.func c.natural (Quiet p limit c.func cs s c.loop.bodyEntry) u w
  counts : ∃ x y, u.frame.values c.loop.induction = some (.int x) ∧
    w.frame.values c.loop.induction = some (.int y) ∧
    ∀ sc, p.types.elementScalar? (c.func.tyOf c.loop.iv) = some sc →
      sc.normalize y = y ∧ sc.normalize y = sc.normalize (x + k)

/-- A value that is the same in both states, as far as it is there. -/
def Agree (p : Program) (u w : State) (v : Operand) : Prop :=
  ∀ d d', u.frame.value p.types v = some d → w.frame.value p.types v = some d' → d' = d

theorem InBody.value_inst (h : InBody p limit c args cs s done rest u) (j : InstId) :
    u.frame.value p.types (.inst j) = u.frame.values j := by
  rw [h.value_eq]
  rfl

theorem InBody.result (h : InBody p limit c args cs s done rest u) {j : InstId}
    (hj : c.func.Available c.loop.bodyEntry done j) (hpure : (c.func.op j).isPure = true) {d : Datum}
    (hd : u.frame.value p.types (.inst j) = some d) :
    pureResult p.types (u.frame.value p.types) c.func.tyOf (c.func.inst j).ty (c.func.op j) =
      some d := by
  rw [h.value_eq]
  exact h.current j hj hpure d (h.value_inst j ▸ hd)

/-- What a pointer step was computed from. -/
theorem InBody.gep (h : InBody p limit c args cs s done rest u) {g : InstId}
    (hg : c.func.Available c.loop.bodyEntry done g) {base idx : Operand}
    (hop : c.func.op g = .gep base idx) {q : Pointer}
    (hq : u.frame.value p.types (.inst g) = some (.ptr q)) :
    ∃ q₀ x e, u.frame.value p.types base = some (.ptr q₀) ∧
      u.frame.value p.types idx = some (.int x) ∧
      p.types.pointee? (c.func.tyOf (.inst g)) = some e ∧
      q = q₀.advance (x * Int64.ofNat (p.types.paddedSize e)) := by
  have hres := h.result hg (by rw [hop]; rfl) hq
  rw [hop] at hres
  simp only [pureResult] at hres
  split at hres
  · next q₀ x e hbase hidx he =>
    cases hres
    exact ⟨q₀, x, e, hbase, hidx, (c.func.tyOf_inst g).symm ▸ he, rfl⟩
  · cases hres

namespace Accepted

variable (h : Accepted c steps T)
include h

/-- What a value of the body uses of the body comes before it. -/
theorem mem_of_operand {j g : InstId} (hbody : c.func.body c.loop.bodyEntry = done ++ j :: rest)
    (hg : g ∈ c.func.body c.loop.bodyEntry) (hv : Operand.inst g ∈ (c.func.op j).operands) :
    g ∈ done := by
  have hj : j ∈ c.func.body c.loop.bodyEntry := hbody ▸ List.mem_append_right _ List.mem_cons_self
  obtain ⟨d, hd, _, hsame⟩ := h.wellFormed.use_dominated _ h.live h.reachable j hj
    (h.tight.plain j hj).1 g hv
  have hown := h.wellFormed.owner_eq _ h.live g hg
  exact hsame (Option.some.inj (hd.symm.trans hown)) done rest hbody

/-- What is invariant stays the same. -/
theorem value_of_invariant {v : Operand} (hv : c.natural.Invariant c.func v)
    {R : Nat → Prop} (hs : Since c.func c.natural R u w) :
    c.func.value p.types args w.frame.values v = c.func.value p.types args u.frame.values v := by
  cases v with
  | inst j =>
    obtain ⟨d, hd, hout, _⟩ := hv
    refine hs.values_eq j fun b hb hj => hout ?_
    have := h.wellFormed.owner_eq b (CountedLoop.live_of_mem h.tight.isLoop hb) j hj
    exact Option.some.inj (this.symm.trans hd) ▸ hb
  | param n => rfl
  | const n => rfl

/-- The two states are apart by what the induction value has advanced. -/
theorem apart (hty : c.func.WellTyped p.types)
    (hp : Parallel p limit c args cs s k done rest u w)
    (hbody : c.func.body c.loop.bodyEntry = done ++ rest) :
    Apart p.types c.func args c.natural c.dom c.loop.iv (c.func.Available c.loop.bodyEntry done) k
      u.frame.values w.frame.values := by
  refine ⟨hp.before.current, hp.after.current, fun j hj hpure g hg => ?_, fun j o a b hj hop => ?_,
    fun v hv => ?_, ?_⟩
  · exact h.wellFormed.available_of_available h.uses_listed h.reachable hbody hj
      (Op.not_isPhi_of_isPure hpure) hg
  · obtain ⟨d, _, hjd, hdom, _⟩ := h.wellFormed.owner_of_available h.reachable hbody hj
    exact hty.binary (FlowGraph.blocks_ofFunc c.func ▸ (hdom.reachable h.reachable).live) hjd hop
  · rw [h.dom_eq] at hv
    exact h.value_of_invariant (NaturalLoop.isInvariant_iff.mp hv) hp.since
  · obtain ⟨x, y, hx, hy, hxy⟩ := hp.counts
    exact ⟨x, y, hx, hy, fun sc hsc => (hxy sc hsc).2⟩

/-! ## Uniform values -/

/-- An integer operation of stride zero has the same result. -/
theorem agree_of_offset (hty : c.func.WellTyped p.types)
    (hp : Parallel p limit c args cs s k done rest u w)
    (hbody : c.func.body c.loop.bodyEntry = done ++ rest) {j : InstId}
    (hj : c.func.Available c.loop.bodyEntry done j) {o : BinaryOp} {a b : Operand}
    (hop : c.func.op j = .binary o a b) (ho : o.isFloat = false)
    (hs : c.natural.stride? c.func c.dom (.inst j) c.loop.iv = some 0) : Agree p u w (.inst j) := by
  intro d d' hd hd'
  have hpure : (c.func.op j).isPure = true := by rw [hop]; rfl
  have hres := hp.before.result hj hpure hd
  have hres' := hp.after.result hj hpure hd'
  rw [hop] at hres hres'
  obtain ⟨sc, m, n, hsc, _, _, hlane⟩ := lanewise_of_pureResult hres
  obtain ⟨sc', m', n', hsc', _, _, hlane'⟩ := lanewise_of_pureResult hres'
  obtain rfl := Option.some.inj (hsc.symm.trans hsc')
  rw [hp.before.value_inst] at hd
  rw [hp.after.value_inst] at hd'
  rw [← Func.tyOf_inst] at hsc
  rcases (h.apart hty hp hbody).shifted hs (fun _ heq => Operand.inst.inj heq ▸ hj) hsc hd hd' with
    ⟨x, y, rfl, rfl, hxy⟩ | ⟨_, heq⟩
  · rcases BinaryOp.ints_or_none ho hlane with ⟨_, _, _, _, _, hx, hint⟩ | ⟨_, _, hno⟩
    · rcases BinaryOp.ints_or_none ho hlane' with ⟨_, _, _, _, _, hy, hint'⟩ | ⟨_, _, hno'⟩
      · cases hx
        cases hy
        rw [Int64.zero_mul, Int64.add_zero, BinaryOp.normalize_of_onInt hint,
          BinaryOp.normalize_of_onInt hint'] at hxy
        rw [hxy]
      · exact absurd rfl (hno' y)
    · exact absurd rfl (hno x)
  · exact heq

/-- A uniform operand is the same in both states, if the uniform values before its use are. -/
theorem agree_operand (hp : Parallel p limit c args cs s k done rest u w) {pre post : List InstId}
    {j : InstId} (hbody : c.func.body c.loop.bodyEntry = pre ++ j :: post)
    (ih : ∀ g ∈ pre, HasShape c T g .uniform → Agree p u w (.inst g)) {v : Operand}
    (hv : v ∈ (c.func.op j).operands) (hσ : laneShape c T v = .ok .uniform) : Agree p u w v := by
  have hj : j ∈ c.func.body c.loop.bodyEntry := hbody ▸ List.mem_append_right _ List.mem_cons_self
  rcases h.operand hj hv hσ with ⟨_, heq⟩ | ⟨g, hg, rfl, hshape⟩ | ⟨hinv, _⟩
  · cases heq
  · exact ih g (h.mem_of_operand hbody (List.dropLast_subset _ hg) hv) hshape
  · intro d d' hd hd'
    rw [hp.before.value_eq] at hd
    rw [hp.after.value_eq, h.value_of_invariant hinv hp.since] at hd'
    exact Option.some.inj (hd'.symm.trans hd)

/-- What has the same lane shape in every lane is worth the same in every lap. -/
theorem agrees (hty : c.func.WellTyped p.types)
    (hp : Parallel p limit c args cs s k done rest u w)
    (hbody : c.func.body c.loop.bodyEntry = done ++ rest) :
    ∀ pre post, done = pre ++ post → ∀ j ∈ pre, HasShape c T j .uniform → Agree p u w (.inst j) := by
  intro pre
  induction pre using List.reverseRecOn with
  | nil => exact fun _ _ j hj => absurd hj List.not_mem_nil
  | append_singleton pre j ih =>
    intro post hdone j' hj' hshape
    have hdone' : done = pre ++ j :: post := by simpa using hdone
    have ih := ih (j :: post) hdone'
    rcases List.mem_append.mp hj' with hj' | hj'
    · exact ih j' hj' hshape
    obtain rfl := List.mem_singleton.mp hj'
    have hsplit : c.func.body c.loop.bodyEntry = pre ++ j' :: (post ++ rest) := by
      rw [hbody, hdone', List.append_assoc, List.cons_append]
    have hmem : j' ∈ c.func.body c.loop.bodyEntry :=
      hsplit ▸ List.mem_append_right _ List.mem_cons_self
    have hav : c.func.Available c.loop.bodyEntry done j' :=
      .inl (hdone' ▸ List.mem_append_right _ List.mem_cons_self)
    have hnot : ∀ t : State, InBody p limit c args cs s done rest t → j' ∉ t.frame.rest := by
      intro t ht hin
      have hnodup := h.listed_once _ h.live
      rw [ht.rest_eq] at hin
      rw [hbody] at hnodup
      exact (List.nodup_append.mp hnodup).2.2 j' (hdone' ▸ by simp) j' hin rfl
    have hops : ∀ v ∈ (c.func.op j').operands, laneShape c T v = .ok .uniform → Agree p u w v :=
      fun v hv hσ => h.agree_operand hp hsplit ih hv hσ
    intro d d' hd hd'
    cases hshape with
    | pure hop hall =>
      have hres := hp.before.result hav hop hd
      have hres' := hp.after.result hav hop hd'
      refine Option.some.inj (hres'.symm.trans (Eq.trans (pureResult_congr fun v hv => ?_) hres))
      obtain ⟨x, hx⟩ := value_of_pureResult hres v hv
      obtain ⟨x', hx'⟩ := value_of_pureResult hres' v hv
      rw [hx, hx', hops v hv (hall v hv) x x' hx hx']
    | @load ptr hop hptr =>
      have hclear := h.clear hmem hop hptr
      rw [hp.before.value_inst] at hd
      rw [hp.after.value_inst] at hd'
      obtain ⟨q, hq, hload, hquiet⟩ := hp.before.recent.load j' ptr hmem (hnot u hp.before) hop hclear d hd
      obtain ⟨q', hq', hload', _⟩ := hp.after.recent.load j' ptr hmem (hnot w hp.after) hop hclear d' hd'
      cases hops ptr (hop ▸ List.mem_singleton.mpr rfl) hptr _ _ hq hq'
      have hsame := hp.since.regions_eq
      have heq : (Memory.ofRegions u.memory.regions).load p.types q (c.func.inst j').ty =
          (Memory.ofRegions w.memory.regions).load p.types q (c.func.inst j').ty :=
        Memory.load_congr_region hsame.1.1 (hsame.2 _ hquiet)
      exact Except.ok.inj (hload'.symm.trans (heq.symm.trans hload))
    | store hop _ =>
      rw [hp.before.value_inst] at hd
      rw [hp.after.value_inst] at hd'
      rw [hp.before.recent.store j' _ _ hmem (hnot u hp.before) hop d hd,
        hp.after.recent.store j' _ _ hmem (hnot w hp.after) hop d' hd']
    | offset hop ho hs => exact h.agree_of_offset hty hp hbody hav hop ho hs d d' hd hd'

/-! ## Indices and addresses -/

/-- An index has the stride of its lane shape. -/
theorem stride_of_index {j : InstId} (hj : j ∈ c.func.body c.loop.bodyEntry) {v : Operand}
    (hv : v ∈ (c.func.op j).operands) {t : Int64} (hσ : laneShape c T v = .ok (.index t)) :
    c.natural.stride? c.func c.dom v c.loop.iv = some t := by
  rcases h.operand hj hv hσ with ⟨rfl, heq⟩ | ⟨g, _, rfl, hshape⟩ | ⟨_, heq⟩
  · cases heq
    unfold NaturalLoop.stride? NaturalLoop.strideWithin
    rw [if_pos rfl]
  · cases hshape with
    | index _ _ hs => exact hs
  · cases heq

/-- An index has a scalar type, and it fits the type if it was computed in the body. -/
theorem index_scalar (hty : c.func.WellTyped p.types) (hu : InBody p limit c args cs s done rest u)
    {j : InstId} (hj : j ∈ c.func.body c.loop.bodyEntry) {v : Operand}
    (hv : v ∈ (c.func.op j).operands)
    (hav : ∀ g, v = .inst g → c.func.Available c.loop.bodyEntry done g) {t : Int64}
    (hσ : laneShape c T v = .ok (.index t)) {x : Int64}
    (hx : u.frame.value p.types v = some (.int x)) :
    ∃ sc, p.types.elementScalar? (c.func.tyOf v) = some sc ∧
      (v = c.loop.iv ∨ sc.normalize x = x) := by
  rcases h.operand hj hv hσ with ⟨rfl, _⟩ | ⟨g, _, rfl, hshape⟩ | ⟨_, heq⟩
  · obtain ⟨sc, _, hsc, _⟩ := h.tight.scalar_iv hty
    exact ⟨sc, hsc, .inl rfl⟩
  · cases hshape with
    | index hop ho _ =>
      have hres := hu.result (hav g rfl) (by rw [hop]; rfl) hx
      rw [hop] at hres
      obtain ⟨sc, m, n, hsc, _, _, hlane⟩ := lanewise_of_pureResult hres
      rw [← Func.tyOf_inst] at hsc
      refine ⟨sc, hsc, .inr ?_⟩
      rcases BinaryOp.ints_or_none ho hlane with ⟨_, _, _, _, _, heq, hint⟩ | ⟨_, _, hno⟩
      · cases heq
        exact BinaryOp.normalize_of_onInt hint
      · exact absurd rfl (hno x)
  · cases heq

/-- An index of stride one has advanced as far as the induction value, up to the range of its
type. -/
theorem index_advances (hty : c.func.WellTyped p.types)
    (hp : Parallel p limit c args cs s k done rest u w)
    (hbody : c.func.body c.loop.bodyEntry = done ++ rest) {j : InstId}
    (hj : j ∈ c.func.body c.loop.bodyEntry) {v : Operand} (hv : v ∈ (c.func.op j).operands)
    (hav : ∀ g, v = .inst g → c.func.Available c.loop.bodyEntry done g)
    (hσ : laneShape c T v = .ok (.index 1)) {x y : Int64}
    (hx : u.frame.value p.types v = some (.int x)) (hy : w.frame.value p.types v = some (.int y))
    {sc : Scalar} (hsc : p.types.elementScalar? (c.func.tyOf v) = some sc) :
    y = sc.normalize (x + k) := by
  have hnorm : sc.normalize y = y := by
    obtain ⟨sc', hsc', hor⟩ := h.index_scalar hty hp.after hj hv hav hσ hy
    obtain rfl := Option.some.inj (hsc.symm.trans hsc')
    rcases hor with rfl | hnorm
    · obtain ⟨x', y', _, hy', hxy⟩ := hp.counts
      rw [hp.after.value_eq] at hy
      cases Option.some.inj (hy'.symm.trans hy)
      exact (hxy sc hsc).1
    · exact hnorm
  rw [hp.before.value_eq] at hx
  rw [hp.after.value_eq] at hy
  rcases (h.apart hty hp hbody).shifted (h.stride_of_index hj hv hσ) hav hsc hx hy with
    ⟨x', y', hx', hy', hxy⟩ | ⟨hno, _⟩
  · cases hx'
    cases hy'
    rw [← hnorm, hxy, Int64.one_mul]
  · exact absurd rfl (hno x)

/-- A state that executes an instruction of the body is at that point of it. -/
theorem inBody (hv : c.func.verify p.types = .ok ()) {m : Memory} {n : Nat} (hn : n ≤ limit)
    (hs : invoke p limit c.func args cs m n = .next s) (hsep : Separate c.func args m.regions.size)
    (hbody : c.func.body c.loop.bodyEntry = done ++ i :: rest)
    (hr : Reaches p limit (Alive cs) s u) (hex : ExecutesAt cs i u) :
    InBody p limit c args cs s done (i :: rest) u := by
  have hi : i ∈ c.func.body c.loop.bodyEntry := hbody ▸ List.mem_append_right _ List.mem_cons_self
  have hin := (active_of_reaches h.wellFormed h.listed_once h.uses_listed hn hs hr hex.alive).inFrame
    hex.1
  obtain ⟨_, hblock⟩ := h.tight.block_of_executes h.wellFormed h.listed_once h.uses_listed hn hs hi hr hex
  obtain ⟨done', hco⟩ := hin.coherent
  have hvalue : u.frame.value p.types = c.func.value p.types args u.frame.values := by
    unfold Frame.value
    rw [hin.func_eq, hin.args_eq]
  obtain ⟨rest', hrest⟩ := List.head?_eq_some_iff.mp hex.2
  have hcur := hco.current
  have hpoint := hco.point.body_eq
  rw [hin.func_eq, hblock] at hcur
  rw [hin.func_eq, hblock, hrest, hbody] at hpoint
  -- The block lists the instruction once, so there is one way to split it there.
  have hnodup := h.listed_once _ h.live
  rw [hbody] at hnodup
  obtain ⟨_, htail, hdisj⟩ := List.nodup_append.mp hnodup
  obtain ⟨rfl, _, rfl⟩ := (List.append_cons_inj_of_notMem
    (fun hmem => hdisj i hmem i List.mem_cons_self rfl) (List.nodup_cons.mp htail).1).mp hpoint
  refine ⟨hvalue, hrest, fun j hj hpure d hd => ?_, ?_⟩
  · rw [← hvalue]
    exact hcur j hj hpure d hd
  · exact recent_of_reaches h.wellFormed h.listed_once h.uses_listed hn hs
      (((accesses_located hv h.listed_once h.uses_listed).2 limit args cs m n s hn hs).2 hsep)
      (fun j hj => (h.tight.plain j hj).2.1) (fun j hj => (h.tight.plain j hj).2.2) hr hex.1 hblock

end Accepted

/-! ## Widened accesses -/

/-- A widened access goes `k` elements further on when it is executed `k` laps later, unless its
index leaves the range of its type in between.  This is for every activation of a function that the
verifier accepts and that lists its instructions properly, and whose caller keeps its promises about
pointers. -/
theorem widened_contiguous {f : Func} (hv : f.verify p.types = .ok ()) (ho : f.ListedOnce)
    (hl : f.UsesListed) {l : NaturalLoop} (hin : l ∈ innermostLoops (.ofFunc f))
    {config : VectorConfig} {tt tt' : TypeTable} {pl : VectorPlan}
    (hplan : plan config f (.ofFunc f) (.ofGraph (.ofFunc f)) l tt = (.ok pl, tt')) {t : TyId}
    {splats : List (Operand × TyId)} {ptr : Operand} (hstep : (i, .widen t splats) ∈ pl.steps)
    (hptr : (f.op i).pointer? = some ptr) {m : Memory} {n : Nat} (hn : n ≤ limit)
    (hs : invoke p limit f args cs m n = .next s) (hsep : Separate f args m.regions.size) {k : Nat}
    {q q' : Pointer} (hu : Accesses p limit cs s u i ptr q) (hk : Laps p limit cs l i k u w)
    (hq' : w.frame.value p.types ptr = some (.ptr q')) :
    ∃ g base idx e sc x, ptr = .inst g ∧ f.op g = .gep base idx ∧
      p.types.pointee? (f.tyOf ptr) = some e ∧ p.types.elementScalar? (f.tyOf idx) = some sc ∧
      u.frame.value p.types idx = some (.int x) ∧
      (0 < k → q' = q.advance ((sc.normalize (x + .ofNat k) - x) * .ofNat (p.types.paddedSize e))) ∧
      (sc.normalize (x + .ofNat k) = x + .ofNat k ∨ sc.isInteger = true ∧ sc.width = 8 →
        q' = q.advance (.ofNat k * .ofNat (p.types.paddedSize e))) := by
  have hil := isLoop_of_innermost hin
  have hd := Func.isDeclaration_of_live (CountedLoop.live_of_mem hil hil.header_mem)
  have hf := Func.wellFormed_of_verify hd hv
  have hty := Func.wellTyped_of_verify hd hv
  obtain ⟨T, h⟩ := accepted_of_plan hf ho hl hin hplan
  obtain ⟨hi, haddr⟩ := h.shaping.widened i t splats ptr hstep hptr
  replace hi := List.dropLast_subset _ hi
  obtain ⟨done, rest, hbody⟩ := List.append_of_mem hi
  have hptrmem := (mem_operands_of_pointer? hptr).1
  obtain ⟨g, hg, base, idx, rfl, hgep, hbase, hidx⟩ := h.address hi hptrmem haddr
  replace hg := List.dropLast_subset _ hg
  have hgdone := h.mem_of_operand hbody hg hptrmem
  have hbasemem : base ∈ (f.op g).operands := by rw [hgep]; simp [Op.operands]
  have hidxmem : idx ∈ (f.op g).operands := by rw [hgep]; simp [Op.operands]
  have hidxav : ∀ j, idx = .inst j → f.Available pl.loop.bodyEntry done j := fun j hj =>
    hf.available_of_available hl h.reachable hbody (.inl hgdone) (h.tight.plain g hg).1 (hj ▸ hidxmem)
  -- The pointer was computed on the way to the access, in both laps.
  have hU := h.inBody hv hn hs hsep hbody hu.reaches hu.executes
  have hW := h.inBody hv hn hs hsep hbody (hu.reaches.trans hk.reaches) hk.executes
  obtain ⟨q₀, x, e, hq₀, hx, he, rfl⟩ := hU.gep (.inl hgdone) hgep hu.value
  obtain ⟨q₀', y, e', hq₀', hy, he', rfl⟩ := hW.gep (.inl hgdone) hgep hq'
  obtain rfl := Option.some.inj (he.symm.trans he')
  obtain ⟨sc, hsc, _⟩ := h.index_scalar hty hU hg hidxmem hidxav hidx hx
  have hterm : (f.op i).isTerminator = false := by
    cases hop : f.op i <;> rw [hop] at hptr <;> first | rfl | cases hptr
  obtain ⟨sc₀, _, hsc₀, hnext⟩ := h.tight.scalar_iv hty
  obtain ⟨hsince, hor⟩ := h.tight.laps hf ho hl hty hn hs hnext hi hterm hu.reaches hk
  have hcases : k = 0 ∧ q₀' = q₀ ∧ y = x ∨ q₀' = q₀ ∧ y = sc.normalize (x + .ofNat k) := by
    rcases hor with ⟨rfl, rfl⟩ | ⟨x₀, y₀, hx₀, hy₀, hnorm, hxy⟩
    · cases hq₀.symm.trans hq₀'
      cases hx.symm.trans hy
      exact .inl ⟨rfl, rfl, rfl⟩
    · have hp : Parallel p limit ⟨f, .ofGraph (.ofFunc f), l, pl.loop, config⟩ args cs s (.ofNat k)
          done (i :: rest) u w := by
        refine ⟨hU, hW, hsince, x₀, y₀, hx₀, hy₀, fun sc hsc => ?_⟩
        obtain rfl := Option.some.inj (hsc.symm.trans hsc₀)
        exact ⟨hnorm, hxy⟩
      refine .inr ⟨?_, h.index_advances hty hp hbody hg hidxmem hidxav hidx hx hy hsc⟩
      obtain ⟨pre, post, rfl⟩ := List.append_of_mem hgdone
      rw [List.append_assoc, List.cons_append] at hbody
      have hsame := h.agree_operand hp hbody (h.agrees hty hp (by rw [hbody]; simp) pre (g :: post) rfl)
        hbasemem hbase
      exact Datum.ptr.inj (hsame _ _ hq₀ hq₀')
  have hmoved : ∀ n : Int64, q₀' = q₀ → y = x + n →
      q₀'.advance (y * Int64.ofNat (p.types.paddedSize e)) =
        (q₀.advance (x * Int64.ofNat (p.types.paddedSize e))).advance
          (n * Int64.ofNat (p.types.paddedSize e)) := by
    rintro n rfl rfl
    rw [Pointer.advance_advance, Int64.add_mul]
  refine ⟨g, base, idx, e, sc, x, rfl, hgep, he, hsc, hx, fun hpos => ?_, fun hwrap => ?_⟩
  · rcases hcases with ⟨hk0, _, _⟩ | ⟨hq, hy⟩
    · exact absurd hk0 (Nat.pos_iff_ne_zero.mp hpos)
    · exact hmoved _ hq (by grind)
  · rcases hcases with ⟨rfl, hq, hy⟩ | ⟨hq, hy⟩
    · exact hmoved _ hq (by grind)
    · refine hmoved _ hq (hy.trans ?_)
      rcases hwrap with hwrap | ⟨hint, hwidth⟩
      · exact hwrap
      · exact Scalar.normalize_of_width hint hwidth _

/-! ## A loop near the end of its index type -/

/-- The types of `shiftFunc`. -/
def shiftTypes : TypeTable :=
  ⟨#[⟨none, .void⟩, ⟨none, .scalar .bool⟩, ⟨none, .scalar ⟨.uint, 1⟩⟩, ⟨none, .pointer 1⟩]⟩

/-- Stores `true` to eight elements, from element `n` on.  Induction value and index are unsigned
and have eight bits. -/
def shiftFunc (n : Int64) : Func where
  name := "shift"
  params := #[⟨"y", 3, true⟩]
  ret := 0
  blocks := #[⟨"entry", [0], false⟩, ⟨"header", [1, 2, 3], false⟩, ⟨"body", [4, 5, 6, 7], false⟩,
    ⟨"latch", [8, 9], false⟩, ⟨"exit", [10], false⟩]
  insts := #[⟨.br 1, 0, none, some 0⟩, ⟨.phi [(.const 0, 0), (.inst 8, 3)], 2, none, some 1⟩,
    ⟨.icmp .ult (.inst 1) (.const 2), 1, none, some 1⟩, ⟨.condBr (.inst 2) 2 4, 0, none, some 1⟩,
    ⟨.binary .add (.inst 1) (.const 3), 2, none, some 2⟩,
    ⟨.gep (.param 0) (.inst 4), 3, none, some 2⟩, ⟨.store (.const 4) (.inst 5), 0, none, some 2⟩,
    ⟨.br 3, 0, none, some 2⟩, ⟨.binary .add (.inst 1) (.const 1), 2, none, some 3⟩,
    ⟨.br 1, 0, none, some 3⟩, ⟨.ret none, 0, none, some 4⟩]
  constants := #[⟨2, .int 0⟩, ⟨2, .int 1⟩, ⟨2, .int 8⟩, ⟨2, .int n⟩, ⟨1, .bool true⟩]
  layout := [0, 1, 2, 3, 4]

/-- The loop of `shiftFunc`. -/
def shiftLoop : NaturalLoop := ⟨1, [3], [1, 2, 3]⟩

/-- What is planned for it. -/
def shiftPlan : VectorPlan where
  loop := ⟨0, 1, 3, 4, [2], 2, 1, .const 0, .const 2, 1, 2, 8⟩
  steps := [(4, .scalar), (5, .scalar), (6, .widen 0 [(.const 4, 4)])]
  stop := .constant 8
  epilogue := false
  ivTy := 2
  boolTy := 1
  voidTy := 0
  base := "header"

/-- A program of `shiftFunc` alone. -/
def shiftProgram (n : Int64) : Program := ⟨shiftTypes, #[shiftFunc n]⟩

/-- A memory of one region with some zeros. -/
def zeroMemory (bytes : Nat) : Memory := ⟨#[Array.replicate bytes 0], 0, 0⟩

/-- The start of a run of `shiftFunc`, and its first two stores. -/
def shiftStores (n : Int64) (bytes : Nat) : Option (State × State × State) := do
  let s ← (invoke (shiftProgram n) 100 (shiftFunc n) [.ptr ⟨0, 0⟩] [] (zeroMemory bytes) 0).state?
  let u ← follow (shiftProgram n) 100 (fun _ => true) 5 s
  let w ← nextLap (shiftProgram n) 100 shiftLoop 6 7 u
  return (s, u, w)

/-- The first index, and where the two stores go. -/
def shiftAccesses (n : Int64) (bytes : Nat) :
    Option (Option Int64 × Option (Operand × Pointer) × Option (Operand × Pointer)) :=
  (shiftStores n bytes).map fun (_, u, w) =>
    ((u.frame.value shiftTypes (.inst 4)).bind fun d => d.asInt.toOption,
      access? (shiftProgram n) 6 u, access? (shiftProgram n) 6 w)

theorem verify_shiftFunc (n : Int64) : (shiftFunc n).verify shiftTypes = .ok () := by cbv

theorem separate_shiftFunc (n : Int64) : Separate (shiftFunc n) [.ptr ⟨0, 0⟩] 1 := by
  have hzero : ∀ {k : Nat} {q : Pointer}, [Datum.ptr ⟨0, 0⟩][k]? = some (.ptr q) → k = 0 ∧ q = ⟨0, 0⟩ := by
    intro k q h
    cases k with
    | zero =>
      cases h
      exact ⟨rfl, rfl⟩
    | succ k => cases h
  refine ⟨fun k q h => ?_, fun k l _ _ _ _ hne _ _ _ _ hk hl => ?_⟩
  · rw [(hzero h).2]
    exact Nat.zero_lt_one
  · exact absurd ((hzero hk).1.trans (hzero hl).1.symm) hne

theorem stores_of_shiftAccesses {n x : Int64} {bytes : Nat} {ptr ptr' : Operand} {q q' : Pointer}
    (h : shiftAccesses n bytes = some (some x, some (ptr, q), some (ptr', q'))) :
    ∃ s u w, invoke (shiftProgram n) 100 (shiftFunc n) [.ptr ⟨0, 0⟩] [] (zeroMemory bytes) 0 =
        .next s ∧
      Accesses (shiftProgram n) 100 [] s u 6 ptr q ∧
      Laps (shiftProgram n) 100 [] shiftLoop 6 1 u w ∧
      w.frame.value shiftTypes ptr' = some (.ptr q') ∧
      u.frame.value shiftTypes (.inst 4) = some (.int x) := by
  obtain ⟨⟨s, u, w⟩, hrun, hacc⟩ := Option.map_eq_some_iff.mp h
  obtain ⟨hx, hacc⟩ := Prod.mk.inj hacc
  obtain ⟨hu, hw⟩ := Prod.mk.inj hacc
  obtain ⟨d, hd, hx⟩ := Option.bind_eq_some_iff.mp hx
  obtain rfl := Datum.asInt_eq_ok.mp (toOption_eq_some.mp hx)
  unfold shiftStores at hrun
  simp only [Option.bind_eq_bind, Option.bind_eq_some_iff, Option.pure_def, Option.some.injEq,
    Prod.mk.injEq] at hrun
  obtain ⟨s', hs, u', hfollow, w', hlap, rfl, rfl, rfl⟩ := hrun
  have hacc := accesses_of_follow hfollow hu
  exact ⟨_, _, _, Transition.state?_eq_some.mp hs, hacc, (Laps.zero hacc.executes).next hlap,
    (access?_eq_some hw).2.2, hd⟩

theorem widened_contiguous_shiftFunc : ∃ s u w,
    invoke (shiftProgram 2) 100 (shiftFunc 2) [.ptr ⟨0, 0⟩] [] (zeroMemory 10) 0 = .next s ∧
    Accesses (shiftProgram 2) 100 [] s u 6 (.inst 5) ⟨0, 2⟩ ∧
    Laps (shiftProgram 2) 100 [] shiftLoop 6 1 u w ∧
    w.frame.value shiftTypes (.inst 5) = some (.ptr ⟨0, 3⟩) ∧
    ∃ e, shiftTypes.pointee? ((shiftFunc 2).tyOf (.inst 5)) = some e ∧
      (⟨0, 3⟩ : Pointer) = Pointer.advance ⟨0, 2⟩ (.ofNat 1 * .ofNat (shiftTypes.paddedSize e)) := by
  obtain ⟨s, u, w, hs, hu, hk, hw, hx⟩ := stores_of_shiftAccesses
    (by decide +kernel :
      shiftAccesses 2 10 = some (some 2, some (.inst 5, ⟨0, 2⟩), some (.inst 5, ⟨0, 3⟩)))
  obtain ⟨g, base, idx, e, sc, x, hg, hgep, he, hsc, hx', _, hmove⟩ :=
    widened_contiguous (p := shiftProgram 2) (f := shiftFunc 2) (verify_shiftFunc 2) (by decide)
      (by decide) (by decide +kernel : shiftLoop ∈ innermostLoops (.ofFunc (shiftFunc 2)))
      (Prod.ext (by decide +kernel) rfl : plan .standard (shiftFunc 2) (.ofFunc (shiftFunc 2))
        (.ofGraph (.ofFunc (shiftFunc 2))) shiftLoop shiftTypes = (.ok shiftPlan, _))
      (by decide : (6, .widen 0 [(.const 4, 4)]) ∈ shiftPlan.steps) rfl (Nat.zero_le 100) hs
      (separate_shiftFunc 2) hu hk hw
  cases hg
  cases hgep
  cases hsc
  cases Option.some.inj (hx.symm.trans hx')
  exact ⟨s, u, w, hs, hu, hk, hw, e, he, hmove (.inl (by decide))⟩

/-- A loop is accepted although an access that is widened in it wraps around: the first store goes
to element 255, and the next one to element 0. -/
theorem wrapping_accepted :
    (shiftFunc 255).verify shiftTypes = .ok () ∧
    shiftLoop ∈ innermostLoops (.ofFunc (shiftFunc 255)) ∧
    (plan .standard (shiftFunc 255) (.ofFunc (shiftFunc 255)) (.ofGraph (.ofFunc (shiftFunc 255)))
      shiftLoop shiftTypes).1 = .ok shiftPlan ∧
    (6, .widen 0 [(.const 4, 4)]) ∈ shiftPlan.steps ∧
    ((shiftProgram 255).run (shiftFunc 255) [.ptr ⟨0, 0⟩] (zeroMemory 256) 100).result.isOk = true ∧
    (∃ s u w, invoke (shiftProgram 255) 100 (shiftFunc 255) [.ptr ⟨0, 0⟩] [] (zeroMemory 256) 0 =
        .next s ∧
      Accesses (shiftProgram 255) 100 [] s u 6 (.inst 5) ⟨0, 255⟩ ∧
      Laps (shiftProgram 255) 100 [] shiftLoop 6 1 u w ∧
      w.frame.value shiftTypes (.inst 5) = some (.ptr ⟨0, 0⟩)) ∧
    (⟨0, 0⟩ : Pointer) ≠ Pointer.advance ⟨0, 255⟩ (.ofNat 1 * .ofNat (shiftTypes.paddedSize 1)) := by
  obtain ⟨s, u, w, hs, hu, hk, hw, _⟩ := stores_of_shiftAccesses
    (by decide +kernel :
      shiftAccesses 255 256 = some (some 255, some (.inst 5, ⟨0, 255⟩), some (.inst 5, ⟨0, 0⟩)))
  exact ⟨verify_shiftFunc 255, by decide +kernel, by decide +kernel, by decide, by decide +kernel,
    ⟨s, u, w, hs, hu, hk, hw⟩, by decide⟩

end Vectorize

end LoopNest
