import LoopNest.Proofs.Func.Available
import LoopNest.Proofs.Machine.Steps
import Mathlib

/-!
# Runs that meet no undefined value

A fault *of flow* blames the way control and values flow through a function: a value that was
not computed, a phi without an entry for the edge, a block without an end, a phi in the middle
of a block, a parameter that was not passed.

An instruction raises such a fault only through one of its operands, or as a phi out of place
(`Frame.compute_failsIn`).  While a verified function runs, every available instruction has a
result (`Frame.Defined`), and every step keeps that, in the running frame and in the waiting
ones (`Machine.Advances.defined`).  So no run ends in a fault of flow
(`Program.run_not_ofFlow`).
-/

namespace LoopNest

/-- The fault blames the flow of control and values. -/
def Fault.ofFlow : Fault → Bool
  | .malformed (.undefinedValue _) | .malformed (.noIncoming _) | .malformed (.fellThrough _)
  | .malformed .misplacedPhi | .malformed (.paramOutOfRange _) => true
  | _ => false

/-! ## Which faults a computation raises -/

/-- All faults of a computation meet a condition. -/
def FailsIn {α : Type} (ok : Fault → Prop) (x : Except Fault α) : Prop := ∀ e, x = .error e → ok e

namespace FailsIn

variable {α β : Type} {ok : Fault → Prop}

theorem of_ok (a : α) : FailsIn ok (.ok a) := fun _ h => by cases h

theorem of_error {e : Fault} (h : ok e) : FailsIn ok (.error e : Except Fault α) := by
  rintro _ ⟨⟩
  exact h

theorem bind {x : Except Fault α} {k : α → Except Fault β} (hx : FailsIn ok x)
    (hk : ∀ a, FailsIn ok (k a)) : FailsIn ok (x >>= k) := by
  cases x with
  | ok a => exact hk a
  | error e =>
    rintro _ ⟨⟩
    exact hx e rfl

theorem mapM {k : α → Except Fault β} (hk : ∀ a, FailsIn ok (k a)) (as : List α) :
    FailsIn ok (as.mapM k) := by
  intro e he
  obtain ⟨a, _, ha⟩ := Machine.exists_of_mapM_eq_error he
  exact hk a e ha

end FailsIn

/-- All faults of an access meet a condition. -/
def Access.FailsIn {α : Type} (ok : Fault → Prop) (x : Access α) : Prop :=
  ∀ m e m', x m = (.error e, m') → ok e

namespace Access.FailsIn

variable {α β : Type} {ok : Fault → Prop}

theorem bind {x : Access α} {k : α → Access β} (hx : Access.FailsIn ok x)
    (hk : ∀ a, Access.FailsIn ok (k a)) : Access.FailsIn ok (x >>= k) := by
  intro m e m' h
  rw [Access.bind_eq] at h
  split at h
  · rename_i a m₁ _
    exact hk a m₁ e m' h
  · rename_i e' m₁ hx'
    cases h
    exact hx m e m' hx'

theorem pure (a : α) : Access.FailsIn ok (Pure.pure a : Access α) := by
  intro m e m' h
  cases (Prod.mk.inj h).1

theorem ofExcept {x : Except Fault α} (hx : LoopNest.FailsIn ok x) :
    Access.FailsIn ok (Access.ofExcept x) := by
  intro m e m' h
  exact hx e (Prod.mk.inj h).1

end Access.FailsIn

/-! ## Faults of single instructions -/

theorem failsIn_lanewise {ok : Fault → Prop} {k : Datum → Datum → Except Fault Datum}
    (hk : ∀ a b, FailsIn ok (k a b)) (a b : Datum) : FailsIn ok (lanewise k a b) := by
  unfold lanewise
  split
  · refine .bind (.mapM (fun e => ?_) _) fun _ => .of_ok _
    exact hk e.1 e.2
  · exact hk _ _

section

variable {ok : Fault → Prop} (hok : ∀ e : Fault, e.ofFlow = false → ok e)

include hok

theorem Datum.failsIn_asBool (d : Datum) : FailsIn ok d.asBool := by
  cases d <;> first | exact .of_ok _ | exact .of_error (hok _ rfl)

theorem Datum.failsIn_asInt (d : Datum) : FailsIn ok d.asInt := by
  cases d <;> first | exact .of_ok _ | exact .of_error (hok _ rfl)

theorem Datum.failsIn_asF32 (d : Datum) : FailsIn ok d.asF32 := by
  cases d <;> first | exact .of_ok _ | exact .of_error (hok _ rfl)

theorem Datum.failsIn_asPtr (d : Datum) : FailsIn ok d.asPtr := by
  cases d <;> first | exact .of_ok _ | exact .of_error (hok _ rfl)

theorem Frame.failsIn_scalarOf (tt : TypeTable) (t : TyId) :
    FailsIn ok (Frame.scalarOf tt t) := by
  unfold Frame.scalarOf
  cases tt.elementScalar? t with
  | some s => exact .of_ok s
  | none => exact .of_error (hok _ rfl)

theorem BinaryOp.failsIn_onInt (op : BinaryOp) (s : Scalar) (x y : Int64) :
    FailsIn ok (op.onInt s x y) := by
  cases op <;> simp only [BinaryOp.onInt] <;>
    first
    | exact .of_ok _
    | split
      · exact .of_error (hok _ rfl)
      · exact .of_ok _

theorem BinaryOp.failsIn_onBool (op : BinaryOp) (x y : Bool) : FailsIn ok (op.onBool x y) := by
  cases op <;> first | exact .of_ok _ | exact .of_error (hok _ rfl)

theorem BinaryOp.failsIn_apply (op : BinaryOp) (s : Scalar) (a b : Datum) :
    FailsIn ok (op.apply s a b) := by
  unfold BinaryOp.apply
  split
  · exact .bind (Datum.failsIn_asF32 hok a) fun _ =>
      .bind (Datum.failsIn_asF32 hok b) fun _ => .of_ok _
  · split
    · exact .bind (op.failsIn_onBool hok _ _) fun _ => .of_ok _
    · exact .bind (Datum.failsIn_asInt hok _) fun _ => .bind (Datum.failsIn_asInt hok _) fun _ =>
        .bind (op.failsIn_onInt hok s _ _) fun _ => .of_ok _

theorem IntPredicate.failsIn_apply (pred : IntPredicate) (s : Scalar) (a b : Datum) :
    FailsIn ok (pred.apply s a b) :=
  .bind (Datum.failsIn_asInt hok a) fun _ => .bind (Datum.failsIn_asInt hok b) fun _ => .of_ok _

theorem FloatPredicate.failsIn_apply (pred : FloatPredicate) (a b : Datum) :
    FailsIn ok (pred.apply a b) :=
  .bind (Datum.failsIn_asF32 hok a) fun _ => .bind (Datum.failsIn_asF32 hok b) fun _ => .of_ok _

theorem Datum.failsIn_choose (c t e : Datum) : FailsIn ok (c.choose t e) := by
  have hone : ∀ c t e : Datum, FailsIn ok (do return if ← c.asBool then t else e) := fun c _ _ =>
    .bind (Datum.failsIn_asBool hok c) fun _ => .of_ok _
  unfold Datum.choose
  split
  · refine .bind (.mapM (fun x => ?_) _) fun _ => .of_ok _
    exact hone x.1 x.2.1 x.2.2
  · exact hone _ _ _

theorem Memory.failsIn_start (m : Memory) (p : Pointer) (size : Nat) :
    FailsIn ok (m.start p size) := by
  unfold Memory.start
  split
  · exact .of_ok _
  · exact .of_error (hok _ rfl)

theorem Memory.failsIn_loadScalar (m : Memory) (p : Pointer) (s : Scalar) :
    FailsIn ok (m.loadScalar p s) :=
  .bind (.bind (m.failsIn_start hok p s.width) fun _ => .of_ok _) fun _ => .of_ok _

theorem Memory.failsIn_loadLanes (m : Memory) (s : Scalar) : ∀ (lanes : Nat) (p : Pointer),
    FailsIn ok (m.loadLanes s lanes p)
  | 0, _ => .of_ok _
  | n + 1, p => .bind (m.failsIn_loadScalar hok p s) fun _ =>
      .bind (m.failsIn_loadLanes s n _) fun _ => .of_ok _

theorem Memory.failsIn_load (m : Memory) (tt : TypeTable) (p : Pointer) (t : TyId) :
    FailsIn ok (m.load tt p t) := by
  unfold Memory.load
  split
  · exact m.failsIn_loadScalar hok p _
  · exact .bind (m.failsIn_loadLanes hok _ _ p) fun _ => .of_ok _
  · exact .of_error (hok _ rfl)

theorem Access.failsIn_writeBytes (p : Pointer) (bytes : List UInt8) :
    Access.FailsIn ok (Access.writeBytes p bytes) := by
  intro m e m' h
  unfold Access.writeBytes at h
  split at h
  · cases (Prod.mk.inj h).1
  · rename_i hs
    cases h
    exact m.failsIn_start hok p bytes.length e hs

theorem Memory.failsIn_storeLanes : ∀ (ds : List Datum) (p : Pointer),
    Access.FailsIn ok (Memory.storeLanes p ds)
  | [], _ => .pure ()
  | d :: ds, p => by
    unfold Memory.storeLanes
    split
    · exact .bind (Access.failsIn_writeBytes hok _ _) fun _ => Memory.failsIn_storeLanes ds _
    · exact .ofExcept (.of_error (hok _ rfl))

theorem failsIn_storeAccess (tt : TypeTable) (t : TyId) (d : Datum) (q : Pointer) :
    Access.FailsIn ok (storeAccess tt t d q) := by
  unfold storeAccess
  split
  · exact .bind (.ofExcept (Frame.failsIn_scalarOf hok tt t)) fun _ =>
      .bind (Access.failsIn_writeBytes hok _ _) fun _ => .pure _
  · refine .bind ?_ fun _ => .pure _
    unfold Memory.storeDatum
    split
    · exact Memory.failsIn_storeLanes hok _ q
    · split
      · exact Access.failsIn_writeBytes hok _ _
      · exact .ofExcept (.of_error (hok _ rfl))

end

/-- What makes an instruction raise a fault: an operand that does, or a phi out of place. -/
def Frame.Blames (tt : TypeTable) (fr : Frame) (op : Op) (e : Fault) : Prop :=
  op.isPhi = true ∨ ∃ v ∈ op.operands, fr.eval tt v = .error e

/-- A fault of flow has a cause among the operands. -/
theorem Frame.compute_failsIn (tt : TypeTable) (fr : Frame) (x : Inst) :
    Access.FailsIn (fun e => e.ofFlow = true → fr.Blames tt x.op e) (fr.compute tt x) := by
  have hok : ∀ e : Fault, e.ofFlow = false → e.ofFlow = true → fr.Blames tt x.op e := by
    intro e h h'
    rw [h] at h'
    cases h'
  have hval : ∀ v ∈ x.op.operands, Access.FailsIn
      (fun e => e.ofFlow = true → fr.Blames tt x.op e) (Access.ofExcept (fr.eval tt v)) :=
    fun v hv => .ofExcept fun e he _ => .inr ⟨v, hv, he⟩
  unfold Frame.compute
  cases hop : x.op with
  | alloca t a => exact .bind (fun m e m' h => by cases (Prod.mk.inj h).1) fun _ => .pure _
  | load p =>
    rw [hop] at hok hval
    refine .bind (hval p (by simp [Op.operands])) fun d =>
      .bind (.ofExcept (d.failsIn_asPtr hok)) fun q => .bind ?_ fun _ => ?_
    · exact fun m e m' h => by cases (Prod.mk.inj h).1
    · exact fun m e m' h => m.failsIn_load hok tt q x.ty e (Prod.mk.inj h).1
  | store v p =>
    rw [hop] at hok hval
    refine .bind (hval p (by simp [Op.operands])) fun d =>
      .bind (.ofExcept (d.failsIn_asPtr hok)) fun q =>
        .bind (hval v (by simp [Op.operands])) fun d => .bind ?_ fun _ => ?_
    · exact fun m e m' h => by cases (Prod.mk.inj h).1
    · exact failsIn_storeAccess hok tt (fr.func.tyOf v) d q
  | gep b i =>
    rw [hop] at hok hval
    refine .bind (hval b (by simp [Op.operands])) fun d =>
      .bind (.ofExcept (d.failsIn_asPtr hok)) fun q =>
        .bind (hval i (by simp [Op.operands])) fun d =>
          .bind (.ofExcept (d.failsIn_asInt hok)) fun n => ?_
    cases tt.pointee? x.ty with
    | some t => exact .pure _
    | none => exact .ofExcept (.of_error (hok _ rfl))
  | binary op l r =>
    rw [hop] at hok hval
    exact .bind (.ofExcept (Frame.failsIn_scalarOf hok tt x.ty)) fun s =>
      .bind (hval l (by simp [Op.operands])) fun a => .bind (hval r (by simp [Op.operands])) fun b =>
        .ofExcept (failsIn_lanewise (op.failsIn_apply hok s) a b)
  | icmp pred l r =>
    rw [hop] at hok hval
    exact .bind (.ofExcept (Frame.failsIn_scalarOf hok tt _)) fun s =>
      .bind (hval l (by simp [Op.operands])) fun a => .bind (hval r (by simp [Op.operands])) fun b =>
        .ofExcept (failsIn_lanewise (pred.failsIn_apply hok s) a b)
  | fcmp pred l r =>
    rw [hop] at hok hval
    exact .bind (hval l (by simp [Op.operands])) fun a => .bind (hval r (by simp [Op.operands])) fun b =>
      .ofExcept (failsIn_lanewise (pred.failsIn_apply hok) a b)
  | select c t e =>
    rw [hop] at hok hval
    exact .bind (hval c (by simp [Op.operands])) fun c => .bind (hval t (by simp [Op.operands])) fun t =>
      .bind (hval e (by simp [Op.operands])) fun e => .ofExcept (c.failsIn_choose hok t e)
  | bitcast v =>
    rw [hop] at hval
    exact hval v (by simp [Op.operands])
  | splat v =>
    rw [hop] at hval
    exact .bind (hval v (by simp [Op.operands])) fun _ => .pure _
  | phi incoming => exact .ofExcept fun e _ _ => .inl rfl
  | _ => exact .pure _

/-- An operand raises a fault of flow when it has no value. -/
theorem Frame.eval_ofFlow {tt : TypeTable} {fr : Frame} {v : Operand} {e : Fault}
    (h : fr.eval tt v = .error e) (he : e.ofFlow = true) :
    (∃ i, v = .inst i ∧ fr.values i = none) ∨ ∃ k, v = .param k ∧ fr.args.length ≤ k := by
  cases v with
  | inst i =>
    refine .inl ⟨i, rfl, ?_⟩
    simp only [Frame.eval] at h
    unfold Frame.values
    split at h
    · cases h
    · cases hr : fr.results[i]? with
      | none => rfl
      | some o => cases o <;> simp_all
  | param k =>
    refine .inr ⟨k, rfl, ?_⟩
    simp only [Frame.eval] at h
    split at h
    · cases h
    · rename_i hk
      exact List.getElem?_eq_none_iff.mp hk
  | const c =>
    simp only [Frame.eval] at h
    split at h
    · cases h
      cases he
    · cases h
    · cases h
    · split at h
      · cases h
      · cases h
        cases he

/-- Why a phi has no value. -/
theorem Frame.phiValues_eq_error {tt : TypeTable} {limit : Nat} {fr : Frame}
    {source : Option BlockId} {name : String} {e : Fault} {n : Nat} :
    ∀ {is : List InstId} {steps : Nat},
    fr.phiValues tt limit source name is steps = (.error e, n) → e.ofFlow = true →
    ∃ i ∈ is, source.bind (fr.func.incoming? i) = none ∨
      ∃ v, source.bind (fr.func.incoming? i) = some v ∧ fr.eval tt v = .error e
  | [], steps, h, _ => by cases (Prod.mk.inj h).1
  | i :: is, steps, h, he => by
    rw [Frame.phiValues] at h
    split at h
    · cases h
      cases he
    split at h
    · rename_i hnone
      exact ⟨i, List.mem_cons_self, .inl hnone⟩
    rename_i v hv
    split at h
    · rename_i err herr
      cases h
      exact ⟨i, List.mem_cons_self, .inr ⟨v, hv, herr⟩⟩
    split at h
    · cases (Prod.mk.inj h).1
    · rename_i hrec
      cases h
      obtain ⟨j, hj, hwhy⟩ := phiValues_eq_error hrec he
      exact ⟨j, List.mem_cons_of_mem _ hj, hwhy⟩

theorem Frame.enter_eq_error {tt : TypeTable} {limit : Nat} {fr : Frame} {source : Option BlockId}
    {c : BlockId} {steps n : Nat} {e : Fault}
    (h : fr.enter tt limit source c steps = (.error e, n)) (he : e.ofFlow = true) :
    ∃ i ∈ fr.func.phis c, source.bind (fr.func.incoming? i) = none ∨
      ∃ v, source.bind (fr.func.incoming? i) = some v ∧ fr.eval tt v = .error e := by
  simp only [Frame.enter] at h
  split at h
  · rename_i hvalues
    cases h
    exact Frame.phiValues_eq_error hvalues he
  · cases (Prod.mk.inj h).1

/-! ## Frames without undefined values -/

/-- Control comes into the entry from nowhere, so it has no phi. -/
def Func.EntryPhiFree (f : Func) : Prop :=
  ∀ e ∈ f.entry?, ∀ i ∈ f.body e, (f.op i).isPhi = false

/-- A terminator has no result, so it is not used. -/
def Func.UsesResults (f : Func) : Prop := ∀ j ∈ f.usedInsts, (f.op j).isTerminator = false

instance (f : Func) : Decidable f.EntryPhiFree := by
  unfold Func.EntryPhiFree
  infer_instance

instance (f : Func) : Decidable f.UsesResults := by
  unfold Func.UsesResults
  infer_instance

/-- Every definition is executed before its uses. -/
structure Func.DefinesBeforeUse (f : Func) : Prop where
  wellFormed : f.WellFormed
  terminators_last : f.TerminatorsLast
  uses_listed : f.UsesListed
  entry_phi_free : f.EntryPhiFree
  uses_results : f.UsesResults

theorem Func.EntryPhiFree.phis_eq_nil {f : Func} (h : f.EntryPhiFree) {e : BlockId}
    (he : f.entry? = some e) : f.phis e = [] := by
  rw [List.eq_nil_iff_forall_not_mem]
  intro i hi
  have := h e he i (Func.mem_body_of_phis hi)
  rw [Func.isPhi_of_mem_phis hi] at this
  cases this

/-- The frame is at a point of its block, and what is available there has a result. -/
structure Frame.Defined (fr : Frame) (done : List InstId) : Prop where
  func_ok : fr.func.DefinesBeforeUse
  size_eq : fr.results.size = fr.func.insts.size
  args_length : fr.args.length = fr.func.params.size
  point : fr.func.Point fr.block done fr.rest
  rest_ne_nil : fr.rest ≠ []
  isSome : ∀ j, fr.func.Available fr.block done j → (fr.func.op j).isTerminator = false →
    (fr.values j).isSome = true

namespace Frame

variable {tt : TypeTable} {fr fr' : Frame} {done rest : List InstId} {i : InstId}

/-- A used operand that is available has a value. -/
theorem Defined.eval_not_ofFlow (h : fr.Defined done) {c : BlockId} {j : InstId} {v : Operand}
    {e : Fault} (hc : c ∈ fr.func.layout) (hj : j ∈ fr.func.body c)
    (hv : v ∈ (fr.func.op j).operands)
    (hav : ∀ k, v = .inst k → fr.func.Available fr.block done k)
    (he : fr.eval tt v = .error e) : e.ofFlow = false := by
  by_contra hflow
  rw [Bool.not_eq_false] at hflow
  rcases Frame.eval_ofFlow he hflow with ⟨k, rfl, hnone⟩ | ⟨k, rfl, hlen⟩
  · have hterm := h.func_ok.uses_results k (Func.mem_usedInsts hc hj hv)
    have hsome := h.isSome k (hav k rfl) hterm
    rw [hnone] at hsome
    cases hsome
  · have hex := h.func_ok.wellFormed.operand_exists c hc j hj _ hv
    simp only [Verify.operandExists, decide_eq_true_eq] at hex
    rw [h.args_length] at hlen
    exact absurd hex (Nat.not_lt.mpr hlen)

/-- The operands of the next instruction have values. -/
theorem Defined.operand_not_ofFlow (h : fr.Defined done) (hrest : fr.rest = i :: rest)
    {v : Operand} {e : Fault} (hv : v ∈ (fr.func.op i).operands)
    (he : fr.eval tt v = .error e) : e.ofFlow = false := by
  have hpoint := h.point
  rw [hrest] at hpoint
  refine h.eval_not_ofFlow hpoint.live hpoint.mem_body hv ?_ he
  rintro k rfl
  exact h.func_ok.wellFormed.available_operand h.func_ok.uses_listed hpoint hv

/-- What is available at the end of a block is so before its terminator. -/
theorem Defined.available_end (h : fr.Defined done) (hrest : fr.rest = i :: rest)
    (hi : (fr.func.op i).isTerminator = true) {j : InstId}
    (hj : fr.func.Available fr.block (fr.func.body fr.block) j)
    (hterm : (fr.func.op j).isTerminator = false) : fr.func.Available fr.block done j := by
  have hpoint := h.point
  rw [hrest] at hpoint
  rw [hpoint.body_eq, h.func_ok.terminators_last.rest_eq_nil hpoint hi] at hj
  rcases Func.available_concat.mp hj with hj | rfl
  · exact hj
  · rw [hi] at hterm
    cases hterm

/-- A block that control comes to can be entered. -/
theorem Defined.enter_not_ofFlow (h : fr.Defined done) (hrest : fr.rest = i :: rest)
    {c : BlockId} (hc : c ∈ (fr.func.op i).targets) {limit steps n : Nat} {e : Fault}
    (he : fr.past.enter tt limit (some fr.block) c steps = (.error e, n)) :
    e.ofFlow = false := by
  by_contra hflow
  rw [Bool.not_eq_false] at hflow
  have hf := h.func_ok.wellFormed
  have hpoint := h.point
  rw [hrest] at hpoint
  have hedge := hf.edge_of_point hpoint hc
  have hlive := ((FlowGraph.edge_ofFunc _ _ _).mp hedge).2.1
  have hterm : (fr.func.op i).isTerminator = true := Op.isTerminator_of_mem_targets hc
  obtain ⟨j, hj, hnone | ⟨v, hv, herr⟩⟩ := Frame.enter_eq_error he hflow
  · obtain ⟨v, hv⟩ := hf.exists_incoming hedge hj
    cases hv.symm.trans hnone
  · have hbody := Func.mem_body_of_phis hj
    obtain ⟨incoming, hop, hmem⟩ := Func.mem_of_incoming? hv
    have huse : v ∈ (fr.func.op j).operands := by
      rw [show fr.func.op j = .phi incoming from hop]
      exact List.mem_map.mpr ⟨_, hmem, rfl⟩
    rw [Frame.eval_past] at herr
    rw [h.eval_not_ofFlow hlive hbody huse ?_ herr] at hflow
    · cases hflow
    · rintro k rfl
      refine h.available_end hrest hterm ?_ ?_
      · exact hf.available_incoming h.func_ok.uses_listed hlive hj hv
      · exact h.func_ok.uses_results k (Func.mem_usedInsts hlive hbody huse)

/-- A frame that has just entered a block. -/
theorem defined_of_enter (fr : Frame) (hf : fr.func.DefinesBeforeUse)
    (hsize : fr.results.size = fr.func.insts.size) (hargs : fr.args.length = fr.func.params.size)
    {c : BlockId} (hr : (FlowGraph.ofFunc fr.func).Reachable c)
    (hsome : ∀ j, fr.func.Available c [] j → (fr.func.op j).isTerminator = false →
      (fr.values j).isSome = true)
    {source : Option BlockId} {limit steps n : Nat} (hle : steps ≤ limit)
    (he : fr.enter tt limit source c steps = (.ok fr', n)) : ∃ done, fr'.Defined done := by
  have hpoint := hf.wellFormed.point_afterPhis hr
  have hphis : ∀ j ∈ fr.func.phis c, j < fr.func.insts.size := fun j hj =>
    hf.wellFormed.inst_lt hpoint.live (Func.mem_body_of_phis hj)
  obtain ⟨_, _, hready, hat⟩ := (at_self fr hsize).of_enter hphis hle he
  refine ⟨fr.func.phis c, hat.func_eq ▸ hf, ?_, ?_, ?_, ?_, ?_⟩
  · rw [hat.size_eq, hat.func_eq]
  · rw [hat.args_eq, hat.func_eq, hargs]
  · rw [hat.func_eq, hat.block_eq, hat.rest_eq]
    exact hpoint
  · rw [hat.rest_eq]
    obtain ⟨t, ht⟩ := hf.wellFormed.ends c hpoint.live
    exact List.ne_nil_of_mem (Func.mem_afterPhis_of_terminator ht)
  · rw [hat.func_eq, hat.block_eq, hat.values_eq]
    intro j hj hterm
    unfold entered
    split
    · rename_i hphi
      exact hready j hphi
    · rename_i hphi
      exact hsome j (hj.imp_left fun h => absurd h hphi) hterm

/-- Executing an instruction that does not end the block. -/
theorem Defined.record (h : fr.Defined done) (hrest : fr.rest = i :: rest)
    (hi : (fr.func.op i).isTerminator = false) (d : Datum) :
    (fr.past.record i d).Defined (done ++ [i]) := by
  have hpoint := h.point
  rw [hrest] at hpoint
  have hf := h.func_ok.wellFormed
  have hlt : i < fr.past.results.size := by
    change i < fr.results.size
    rw [h.size_eq]
    exact hf.inst_lt hpoint.live hpoint.mem_body
  refine ⟨h.func_ok, ?_, h.args_length, ?_, ?_, fun j hj hterm => ?_⟩
  · exact (size_record _ i d).trans h.size_eq
  · rw [rest_record, rest_past hrest]
    exact hpoint.next
  · rw [rest_record, rest_past hrest]
    exact hf.rest_ne_nil hpoint hi
  · rw [values_record hlt, values_past]
    rcases Func.available_concat.mp hj with hj | rfl
    · by_cases hji : j = i
      · rw [hji, Values.set_self]
        rfl
      · rw [Values.set_of_ne hji]
        exact h.isSome j hj hterm
    · rw [Values.set_self]
      rfl

/-- Going along an edge. -/
theorem Defined.jump (h : fr.Defined done) (hrest : fr.rest = i :: rest) {c : BlockId}
    (hc : c ∈ (fr.func.op i).targets) {limit steps n : Nat} (hle : steps ≤ limit)
    (he : fr.past.enter tt limit (some fr.block) c steps = (.ok fr', n)) :
    ∃ done, fr'.Defined done := by
  have hpoint := h.point
  rw [hrest] at hpoint
  have hedge := h.func_ok.wellFormed.edge_of_point hpoint hc
  have hterm : (fr.func.op i).isTerminator = true := Op.isTerminator_of_mem_targets hc
  refine defined_of_enter fr.past h.func_ok h.size_eq h.args_length
    (hpoint.reachable.edge hedge) (fun j hj hj' => ?_) hle he
  exact h.isSome j (h.available_end hrest hterm (hj.of_edge hedge) hj') hj'

/-- Starting an activation. -/
theorem defined_of_activate {f : Func} (hf : f.DefinesBeforeUse) {args : List Datum}
    (hargs : f.params.size = args.length) {e : BlockId} (hent : f.entry? = some e)
    {limit steps n : Nat} (hle : steps ≤ limit)
    (he : (activate f args).enter tt limit none e steps = (.ok fr', n)) :
    ∃ done, fr'.Defined done := by
  refine defined_of_enter (activate f args) hf ?_ hargs.symm (Func.reachable_entry hent)
    (fun j hj => absurd hj (Func.not_available_entry hent)) hle he
  exact (at_activate f args).size_eq

theorem enter_entry {f : Func} (hf : f.DefinesBeforeUse) {args : List Datum} {e : BlockId}
    (hent : f.entry? = some e) {limit steps n : Nat} {err : Fault}
    (he : (activate f args).enter tt limit none e steps = (.error err, n)) :
    err.ofFlow = false := by
  by_contra hflow
  rw [Bool.not_eq_false] at hflow
  obtain ⟨j, hj, _⟩ := enter_eq_error he hflow
  rw [show (activate f args).func = f from rfl, hf.entry_phi_free.phis_eq_nil hent] at hj
  exact absurd hj List.not_mem_nil

end Frame

/-! ## Runs -/

namespace Machine

variable {p : Program} {limit : Nat}

theorem callee?_eq_some {name : String} {g : Func} (h : callee? p name = some g) :
    g ∈ p.funcs ∧ g.isDeclaration = false := by
  unfold callee? at h
  rw [Option.filter_eq_some_iff] at h
  obtain ⟨h, hd⟩ := h
  obtain ⟨k, _, hk⟩ := Option.bind_eq_some_iff.mp h
  exact ⟨Array.mem_of_getElem? hk, by simpa using hd⟩

/-- The running frame and, once they are handed a result, the waiting ones are defined. -/
def Defined (s : State) : Prop :=
  (∃ done, s.frame.Defined done) ∧
    ∀ c ∈ s.callers, ∀ d, ∃ done, (c.frame.record c.call d).Defined done

/-- Every step keeps what is available defined. -/
theorem Advances.defined
    (hp : ∀ g ∈ p.funcs, g.isDeclaration = false → g.DefinesBeforeUse) {s t : State}
    (ha : Advances p limit s t) (h : Defined s) : Defined t := by
  obtain ⟨⟨done, hdone⟩, hcallers⟩ := h
  cases ha with
  | plain hrest _ hplain _ =>
    exact ⟨⟨_, hdone.record hrest (Op.not_isTerminator_of_isPlain hplain) _⟩, hcallers⟩
  | jump hrest hn hl he => exact ⟨hdone.jump hrest hl.mem_targets hn he, hcallers⟩
  | call hrest hn hop hg hds hent hsize he =>
    obtain ⟨hmem, hdecl⟩ := callee?_eq_some hg
    refine ⟨Frame.defined_of_activate (hp _ hmem hdecl) hsize hent hn he, fun c hc d => ?_⟩
    rcases List.mem_cons.mp hc with rfl | hc
    · exact ⟨_, hdone.record hrest (by rw [hop]; rfl) d⟩
    · exact hcallers c hc d
  | ret _ _ _ =>
    exact ⟨hcallers _ List.mem_cons_self _, fun c hc => hcallers c (List.mem_cons_of_mem _ hc)⟩

/-- A run that stops where everything available is defined blames something else. -/
theorem Stops.not_ofFlow (hp : ∀ g ∈ p.funcs, g.isDeclaration = false → g.DefinesBeforeUse)
    {s : State} {h : Halt} (hs : Stops p limit s h) (hd : Defined s) {e : Fault}
    (he : h.result = .error e) : e.ofFlow = false := by
  obtain ⟨⟨done, hdone⟩, _⟩ := hd
  cases hs with
  | finish _ _ _ => cases he
  | fell hrest => exact absurd hrest hdone.rest_ne_nil
  | limit _ =>
    cases he
    rfl
  | compute hrest _ hc =>
    cases he
    by_contra hflow
    rw [Bool.not_eq_false] at hflow
    rcases Frame.compute_failsIn _ _ _ _ _ _ hc hflow with hphi | ⟨v, hv, herr⟩
    · have := hdone.point.not_isPhi _ (hrest ▸ List.mem_cons_self)
      cases this.symm.trans hphi
    · rw [Frame.eval_past] at herr
      rw [hdone.operand_not_ofFlow hrest hv herr] at hflow
      cases hflow
  | eval hrest hv herr =>
    cases he
    exact hdone.operand_not_ofFlow hrest hv herr
  | @notBool _ _ _ _ d _ herr =>
    cases he
    exact Datum.failsIn_asBool (fun _ h => h) d _ herr
  | unknownCallee =>
    cases he
    rfl
  | argumentCount =>
    cases he
    rfl
  | enter hrest hl henter =>
    cases he
    exact hdone.enter_not_ofFlow hrest hl.mem_targets henter
  | enterCallee hg hent _ henter =>
    cases he
    obtain ⟨hmem, hdecl⟩ := callee?_eq_some hg
    exact Frame.enter_entry (hp _ hmem hdecl) hent henter

/-- A run from a defined state ends without a fault of flow. -/
theorem run_failsIn (hp : ∀ g ∈ p.funcs, g.isDeclaration = false → g.DefinesBeforeUse) (fuel : Nat)
    {s : State} (h : Defined s) :
    FailsIn (fun e => e.ofFlow = false) (run p limit fuel s).result := by
  obtain ⟨t, hr, hstop⟩ := exists_of_run p limit fuel s
  have ht : Defined t := hr.invariant h fun _ _ _ _ ha hd => ha.defined hp hd
  intro e he
  rcases hstop with hstop | hfuel
  · exact (stops_of_step hstop).not_ofFlow hp ht he
  · rw [hfuel] at he
    cases he
    rfl

/-- Starting a function raises no fault of flow, and leads to a defined state. -/
theorem invoke_defined (limit : Nat) (hp : ∀ g ∈ p.funcs, g.isDeclaration = false → g.DefinesBeforeUse) {f : Func}
    (hf : f ∈ p.funcs) (args : List Datum) (m : Memory) :
    (∃ s, invoke p limit f args [] m 0 = .next s ∧ Defined s) ∨
      ∃ h, invoke p limit f args [] m 0 = .halt h ∧ FailsIn (fun e => e.ofFlow = false) h.result := by
  unfold invoke
  cases hent : f.entry? with
  | none => exact .inr ⟨_, rfl, .of_error rfl⟩
  | some e =>
    have hdef := hp f hf (Func.isDeclaration_of_live (List.mem_of_head? hent))
    by_cases hsize : f.params.size = args.length
    · simp only [ne_eq, hsize, not_true_eq_false, if_false, goto]
      cases henter : (Frame.activate f args).enter p.types limit none e 0 with
      | mk r n =>
        cases r with
        | ok fr =>
          refine .inl ⟨_, rfl, ?_, fun c hc => absurd hc List.not_mem_nil⟩
          exact Frame.defined_of_activate hdef hsize hent (Nat.zero_le _) henter
        | error err => exact .inr ⟨_, rfl, .of_error (Frame.enter_entry hdef hent henter)⟩
    · simp only [ne_eq, hsize, not_false_eq_true, if_true]
      exact .inr ⟨_, rfl, .of_error rfl⟩

end Machine

/-- In a program whose functions are all accepted, list terminators only at the end of blocks
and used instructions in the blocks they record, have no phi in their entry and do not use
terminators, no call of a function ends in a fault of flow. -/
theorem Program.run_not_ofFlow {p : Program} (hv : ∀ f ∈ p.funcs, f.verify p.types = .ok ())
    (hlast : ∀ f ∈ p.funcs, f.TerminatorsLast) (hlisted : ∀ f ∈ p.funcs, f.UsesListed)
    (hphi : ∀ f ∈ p.funcs, f.EntryPhiFree) (huse : ∀ f ∈ p.funcs, f.UsesResults) {f : Func}
    (hf : f ∈ p.funcs) (args : List Datum) (m : Memory) (limit : Nat) {e : Fault}
    (he : (p.run f args m limit).result = .error e) : e.ofFlow = false := by
  have hp : ∀ g ∈ p.funcs, g.isDeclaration = false → g.DefinesBeforeUse := fun g hg hd =>
    ⟨Func.wellFormed_of_verify hd (hv g hg), hlast g hg, hlisted g hg, hphi g hg, huse g hg⟩
  unfold Program.run at he
  rcases Machine.invoke_defined limit hp hf args m with ⟨s, hs, hd⟩ | ⟨h, hh, hfail⟩
  · rw [hs] at he
    exact Machine.run_failsIn hp _ hd e he
  · rw [hh] at he
    exact hfail e he

/-- A loop that calls a function in every iteration.  The call divides by zero in the second
one.  There is a block that control never comes to. -/
def dividing : Program where
  types := ⟨#[⟨none, .void⟩, ⟨none, .scalar .i64⟩, ⟨none, .scalar .bool⟩]⟩
  funcs := #[
    { name := "main"
      params := #[⟨"n", 1, false⟩]
      ret := 1
      blocks := #[⟨"entry", [0], false⟩, ⟨"header", [1, 2, 3], false⟩, ⟨"body", [4, 5, 6], false⟩,
        ⟨"exit", [7], false⟩, ⟨"dead", [8], false⟩]
      insts := #[⟨.br 1, 0, none, some 0⟩,
        ⟨.phi [(.const 0, 0), (.inst 5, 2)], 1, none, some 1⟩,
        ⟨.icmp .ult (.inst 1) (.param 0), 2, none, some 1⟩,
        ⟨.condBr (.inst 2) 2 3, 0, none, some 1⟩,
        ⟨.call "quotient" [.inst 1], 1, none, some 2⟩,
        ⟨.binary .add (.inst 1) (.const 1), 1, none, some 2⟩, ⟨.br 1, 0, none, some 2⟩,
        ⟨.ret (some (.inst 1)), 0, none, some 3⟩, ⟨.ret (some (.inst 4)), 0, none, some 4⟩]
      constants := #[⟨1, .int 0⟩, ⟨1, .int 1⟩]
      layout := [0, 1, 2, 3, 4] },
    { name := "quotient"
      params := #[⟨"k", 1, false⟩]
      ret := 1
      blocks := #[⟨"entry", [0, 1, 2], false⟩]
      insts := #[⟨.binary .sub (.const 0) (.param 0), 1, none, some 0⟩,
        ⟨.binary .udiv (.const 0) (.inst 0), 1, none, some 0⟩,
        ⟨.ret (some (.inst 1)), 0, none, some 0⟩]
      constants := #[⟨1, .int 1⟩]
      layout := [0] }]

theorem run_not_ofFlow_dividing :
    (dividing.run (dividing.funcs.getD 0 default) [.int 3] .empty 100).result =
      .error .divisionByZero ∧ Fault.divisionByZero.ofFlow = false := by
  have hrun : (dividing.run (dividing.funcs.getD 0 default) [.int 3] .empty 100).result =
      .error .divisionByZero := by cbv
  refine ⟨hrun, ?_⟩
  refine Program.run_not_ofFlow (p := dividing) (fun f hf => ?_) ?_ ?_ ?_ ?_ ?_ _ _ _ hrun
  · simp only [dividing, List.mem_toArray, List.mem_cons, List.not_mem_nil, or_false] at hf
    rcases hf with rfl | rfl <;> cbv
  all_goals decide +kernel

/-- A function whose entry lists its branch at both ends, around a stack slot. -/
def skipping : Func where
  name := "skipping"
  params := #[]
  ret := 2
  blocks := #[⟨"entry", [0, 1, 0], false⟩, ⟨"exit", [2], false⟩]
  insts := #[⟨.br 1, 0, none, some 0⟩, ⟨.alloca 1 4, 2, none, some 0⟩,
    ⟨.ret (some (.inst 1)), 0, none, some 1⟩]
  constants := #[]
  layout := [0, 1]

/-- It is accepted, and the branch leaves before the slot is made. -/
theorem run_ofFlow_skipping :
    skipping.verify ⟨#[⟨none, .void⟩, ⟨none, .scalar .f32⟩, ⟨none, .pointer 1⟩]⟩ = .ok () ∧
    skipping.EntryPhiFree ∧ skipping.UsesResults ∧
    ((⟨⟨#[⟨none, .void⟩, ⟨none, .scalar .f32⟩, ⟨none, .pointer 1⟩]⟩, #[skipping]⟩ : Program).run
      skipping [] .empty 10).result = .error (.malformed (.undefinedValue 1)) :=
  ⟨by cbv, by decide, by decide, by rfl⟩

end LoopNest
