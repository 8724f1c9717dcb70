import LoopNest.Proofs.Func.Grow
import LoopNest.Proofs.Machine.Lockstep
import LoopNest.Proofs.Machine.Sound

/-!
# Data of a run, block by block

The results of a run have the types of their instructions (`Values.Typed`), if constants and
arguments have theirs.  This is the typing of the machine, for the values that visits pass on: every
instruction keeps it (`Values.Typed.keeps`), and so does every visit (`Values.Typed.visit`).
-/

namespace LoopNest

/-- Every result has the type of its instruction. -/
def Values.Typed (tt : TypeTable) (f : Func) (ρ : Values) : Prop :=
  ∀ j d, ρ j = some d → d.OfType tt (f.inst j).ty

/-- Constants and arguments have their types. -/
structure Func.DataTyped (tt : TypeTable) (f : Func) (args : List Datum) : Prop where
  literals : f.LiteralsTyped tt
  args : f.ArgsTyped tt args

/-- A frame that holds some values. -/
def Func.frameOf (f : Func) (args : List Datum) (ρ : Values) : Frame where
  func := f
  args := args
  results := Array.ofFn fun i : Fin f.insts.size => ρ i
  block := 0
  rest := []

variable {tt : TypeTable} {f : Func} {args : List Datum} {ρ : Values} {v : Operand} {t : TyId}
  {d : Datum} {b : BlockId} {i : InstId}

theorem Func.value_frameOf (ht : f.operandTy v = .ok t) :
    (f.frameOf args ρ).value tt v = f.value tt args ρ v := by
  cases v with
  | inst j =>
    obtain ⟨hj, _⟩ := Func.lt_of_operandTy ht
    simp [Frame.value, Func.value, Frame.values, Func.frameOf, hj]
  | param k => rfl
  | const c => rfl

/-- A result is no vector if its type is none. -/
theorem Datum.OfType.ne_vector (h : d.OfType tt t) (hl : tt.lanes? t = none) (ds : List Datum) :
    d ≠ .vector ds := by
  rintro rfl
  unfold OfType at h
  unfold TypeTable.lanes? at hl
  cases hs : tt.shape t with
  | vector n s =>
    rw [hs] at hl
    cases hl
  | scalar s => exact (Datum.ofType_iff (d := .vector ds) hs).mp h
  | _ =>
    rw [hs] at h
    exact h.elim

namespace Values.Typed

variable (hρ : ρ.Typed tt f) (hd : f.DataTyped tt args)
include hρ hd

/-- The value of an operand has its type. -/
theorem value (ht : f.operandTy v = .ok t) (hv : f.value tt args ρ v = some d) :
    d.OfType tt t := by
  rw [← Func.value_frameOf ht, ← Frame.eval_eq_ok] at hv
  cases v with
  | inst j =>
    obtain ⟨_, rfl⟩ := Func.lt_of_operandTy ht
    rw [Frame.eval_eq_ok, Func.value_frameOf ht] at hv
    exact hρ j d hv
  | param k =>
    obtain ⟨e, he, hte⟩ : ∃ e, (f.frameOf args ρ).eval tt (.param k) = .ok e ∧ e.OfType tt t :=
      Func.ArgsTyped.eval hd.args ht
    cases he.symm.trans hv
    exact hte
  | const c =>
    obtain ⟨e, he, hte⟩ : ∃ e, (f.frameOf args ρ).eval tt (.const c) = .ok e ∧ e.OfType tt t :=
      Func.LiteralsTyped.eval hd.literals ht
    cases he.symm.trans hv
    exact hte

/-- The value of an operand of an instruction has its type. -/
theorem operand (hf : f.WellFormed) (hb : b ∈ f.layout) (hi : i ∈ f.body b)
    (hmem : v ∈ (f.op i).operands) (hv : f.value tt args ρ v = some d) :
    d.OfType tt (f.tyOf v) := by
  obtain ⟨t, ht⟩ := Func.operandTy_of_exists (hf.operand_exists b hb i hi v hmem)
  rw [Typing.tyOf_of_operandTy ht]
  exact hρ.value hd ht hv

/-- An instruction gives a datum of its type. -/
theorem computes (hf : f.WellFormed) (hty : f.WellTyped tt) (hb : b ∈ f.layout) (hi : i ∈ f.body b)
    (hphi : (f.op i).isPhi = false) {rs rs' : Array Region} {δ : List Chunk}
    (hc : Computes tt (f.value tt args ρ) f.tyOf (f.inst i).ty (f.op i) rs d δ rs') :
    d.OfType tt (f.inst i).ty := by
  obtain ⟨ty, hres, hlook⟩ := hty b hb i hi
  have hops : ∀ v ∈ (f.op i).operands, ∃ t, f.operandTy v = .ok t := fun v hv =>
    Func.operandTy_of_exists (hf.operand_exists b hb i hi v hv)
  have hframe : Computes tt ((f.frameOf args ρ).value tt) (f.frameOf args ρ).func.tyOf (f.inst i).ty
      (f.op i) (Memory.ofRegions rs).regions d δ rs' := by
    refine hc.congr (fun v hv => ?_) fun v _ => rfl
    obtain ⟨t, ht⟩ := hops v hv
    exact Func.value_frameOf ht
  obtain ⟨m', hm', _⟩ := (Frame.compute_ok_iff (x := f.inst i) hc.isPlain).mpr ⟨δ, hframe⟩
  have hok : ∀ e : Fault, e.ofRun = true → True := fun _ _ => trivial
  have hval : ∀ v ∈ (f.op i).operands, ∀ t, (f.frameOf args ρ).func.operandTy v = .ok t →
      Yields (fun _ => True) (Datum.OfType tt t) ((f.frameOf args ρ).eval tt v) := fun v _ t ht =>
    ⟨fun e he => hρ.value hd ht ((Func.value_frameOf ht).symm.trans (Frame.eval_eq_ok.mp he)),
      fun _ _ => trivial⟩
  have hyields := Frame.compute_yields hok hres hlook hc.isPlain hphi hval
  exact (hyields (Memory.ofRegions rs)).result d (by rw [hm'])

end Values.Typed

/-- Instructions of a block keep the types. -/
theorem Values.Typed.keeps (hf : f.WellFormed) (hty : f.WellTyped tt) (hd : f.DataTyped tt args)
    (hb : b ∈ f.layout) : Keeps tt f args (f.code b) fun s => s.values.Typed tt f := by
  intro i hi s hs d δ rs hc j e hj
  have hphi := hf.phi_first b hb i ((List.takeWhile_sublist _).subset hi)
  by_cases hji : j = i
  · subst hji
    simp only [Values.set_self, Option.some.injEq] at hj
    exact hj ▸ hs.computes hd hf hty hb (Func.mem_body_of_code hi) hphi hc
  · simp only [Values.set_of_ne hji] at hj
    exact hs j e hj

/-- Entering a block keeps the types. -/
theorem Values.Typed.entered (hρ : ρ.Typed tt f) (hty : f.WellTyped tt) (hd : f.DataTyped tt args)
    (hb : b ∈ f.layout) (source : Option BlockId) :
    (entered tt f args source b ρ).Typed tt f := by
  intro j e hj
  unfold LoopNest.entered at hj
  split at hj
  · rename_i hphi
    obtain ⟨v, hv, he⟩ := Option.bind_eq_some_iff.mp hj
    obtain ⟨_, -, hin⟩ := Option.bind_eq_some_iff.mp hv
    obtain ⟨incoming, hop, hmem⟩ := Func.mem_of_incoming? hin
    obtain ⟨ty, hres, -⟩ := hty b hb j (Func.mem_body_of_phis hphi)
    rw [hop] at hres
    have ht := (Typing.resultTy_phi.mp hres).1 v (List.mem_map.mpr ⟨_, hmem, rfl⟩)
    exact hρ.value hd ht he
  · exact hρ j e hj

/-- Visits keep the types. -/
theorem Values.Typed.visit {source : Option BlockId} {s s' : Snapshot} {δ : List Chunk} {x : Next}
    (hs : s.values.Typed tt f) (hf : f.WellFormed) (hty : f.WellTyped tt)
    (hd : f.DataTyped tt args) (hb : b ∈ f.layout) (hv : Visit tt f args source b s δ s' x) :
    s'.values.Typed tt f :=
  hv.straight.keeps (Values.Typed.keeps hf hty hd hb) (hs.entered hty hd hb source)

end LoopNest
