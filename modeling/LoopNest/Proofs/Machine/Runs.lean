import LoopNest.Proofs.Machine.Compute
import Mathlib.Data.List.TakeWhile

/-!
# Runs of a function, block by block

A function that makes no calls runs through its blocks.  A *visit* of a block takes the
values of the phis from the edge that was followed, executes the instructions up to the
terminator, and goes on with a block or returns.  `Executes` chains visits up to a return,
and counts the instructions.

`Program.run_ok_iff` says that the runs of the machine that succeed are exactly these
chains.  It needs a function whose blocks are in order (`Func.Orderly`), which verification
ensures.
-/

namespace LoopNest

/-! ## Blocks -/

/-- The instructions of a block between its phis and its first terminator. -/
def Func.code (f : Func) (b : BlockId) : List InstId :=
  (f.afterPhis b).takeWhile fun i => !(f.op i).isTerminator

/-- The number of instructions that a visit of a block executes. -/
def Func.cost (f : Func) (b : BlockId) : Nat := (f.phis b).length + (f.code b).length + 1

/-- Whether an operation is a call. -/
def Op.isCall : Op → Bool
  | .call _ _ => true
  | _ => false

/-- Whether an operation makes a stack slot. -/
def Op.isSlot : Op → Bool
  | .alloca _ _ => true
  | _ => false

/-- The function makes no calls. -/
def Func.CallFree (f : Func) : Prop :=
  ∀ b ∈ f.layout, ∀ i ∈ f.body b, ∀ c as, f.op i ≠ .call c as

/-- Some instructions make no stack slots. -/
def Func.SlotFree (f : Func) (is : List InstId) : Prop := ∀ i ∈ is, ∀ t a, f.op i ≠ .alloca t a

theorem Op.isCall_eq_false {op : Op} : op.isCall = false ↔ ∀ c as, op ≠ .call c as := by
  cases op <;> simp [Op.isCall]

theorem Op.isSlot_eq_false {op : Op} : op.isSlot = false ↔ ∀ t a, op ≠ .alloca t a := by
  cases op <;> simp [Op.isSlot]

instance (f : Func) : Decidable f.CallFree :=
  decidable_of_iff (∀ b ∈ f.layout, ∀ i ∈ f.body b, (f.op i).isCall = false)
    (by simp only [Func.CallFree, Op.isCall_eq_false])

instance (f : Func) (is : List InstId) : Decidable (f.SlotFree is) :=
  decidable_of_iff (∀ i ∈ is, (f.op i).isSlot = false)
    (by simp only [Func.SlotFree, Op.isSlot_eq_false])

/-- The blocks in use are in order: they end in their only terminator, which leads to blocks in
use, and there are no calls. -/
structure Func.Orderly (f : Func) (used : BlockId → Prop) : Prop where
  /-- The function starts in one of them. -/
  entry_used : ∀ e, f.entry? = some e → used e
  /-- The instructions of a block exist. -/
  inst_lt : ∀ b, used b → ∀ i ∈ f.body b, i < f.insts.size
  /-- There are no calls. -/
  no_call : ∀ b, used b → ∀ i ∈ f.body b, ∀ c as, f.op i ≠ .call c as
  /-- A block ends in a terminator. -/
  ends : ∀ b, used b → ∃ t, f.terminator? b = some t
  /-- A block has no other terminator. -/
  terminator_eq : ∀ b, used b → ∀ i ∈ f.body b, (f.op i).isTerminator = true →
    f.terminator? b = some i
  /-- A block leads to blocks in use. -/
  successor_used : ∀ b, used b → ∀ c ∈ f.successors b, used c

/-- The terminator of a block is its last instruction. -/
theorem Func.terminator?_eq_some {f : Func} {b : BlockId} {t : InstId} :
    f.terminator? b = some t ↔
      (∃ front, f.body b = front ++ [t]) ∧ (f.op t).isTerminator = true := by
  rw [← List.getLast?_eq_some_iff]
  unfold Func.terminator?
  cases (f.body b).getLast? with
  | none => simp
  | some i =>
    simp only [Option.some.injEq]
    constructor
    · intro h
      split at h
      · cases h
        exact ⟨rfl, by assumption⟩
      · cases h
    · rintro ⟨rfl, ht⟩
      rw [if_pos ht]

theorem Func.mem_body_of_terminator {f : Func} {b : BlockId} {t : InstId}
    (h : f.terminator? b = some t) : t ∈ f.body b ∧ (f.op t).isTerminator = true := by
  obtain ⟨⟨front, hbody⟩, ht⟩ := Func.terminator?_eq_some.mp h
  exact ⟨hbody ▸ by simp, ht⟩

theorem Op.not_isPhi_of_isTerminator {op : Op} (h : op.isTerminator = true) :
    op.isPhi = false := by
  cases op <;> simp_all [Op.isTerminator, Op.isPhi]

theorem Op.isTerminator_of_mem_targets {op : Op} {c : BlockId} (h : c ∈ op.targets) :
    op.isTerminator = true := by
  cases op <;> simp_all [Op.targets, Op.isTerminator]

theorem Op.not_isCall_of_isTerminator {op : Op} (h : op.isTerminator = true) :
    op.isCall = false := by
  cases op <;> first | rfl | cases h

theorem Op.not_isSlot_of_isTerminator {op : Op} (h : op.isTerminator = true) :
    op.isSlot = false := by
  cases op <;> first | rfl | cases h

theorem Op.not_isSlot_of_isPhi {op : Op} (h : op.isPhi = true) : op.isSlot = false := by
  cases op <;> first | rfl | cases h

theorem Func.mem_afterPhis_of_terminator {f : Func} {b : BlockId} {t : InstId}
    (h : f.terminator? b = some t) : t ∈ f.afterPhis b := by
  obtain ⟨hmem, ht⟩ := Func.mem_body_of_terminator h
  rw [← f.phis_append_afterPhis b] at hmem
  rcases List.mem_append.mp hmem with hp | ha
  · have := List.mem_takeWhile_imp hp
    rw [Op.not_isPhi_of_isTerminator ht] at this
    cases this
  · exact ha

theorem Func.mem_body_of_afterPhis {f : Func} {b : BlockId} {i : InstId}
    (h : i ∈ f.afterPhis b) : i ∈ f.body b := by
  rw [← f.phis_append_afterPhis b]
  exact List.mem_append_right _ h

theorem Func.mem_body_of_phis {f : Func} {b : BlockId} {i : InstId}
    (h : i ∈ f.phis b) : i ∈ f.body b := by
  rw [← f.phis_append_afterPhis b]
  exact List.mem_append_left _ h

theorem Func.isPhi_of_mem_phis {f : Func} {b : BlockId} {i : InstId} (h : i ∈ f.phis b) :
    (f.op i).isPhi = true := by
  have := List.mem_takeWhile_imp h
  exact this

theorem Func.mem_body_of_code {f : Func} {b : BlockId} {i : InstId} (h : i ∈ f.code b) :
    i ∈ f.body b := Func.mem_body_of_afterPhis ((List.takeWhile_sublist _).subset h)

/-- The instructions after the phis are the code, the terminator and nothing that is reached. -/
theorem Func.afterPhis_eq_code {f : Func} {b : BlockId} {t : InstId}
    (hone : ∀ i ∈ f.body b, (f.op i).isTerminator = true → f.terminator? b = some i)
    (ht : f.terminator? b = some t) : ∃ rest, f.afterPhis b = f.code b ++ t :: rest := by
  have hsplit : f.code b ++ (f.afterPhis b).dropWhile (fun i => !(f.op i).isTerminator) =
      f.afterPhis b := List.takeWhile_append_dropWhile
  have hterm := (Func.mem_body_of_terminator ht).2
  cases hd : (f.afterPhis b).dropWhile (fun i => !(f.op i).isTerminator) with
  | nil =>
    rw [hd, List.append_nil] at hsplit
    have hmem := Func.mem_afterPhis_of_terminator ht
    rw [← hsplit] at hmem
    have := List.mem_takeWhile_imp hmem
    simp [hterm] at this
  | cons i rest =>
    rw [hd] at hsplit
    have hi : (f.op i).isTerminator = true := by
      have := List.head?_dropWhile_not (fun i => !(f.op i).isTerminator) (f.afterPhis b)
      rw [hd] at this
      simpa using this
    have hmem : i ∈ f.body b := Func.mem_body_of_afterPhis (hsplit ▸ by simp)
    have := hone i hmem hi
    rw [ht] at this
    cases this
    exact ⟨rest, hsplit.symm⟩

/-- The successors of a block are the targets of its terminator. -/
theorem Func.mem_successors_iff {f : Func} {b c : BlockId} {t : InstId}
    (ht : f.terminator? b = some t) : c ∈ f.successors b ↔ c ∈ (f.op t).targets := by
  unfold Func.successors
  rw [ht]
  simp only
  split
  · rename_i x y h
    rw [h]
    by_cases hxy : x = y <;> simp [hxy]
  · rfl

theorem Func.not_isTerminator_of_code {f : Func} {b : BlockId} {i : InstId} (h : i ∈ f.code b) :
    (f.op i).isTerminator = false := by
  have := List.mem_takeWhile_imp h
  simpa using this

/-! ## Visits and executions -/

/-- What a run looks at: the latest results and the regions. -/
structure Snapshot where
  /-- The latest result of each instruction. -/
  values : Values
  /-- The regions of the memory. -/
  regions : Array Region

/-- Where control goes at the end of a block. -/
inductive Next where
  /-- To a block. -/
  | goto (b : BlockId)
  /-- Back to the caller. -/
  | ret (d : Datum)

/-- Where a terminator leads, by the values of operands. -/
inductive Leaves (value : Operand → Option Datum) : Op → Next → Prop where
  | br {t : BlockId} : Leaves value (.br t) (.goto t)
  | condBr {c : Operand} {t e : BlockId} {taken : Bool} :
      value c = some (.bool taken) → Leaves value (.condBr c t e) (.goto (if taken then t else e))
  | retVoid : Leaves value (.ret none) (.ret .void)
  | ret {v : Operand} {d : Datum} : value v = some d → Leaves value (.ret (some v)) (.ret d)

section

variable (tt : TypeTable) (f : Func) (args : List Datum)

/-- Instructions executed one after the other, with the chunks that they write. -/
inductive Straight : List InstId → Snapshot → List Chunk → Snapshot → Prop where
  /-- No instruction. -/
  | nil {s : Snapshot} : Straight [] s [] s
  /-- One instruction and the rest. -/
  | cons {i : InstId} {is : List InstId} {s s' : Snapshot} {d : Datum} {δ δ' : List Chunk}
      {rs : Array Region} :
      Computes tt (f.value tt args s.values) f.tyOf (f.inst i).ty (f.op i) s.regions d δ rs →
      Straight is ⟨s.values.set i d, rs⟩ δ' s' → Straight (i :: is) s (δ ++ δ') s'

/-- What a phi takes from an edge. -/
def phiValue (source : Option BlockId) (ρ : Values) (i : InstId) : Option Datum :=
  (source.bind (f.incoming? i)).bind (f.value tt args ρ)

/-- The values after the phis of a block took theirs. -/
def entered (source : Option BlockId) (b : BlockId) (ρ : Values) : Values := fun i =>
  if i ∈ f.phis b then phiValue tt f args source ρ i else ρ i

/-- One visit of a block. -/
structure Visit (source : Option BlockId) (b : BlockId) (s : Snapshot) (δ : List Chunk)
    (s' : Snapshot) (x : Next) : Prop where
  /-- All phis have a value on the edge. -/
  ready : ∀ i ∈ f.phis b, (phiValue tt f args source s.values i).isSome
  /-- The code of the block. -/
  straight : Straight tt f args (f.code b) ⟨entered tt f args source b s.values, s.regions⟩ δ s'
  /-- The end of the block. -/
  leaves : ∃ t, f.terminator? b = some t ∧ Leaves (f.value tt args s'.values) (f.op t) x

/-- Visits up to a return: the returned datum, the regions left behind and the number of
instructions executed. -/
inductive Executes : Option BlockId → BlockId → Snapshot → Datum → Array Region → Nat → Prop where
  /-- The last visit. -/
  | ret {source : Option BlockId} {b : BlockId} {s s' : Snapshot} {δ : List Chunk} {d : Datum} :
      Visit tt f args source b s δ s' (.ret d) → Executes source b s d s'.regions (f.cost b)
  /-- A visit and the rest. -/
  | goto {source : Option BlockId} {b c : BlockId} {s s' : Snapshot} {δ : List Chunk} {d : Datum}
      {rs : Array Region} {n : Nat} :
      Visit tt f args source b s δ s' (.goto c) → Executes (some b) c s' d rs n →
      Executes source b s d rs (f.cost b + n)

/-- A run from the middle of a block, one instruction at a time. -/
inductive Runs : BlockId → List InstId → Snapshot → Datum → Array Region → Nat → Prop where
  /-- An instruction of the block. -/
  | step {b : BlockId} {i : InstId} {is : List InstId} {s : Snapshot} {δ : List Chunk} {e d : Datum}
      {rs rs' : Array Region} {n : Nat} : (f.op i).isPlain = true →
      Computes tt (f.value tt args s.values) f.tyOf (f.inst i).ty (f.op i) s.regions e δ rs →
      Runs b is ⟨s.values.set i e, rs⟩ d rs' n → Runs b (i :: is) s d rs' (n + 1)
  /-- A return. -/
  | ret {b : BlockId} {i : InstId} {is : List InstId} {s : Snapshot} {d : Datum} :
      Leaves (f.value tt args s.values) (f.op i) (.ret d) → Runs b (i :: is) s d s.regions 1
  /-- A branch. -/
  | goto {b c : BlockId} {i : InstId} {is : List InstId} {s : Snapshot} {d : Datum}
      {rs : Array Region} {n : Nat} :
      Leaves (f.value tt args s.values) (f.op i) (.goto c) →
      (∀ j ∈ f.phis c, (phiValue tt f args (some b) s.values j).isSome) →
      Runs c (f.afterPhis c) ⟨entered tt f args (some b) c s.values, s.regions⟩ d rs n →
      Runs b (i :: is) s d rs (n + (f.phis c).length + 1)

end

section

variable {tt : TypeTable} {f : Func} {args : List Datum}

theorem Computes.isPlain {value : Operand → Option Datum} {tyOf : Operand → TyId} {ty : TyId}
    {op : Op} {rs rs' : Array Region} {d : Datum} {δ : List Chunk}
    (h : Computes tt value tyOf ty op rs d δ rs') : op.isPlain = true := by
  cases h with
  | pure hp => cases op <;> first | rfl | cases hp
  | _ => rfl

theorem Leaves.isTerminator {value : Operand → Option Datum} {op : Op} {x : Next}
    (h : Leaves value op x) : op.isTerminator = true := by
  cases h <;> rfl

/-- A terminator leads to one place. -/
theorem Leaves.functional {value : Operand → Option Datum} {op : Op} {x y : Next}
    (h : Leaves value op x) (h' : Leaves value op y) : x = y := by
  cases h with
  | br =>
    cases h'
    rfl
  | condBr hc =>
    cases h' with
    | condBr hc' =>
      rw [hc] at hc'
      cases hc'
      rfl
  | retVoid =>
    cases h'
    rfl
  | ret hv =>
    cases h' with
    | ret hv' =>
      rw [hv] at hv'
      cases hv'
      rfl

theorem Op.not_isTerminator_of_isPlain {op : Op} (h : op.isPlain = true) :
    op.isTerminator = false := by
  cases op <;> simp_all [Op.isPlain, Op.isTerminator]

/-- A terminator leads to one of its targets. -/
theorem Leaves.mem_targets {value : Operand → Option Datum} {op : Op} {c : BlockId}
    (h : Leaves value op (.goto c)) : c ∈ op.targets := by
  cases h with
  | br => exact List.mem_singleton.mpr rfl
  | @condBr _ x y taken _ => cases taken <;> simp [Op.targets]

end

/-! ## Execution as visits -/

section

variable {tt : TypeTable} {f : Func} {args : List Datum}

/-- Straight code in front of a run. -/
theorem Straight.runs {is rest : List InstId} {s s' : Snapshot} {δ : List Chunk} {b : BlockId}
    {d : Datum} {rs : Array Region} {n : Nat} (h : Straight tt f args is s δ s')
    (hr : Runs tt f args b rest s' d rs n) :
    Runs tt f args b (is ++ rest) s d rs (n + is.length) := by
  induction h with
  | nil => exact hr
  | cons hc _ ih => exact .step hc.isPlain hc (ih hr)

/-- Every run is straight code up to a terminator. -/
theorem Runs.straight {b : BlockId} {is : List InstId} {s : Snapshot} {d : Datum}
    {rs : Array Region} {n : Nat} (h : Runs tt f args b is s d rs n) :
    ∃ t rest δ s' k, is = is.takeWhile (fun i => !(f.op i).isTerminator) ++ t :: rest ∧
      Straight tt f args (is.takeWhile fun i => !(f.op i).isTerminator) s δ s' ∧
      (f.op t).isTerminator = true ∧ Runs tt f args b (t :: rest) s' d rs k ∧
      n = (is.takeWhile fun i => !(f.op i).isTerminator).length + k := by
  induction h with
  | @step b i is s δ e d rs rs' n hp hc hr ih =>
    have hi := Op.not_isTerminator_of_isPlain hp
    obtain ⟨t, rest, δ', s', k, his, hst, ht, hrun, hn⟩ := ih
    refine ⟨t, rest, δ ++ δ', s', k, ?_, ?_, ht, hrun, ?_⟩
    · simp only [List.takeWhile_cons, hi, Bool.not_false, if_true, List.cons_append]
      rw [← his]
    · simp only [List.takeWhile_cons, hi, Bool.not_false, if_true]
      exact .cons hc hst
    · simp only [List.takeWhile_cons, hi, Bool.not_false, if_true, List.length_cons]
      omega
  | @ret b i is s d hl =>
    exact ⟨i, is, [], s, 1, by simp [hl.isTerminator], by simpa [hl.isTerminator] using .nil,
      hl.isTerminator, .ret hl, by simp [hl.isTerminator]⟩
  | @goto b c i is s d rs n hl hready hr _ =>
    exact ⟨i, is, [], s, _, by simp [hl.isTerminator], by simpa [hl.isTerminator] using .nil,
      hl.isTerminator, .goto hl hready hr, by simp [hl.isTerminator]⟩

/-- A run from the start of a block is a chain of visits. -/
theorem Runs.executes {used : BlockId → Prop} (hf : f.Orderly used) : ∀ (n : Nat) {source : Option BlockId} {b : BlockId}
    {s : Snapshot} {d : Datum} {rs : Array Region}, used b →
    (∀ j ∈ f.phis b, (phiValue tt f args source s.values j).isSome) →
    Runs tt f args b (f.afterPhis b) ⟨entered tt f args source b s.values, s.regions⟩ d rs n →
    Executes tt f args source b s d rs ((f.phis b).length + n) := by
  intro n
  induction n using Nat.strong_induction_on with
  | _ n ih =>
    intro source b s d rs hb hready hrun
    obtain ⟨t, rest, δ, s', k, his, hst, ht, hr, hn⟩ := hrun.straight
    have hmem : t ∈ f.body b := Func.mem_body_of_afterPhis (his ▸ by simp)
    have hterm := hf.terminator_eq b hb t hmem ht
    subst hn
    cases hr with
    | step hp _ _ => exact absurd ht (by rw [Op.not_isTerminator_of_isPlain hp]; simp)
    | ret hl => exact .ret ⟨hready, hst, t, hterm, hl⟩
    | @goto _ c _ _ _ _ _ m hl hready' hr =>
      have hc : used c :=
        hf.successor_used b hb c ((Func.mem_successors_iff hterm).mpr hl.mem_targets)
      have hrest := ih m (by omega) hc hready' hr
      have hvisit : Visit tt f args source b s δ s' (.goto c) := ⟨hready, hst, t, hterm, hl⟩
      have heq : (f.phis b).length + ((f.code b).length + (m + (f.phis c).length + 1)) =
          f.cost b + ((f.phis c).length + m) := by
        unfold Func.cost
        omega
      exact heq ▸ .goto hvisit hrest

/-- A chain of visits is a run. -/
theorem Executes.runs {used : BlockId → Prop} (hf : f.Orderly used) {source : Option BlockId} {b : BlockId} {s : Snapshot}
    {d : Datum} {rs : Array Region} {n : Nat} (h : Executes tt f args source b s d rs n) :
    used b → (∀ j ∈ f.phis b, (phiValue tt f args source s.values j).isSome) ∧
    ∃ k, n = (f.phis b).length + k ∧ Runs tt f args b (f.afterPhis b)
      ⟨entered tt f args source b s.values, s.regions⟩ d rs k := by
  induction h with
  | @ret source b s s' δ d hv =>
    intro hb
    obtain ⟨t, ht, hl⟩ := hv.leaves
    obtain ⟨rest, hrest⟩ := Func.afterPhis_eq_code (hf.terminator_eq b hb) ht
    refine ⟨hv.ready, 1 + (f.code b).length, ?_, hrest ▸ hv.straight.runs (.ret hl)⟩
    unfold Func.cost
    omega
  | @goto source b c s s' δ d rs n hv _ ih =>
    intro hb
    obtain ⟨t, ht, hl⟩ := hv.leaves
    obtain ⟨rest, hrest⟩ := Func.afterPhis_eq_code (hf.terminator_eq b hb) ht
    have hc := hf.successor_used b hb c ((Func.mem_successors_iff ht).mpr hl.mem_targets)
    obtain ⟨hready, k, rfl, hr⟩ := ih hc
    refine ⟨hv.ready, k + (f.phis c).length + 1 + (f.code b).length, ?_,
      hrest ▸ hv.straight.runs (.goto hl hready hr)⟩
    unfold Func.cost
    omega

end

/-! ## The machine -/

section

variable {tt : TypeTable} {f : Func} {args : List Datum}

/-- A frame of a function in the middle of a block. -/
structure Frame.At (fr : Frame) (f : Func) (args : List Datum) (b : BlockId) (is : List InstId)
    (ρ : Values) : Prop where
  func_eq : fr.func = f
  args_eq : fr.args = args
  size_eq : fr.results.size = f.insts.size
  block_eq : fr.block = b
  rest_eq : fr.rest = is
  values_eq : fr.values = ρ

theorem Frame.At.value_eq {fr : Frame} {b : BlockId} {is : List InstId} {ρ : Values}
    (h : fr.At f args b is ρ) : fr.value tt = f.value tt args ρ := by
  unfold Frame.value
  rw [h.func_eq, h.args_eq, h.values_eq]

theorem Frame.At.record {fr : Frame} {b : BlockId} {is : List InstId} {ρ : Values} {i : InstId}
    (h : fr.At f args b is ρ) (hi : i < f.insts.size) (d : Datum) :
    (fr.record i d).At f args b is (ρ.set i d) :=
  ⟨h.func_eq, h.args_eq, by simp [Frame.record, h.size_eq], h.block_eq, h.rest_eq, by
    rw [Frame.values_record (h.size_eq ▸ hi), h.values_eq]⟩

/-- Recording several results. -/
theorem Frame.At.recordAll {b : BlockId} {is : List InstId} {F : Values} :
    ∀ (ds : List (InstId × Datum)) {fr : Frame} {ρ : Values}, fr.At f args b is ρ →
    (∀ e ∈ ds, e.1 < f.insts.size) → (∀ e ∈ ds, F e.1 = some e.2) →
    (ds.foldl (fun fr e => fr.record e.1 e.2) fr).At f args b is
      (fun j => if j ∈ ds.map Prod.fst then F j else ρ j)
  | [], fr, ρ, h, _, _ => by simpa using h
  | e :: ds, fr, ρ, h, hlt, hF => by
    have := Frame.At.recordAll ds (h.record (hlt e List.mem_cons_self) e.2)
      (fun x hx => hlt x (List.mem_cons_of_mem _ hx)) (fun x hx => hF x (List.mem_cons_of_mem _ hx))
    rw [List.foldl_cons]
    convert this using 2 with j
    by_cases hj : j ∈ ds.map Prod.fst
    · simp [hj]
    · by_cases hje : j = e.1
      · simp [hje, hF e List.mem_cons_self, Values.set]
      · simp [hj, hje, Values.set]

theorem Frame.phiValues_eq_ok {fr : Frame} {limit : Nat} {source : Option BlockId}
    {name : String} : ∀ (is : List InstId) {steps n : Nat} {ds : List (InstId × Datum)},
    steps ≤ limit →
    (fr.phiValues tt limit source name is steps = (.ok ds, n) ↔
      n = steps + is.length ∧ n ≤ limit ∧ ds.map Prod.fst = is ∧
        ∀ e ∈ ds, (source.bind (fr.func.incoming? e.1)).bind (fr.value tt) = some e.2)
  | [], steps, n, ds, hle => by
    simp only [Frame.phiValues, Prod.mk.injEq, Except.ok.injEq, List.length_nil, List.map_eq_nil_iff]
    constructor
    · rintro ⟨rfl, rfl⟩
      simp [hle]
    · rintro ⟨rfl, _, rfl, _⟩
      simp
  | i :: is, steps, n, ds, hle => by
    rw [Frame.phiValues]
    by_cases hlim : limit < steps + 1
    · rw [if_pos hlim]
      constructor
      · intro h
        cases (Prod.mk.inj h).1
      · rintro ⟨rfl, hn, _⟩
        rw [List.length_cons] at hn
        omega
    · rw [if_neg hlim]
      cases hin : source.bind (fr.func.incoming? i) with
      | none =>
        constructor
        · intro h
          cases (Prod.mk.inj h).1
        · rintro ⟨_, _, hmap, hall⟩
          cases ds with
          | nil => cases hmap
          | cons e ds =>
            have := hall e List.mem_cons_self
            rw [List.map_cons, List.cons.injEq] at hmap
            simp [hmap.1, hin] at this
      | some v =>
        simp only
        cases hev : fr.eval tt v with
        | error err =>
          constructor
          · intro h
            cases (Prod.mk.inj h).1
          · rintro ⟨_, _, hmap, hall⟩
            cases ds with
            | nil => cases hmap
            | cons e ds =>
              have := hall e List.mem_cons_self
              rw [List.map_cons, List.cons.injEq] at hmap
              rw [hmap.1, hin, Option.bind_some] at this
              rw [Frame.eval_eq_ok.mpr this] at hev
              cases hev
        | ok d =>
          have hlt : steps + 1 ≤ limit := by omega
          simp only
          constructor
          · intro h
            cases hrec : fr.phiValues tt limit source name is (steps + 1) with
            | mk r k =>
              rw [hrec] at h
              cases r with
              | error err => cases (Prod.mk.inj h).1
              | ok es =>
                obtain ⟨rfl, hk, hmap, hall⟩ := (Frame.phiValues_eq_ok is hlt).mp hrec
                cases h
                refine ⟨by rw [List.length_cons]; omega, hk, by simp [hmap], fun e he => ?_⟩
                rcases List.mem_cons.mp he with rfl | he
                · rw [hin, Option.bind_some]
                  exact Frame.eval_eq_ok.mp hev
                · exact hall e he
          · rintro ⟨rfl, hk, hmap, hall⟩
            cases ds with
            | nil => cases hmap
            | cons e es =>
              obtain ⟨j, x⟩ := e
              simp only [List.map_cons, List.cons.injEq] at hmap
              obtain ⟨rfl, hmap⟩ := hmap
              have hx := hall (j, x) List.mem_cons_self
              rw [hin, Option.bind_some] at hx
              rw [Frame.eval_eq_ok.mpr hx] at hev
              cases hev
              rw [List.length_cons] at hk ⊢
              rw [(Frame.phiValues_eq_ok is hlt).mpr ⟨rfl, by omega, hmap, fun e he =>
                hall e (List.mem_cons_of_mem _ he)⟩]
              simp
              omega

/-- Entering a block that succeeds. -/
theorem Frame.At.of_enter {fr fr' : Frame} {b c : BlockId} {is : List InstId} {ρ : Values}
    {limit steps n : Nat} {source : Option BlockId} (h : fr.At f args b is ρ)
    (hphis : ∀ i ∈ f.phis c, i < f.insts.size) (hle : steps ≤ limit)
    (he : fr.enter tt limit source c steps = (.ok fr', n)) :
    n = steps + (f.phis c).length ∧ n ≤ limit ∧
      (∀ i ∈ f.phis c, (phiValue tt f args source ρ i).isSome) ∧
      fr'.At f args c (f.afterPhis c) (entered tt f args source c ρ) := by
  simp only [Frame.enter, h.func_eq] at he
  cases hp : fr.phiValues tt limit source (f.block c).name (f.phis c) steps with
  | mk r k =>
    rw [hp] at he
    cases r with
    | error e => cases (Prod.mk.inj he).1
    | ok ds =>
      obtain ⟨rfl, hk, hmap, hall⟩ := (Frame.phiValues_eq_ok _ hle).mp hp
      rw [h.func_eq, h.value_eq] at hall
      replace hall : ∀ e ∈ ds, phiValue tt f args source ρ e.1 = some e.2 := hall
      cases he
      have hds : ∀ e ∈ ds, e.1 ∈ f.phis c := fun e hmem => hmap ▸ List.mem_map_of_mem hmem
      refine ⟨rfl, hk, fun i hi => ?_, ?_⟩
      · rw [← hmap] at hi
        obtain ⟨e, hmem, rfl⟩ := List.mem_map.mp hi
        rw [hall e hmem]
        rfl
      · have hrec := h.recordAll ds (fun e hmem => hphis _ (hds e hmem)) hall
        rw [hmap] at hrec
        exact ⟨hrec.func_eq, hrec.args_eq, hrec.size_eq, rfl, rfl, hrec.values_eq⟩

/-- Phis that are ready let a block be entered. -/
theorem Frame.At.enter {fr : Frame} {b c : BlockId} {is : List InstId} {ρ : Values}
    {source : Option BlockId} (h : fr.At f args b is ρ) {limit : Nat} (steps : Nat)
    (hphis : ∀ i ∈ f.phis c, i < f.insts.size) (hle : steps + (f.phis c).length ≤ limit)
    (hready : ∀ i ∈ f.phis c, (phiValue tt f args source ρ i).isSome) :
    ∃ fr', fr.enter tt limit source c steps = (.ok fr', steps + (f.phis c).length) ∧
      fr'.At f args c (f.afterPhis c) (entered tt f args source c ρ) := by
  have hall : ∀ i ∈ f.phis c, ∃ d, phiValue tt f args source ρ i = some d := fun i hi =>
    Option.isSome_iff_exists.mp (hready i hi)
  obtain ⟨ds, hmap, hds⟩ : ∃ ds : List (InstId × Datum), ds.map Prod.fst = f.phis c ∧
      ∀ e ∈ ds, phiValue tt f args source ρ e.1 = some e.2 := by
    generalize f.phis c = is at hall
    induction is with
    | nil => exact ⟨[], rfl, fun _ h => absurd h List.not_mem_nil⟩
    | cons i is ih =>
      obtain ⟨d, hd⟩ := hall i List.mem_cons_self
      obtain ⟨ds, hmap, hds⟩ := ih fun j hj => hall j (List.mem_cons_of_mem _ hj)
      refine ⟨(i, d) :: ds, by simp [hmap], fun e he => ?_⟩
      rcases List.mem_cons.mp he with rfl | he
      · exact hd
      · exact hds e he
  have hp : fr.phiValues tt limit source (f.block c).name (f.phis c) steps =
      (.ok ds, steps + (f.phis c).length) := by
    refine (Frame.phiValues_eq_ok _ (by omega)).mpr ⟨rfl, hle, hmap, fun e he => ?_⟩
    rw [h.func_eq, h.value_eq]
    exact hds e he
  have heq : fr.enter tt limit source c steps = (.ok { ds.foldl
      (fun fr e => fr.record e.1 e.2) fr with block := c, rest := f.afterPhis c },
      steps + (f.phis c).length) := by
    simp only [Frame.enter, h.func_eq, hp]
  have hrec := h.recordAll ds
    (fun e he => hphis _ (hmap ▸ List.mem_map_of_mem he)) hds
  rw [hmap] at hrec
  exact ⟨_, heq, hrec.func_eq, hrec.args_eq, hrec.size_eq, rfl, rfl, hrec.values_eq⟩

variable {p : Program}

theorem Machine.execute_plain {fr : Frame} {limit steps : Nat} {m : Memory} {i : InstId}
    (hp : (fr.func.op i).isPlain = true) :
    Machine.execute p limit fr [] m i steps =
      match fr.compute p.types (fr.func.inst i) m with
      | (.ok d, m) => .next ⟨fr.record i d, [], m, steps⟩
      | (.error err, m) => .halt ⟨.error err, m, steps⟩ := by
  unfold Machine.execute
  change (fr.func.inst i).op.isPlain = true at hp
  generalize fr.func.inst i = x at hp ⊢
  obtain ⟨op, ty, name, owner⟩ := x
  cases op <;> first | rfl | simp [Op.isPlain] at hp

/-- What a terminator does: it leaves the block or fails. -/
theorem Machine.execute_terminator {fr : Frame} {limit steps : Nat} {m : Memory} {i : InstId}
    (ht : (fr.func.op i).isTerminator = true) :
    (∃ c, Leaves (fr.value p.types) (fr.func.op i) (.goto c) ∧
      Machine.execute p limit fr [] m i steps =
        Machine.goto p limit fr [] m (some fr.block) c steps) ∨
    (∃ d, Leaves (fr.value p.types) (fr.func.op i) (.ret d) ∧
      Machine.execute p limit fr [] m i steps = .halt ⟨.ok d, m, steps⟩) ∨
    (∀ x, ¬ Leaves (fr.value p.types) (fr.func.op i) x) ∧
      ∃ e, Machine.execute p limit fr [] m i steps = .halt ⟨.error e, m, steps⟩ := by
  unfold Machine.execute Func.op
  change (fr.func.inst i).op.isTerminator = true at ht
  generalize fr.func.inst i = x at ht ⊢
  obtain ⟨op, ty, name, owner⟩ := x
  cases op with
  | br t => exact .inl ⟨t, .br, rfl⟩
  | condBr c t e =>
    simp only
    cases hc : fr.eval p.types c with
    | error err =>
      refine .inr (.inr ⟨fun x hl => ?_, err, rfl⟩)
      cases hl with
      | condBr hv =>
        rw [Frame.eval_eq_ok.mpr hv] at hc
        cases hc
    | ok d =>
      simp only [Except.bind]
      cases hb : d.asBool with
      | ok taken =>
        rw [Datum.asBool_eq_ok] at hb
        subst hb
        exact .inl ⟨_, .condBr (Frame.eval_eq_ok.mp hc), rfl⟩
      | error err =>
        refine .inr (.inr ⟨fun x hl => ?_, err, rfl⟩)
        cases hl with
        | condBr hv =>
          rw [Frame.eval_eq_ok.mpr hv] at hc
          cases hc
          cases hb
  | ret v =>
    cases v with
    | none => exact .inr (.inl ⟨.void, .retVoid, rfl⟩)
    | some v =>
      simp only
      cases hv : fr.eval p.types v with
      | error err =>
        refine .inr (.inr ⟨fun x hl => ?_, err, rfl⟩)
        cases hl with
        | ret hv' =>
          rw [Frame.eval_eq_ok.mpr hv'] at hv
          cases hv
      | ok d => exact .inr (.inl ⟨d, .ret (Frame.eval_eq_ok.mp hv), rfl⟩)
  | _ => simp [Op.isTerminator] at ht

theorem Op.isPlain_or_isTerminator {op : Op} (h : ∀ c as, op ≠ .call c as) :
    op.isPlain = true ∨ op.isTerminator = true := by
  cases op with
  | call c as => exact absurd rfl (h c as)
  | _ => simp [Op.isPlain, Op.isTerminator]

/-- What the machine does in the middle of a block is a run. -/
theorem Machine.runs_of_run {used : BlockId → Prop} (hf : f.Orderly used) {limit : Nat} {h : Halt} {d : Datum}
    (hd : h.result = .ok d) : ∀ (fuel : Nat) {fr : Frame} {b : BlockId} {is : List InstId}
    {ρ : Values} {m : Memory} {steps : Nat}, fr.At f args b is ρ → used b →
    (∀ i ∈ is, i ∈ f.body b) → steps ≤ limit →
    Machine.run p limit fuel ⟨fr, [], m, steps⟩ = h →
    ∃ n, Runs p.types f args b is ⟨ρ, m.regions⟩ d h.memory.regions n ∧
      h.steps = steps + n ∧ h.steps ≤ limit := by
  intro fuel
  induction fuel with
  | zero =>
    intro fr b is ρ m steps _ _ _ _ hrun
    rw [← hrun] at hd
    cases hd
  | succ fuel ih =>
    intro fr b is ρ m steps hat hb hsub hle hrun
    cases is with
    | nil =>
      simp only [Machine.run, Machine.step, hat.rest_eq] at hrun
      rw [← hrun] at hd
      cases hd
    | cons i is =>
      simp only [Machine.run, Machine.step, hat.rest_eq] at hrun
      by_cases hlim : limit < steps + 1
      · rw [if_pos hlim] at hrun
        rw [← hrun] at hd
        cases hd
      · rw [if_neg hlim] at hrun
        have hlt := hf.inst_lt b hb i (hsub i List.mem_cons_self)
        have hrest : ∀ j ∈ is, j ∈ f.body b := fun j hj => hsub j (List.mem_cons_of_mem _ hj)
        have hat' : ({ fr with rest := is } : Frame).At f args b is ρ :=
          ⟨hat.func_eq, hat.args_eq, hat.size_eq, hat.block_eq, rfl, hat.values_eq⟩
        have hno := hf.no_call b hb i (hsub i List.mem_cons_self)
        rcases Op.isPlain_or_isTerminator hno with hp | ht
        · have hp' : (({ fr with rest := is } : Frame).func.op i).isPlain = true := hat.func_eq ▸ hp
          rw [Machine.execute_plain hp'] at hrun
          cases hc : ({ fr with rest := is } : Frame).compute p.types (fr.func.inst i) m with
          | mk r m' =>
            simp only [hc] at hrun
            cases r with
            | error e =>
              rw [← hrun] at hd
              cases hd
            | ok e =>
              have hat'' := hat'.record hlt e
              obtain ⟨n, hr, hn, hlim'⟩ := ih hat'' hb hrest (by omega) hrun
              obtain ⟨δ, hcomp⟩ := (Frame.compute_ok_iff (hat.func_eq ▸ hp)).mp ⟨m', hc, rfl⟩
              rw [hat'.value_eq, hat'.func_eq] at hcomp
              exact ⟨n + 1, .step hp hcomp hr, by omega, hlim'⟩
        · have ht' : (({ fr with rest := is } : Frame).func.op i).isTerminator = true :=
            hat.func_eq ▸ ht
          have hterm := hf.terminator_eq b hb i (hsub i List.mem_cons_self) ht
          rcases Machine.execute_terminator (p := p) (m := m) ht' with
            ⟨c, hl, heq⟩ | ⟨e, hl, heq⟩ | ⟨_, e, heq⟩
          · rw [heq] at hrun
            rw [hat'.value_eq, hat'.func_eq] at hl
            have hc : used c :=
              hf.successor_used b hb c ((Func.mem_successors_iff hterm).mpr hl.mem_targets)
            have hphis : ∀ j ∈ f.phis c, j < f.insts.size := fun j hj =>
              hf.inst_lt c hc j (Func.mem_body_of_phis hj)
            simp only [Machine.goto] at hrun
            cases he : ({ fr with rest := is } : Frame).enter p.types limit (some fr.block) c
                (steps + 1) with
            | mk r k =>
              simp only [he] at hrun
              cases r with
              | error e =>
                rw [← hrun] at hd
                cases hd
              | ok fr' =>
                obtain ⟨rfl, hk, hready, hat''⟩ := hat'.of_enter hphis (by omega) he
                rw [hat.block_eq] at hready hat''
                obtain ⟨n, hr, hn, hlim'⟩ :=
                  ih hat'' hc (fun j hj => Func.mem_body_of_afterPhis hj) hk hrun
                exact ⟨_, .goto hl hready hr, by omega, hlim'⟩
          · rw [heq] at hrun
            rw [hat'.value_eq, hat'.func_eq] at hl
            subst hrun
            cases hd
            exact ⟨1, .ret hl, rfl, by simp only; omega⟩
          · rw [heq] at hrun
            rw [← hrun] at hd
            cases hd

/-- A run is what the machine does, if the limit allows it. -/
theorem Runs.run {used : BlockId → Prop} (hf : f.Orderly used) {limit : Nat} {b : BlockId} {is : List InstId} {s : Snapshot}
    {d : Datum} {rs : Array Region} {n : Nat} (h : Runs p.types f args b is s d rs n) :
    ∀ (steps fuel : Nat) {fr : Frame} {m : Memory}, fr.At f args b is s.values →
    m.regions = s.regions → used b → (∀ i ∈ is, i ∈ f.body b) → steps + n ≤ limit →
    n ≤ fuel → ∃ m', Machine.run p limit fuel ⟨fr, [], m, steps⟩ = ⟨.ok d, m', steps + n⟩ ∧
      m'.regions = rs := by
  induction h with
  | @step b i is s δ e d rs rs' n hp hc hr ih =>
    intro steps fuel fr m hat hm hb hsub hle hfuel
    obtain ⟨fuel, rfl⟩ : ∃ k, fuel = k + 1 := ⟨fuel - 1, by omega⟩
    have hlt := hf.inst_lt b hb i (hsub i List.mem_cons_self)
    have hat' : ({ fr with rest := is } : Frame).At f args b is s.values :=
      ⟨hat.func_eq, hat.args_eq, hat.size_eq, hat.block_eq, rfl, hat.values_eq⟩
    have hp' : (({ fr with rest := is } : Frame).func.op i).isPlain = true := hat.func_eq ▸ hp
    obtain ⟨m', hcomp, hrs⟩ := (Frame.compute_ok_iff hp').mpr
      ⟨δ, by rw [hat'.value_eq, hat'.func_eq, hm]; exact hc⟩
    obtain ⟨m'', hrun, hrs'⟩ := ih (steps + 1) fuel (hat'.record hlt e) hrs hb
      (fun j hj => hsub j (List.mem_cons_of_mem _ hj)) (by omega) (by omega)
    refine ⟨m'', ?_, hrs'⟩
    simp only [Machine.run, Machine.step, hat.rest_eq]
    rw [if_neg (by omega), Machine.execute_plain hp', hcomp]
    rw [show steps + (n + 1) = steps + 1 + n by omega]
    exact hrun
  | @ret b i is s d hl =>
    intro steps fuel fr m hat hm hb hsub hle hfuel
    obtain ⟨fuel, rfl⟩ : ∃ k, fuel = k + 1 := ⟨fuel - 1, by omega⟩
    have hat' : ({ fr with rest := is } : Frame).At f args b is s.values :=
      ⟨hat.func_eq, hat.args_eq, hat.size_eq, hat.block_eq, rfl, hat.values_eq⟩
    have hl' : Leaves (({ fr with rest := is } : Frame).value p.types)
        (({ fr with rest := is } : Frame).func.op i) (.ret d) := by
      rw [hat'.value_eq, hat'.func_eq]
      exact hl
    refine ⟨m, ?_, hm⟩
    simp only [Machine.run, Machine.step, hat.rest_eq]
    rw [if_neg (by omega)]
    rcases Machine.execute_terminator (p := p) (m := m) hl'.isTerminator with
      ⟨c, hl'', _⟩ | ⟨e, hl'', heq⟩ | ⟨hno, _⟩
    · cases hl'.functional hl''
    · cases hl'.functional hl''
      rw [heq]
    · exact absurd hl' (hno _)
  | @goto b c i is s d rs n hl hready hr ih =>
    intro steps fuel fr m hat hm hb hsub hle hfuel
    obtain rfl := hat.block_eq
    obtain ⟨fuel, rfl⟩ : ∃ k, fuel = k + 1 := ⟨fuel - 1, by omega⟩
    have hat' : ({ fr with rest := is } : Frame).At f args fr.block is s.values :=
      ⟨hat.func_eq, hat.args_eq, hat.size_eq, rfl, rfl, hat.values_eq⟩
    have hl' : Leaves (({ fr with rest := is } : Frame).value p.types)
        (({ fr with rest := is } : Frame).func.op i) (.goto c) := by
      rw [hat'.value_eq, hat'.func_eq]
      exact hl
    have hterm := hf.terminator_eq _ hb i (hsub i List.mem_cons_self) hl.isTerminator
    have hc : used c :=
      hf.successor_used _ hb c ((Func.mem_successors_iff hterm).mpr hl.mem_targets)
    have hphis : ∀ j ∈ f.phis c, j < f.insts.size := fun j hj =>
      hf.inst_lt c hc j (Func.mem_body_of_phis hj)
    have hphi : steps + 1 + (f.phis c).length ≤ limit := by omega
    obtain ⟨fr', henter, hat''⟩ := hat'.enter (steps + 1) hphis hphi hready
    obtain ⟨m', hrun, hrs⟩ := ih (steps + 1 + (f.phis c).length) fuel hat'' hm hc
      (fun j hj => Func.mem_body_of_afterPhis hj) (by omega) (by omega)
    refine ⟨m', ?_, hrs⟩
    simp only [Machine.run, Machine.step, hat.rest_eq]
    rw [if_neg (by omega)]
    rcases Machine.execute_terminator (p := p) (m := m) hl'.isTerminator with
      ⟨c', hl'', heq⟩ | ⟨e, hl'', _⟩ | ⟨hno, _⟩
    · cases hl'.functional hl''
      rw [heq, Machine.goto, henter]
      rw [show steps + (n + (f.phis c).length + 1) = steps + 1 + (f.phis c).length + n by omega]
      exact hrun
    · cases hl'.functional hl''
    · exact absurd hl' (hno _)

/-- The runs that succeed are the chains of visits that keep to the limit. -/
theorem Program.run_ok_iff {used : BlockId → Prop} (hf : f.Orderly used) {m : Memory} {limit n : Nat} {d : Datum}
    {rs : Array Region} :
    (∃ m', p.run f args m limit = ⟨.ok d, m', n⟩ ∧ m'.regions = rs) ↔
      ∃ e, f.entry? = some e ∧ f.params.size = args.length ∧ n ≤ limit ∧
        Executes p.types f args none e ⟨fun _ => none, m.regions⟩ d rs n := by
  have hat : (Frame.activate f args).At f args 0 [] fun _ => none :=
    ⟨rfl, rfl, by simp [Frame.activate], rfl, rfl, by
      funext i
      simp only [Frame.values, Frame.activate, Array.getElem?_replicate]
      split <;> rfl⟩
  unfold Program.run Machine.invoke
  cases he : f.entry? with
  | none => simp
  | some e =>
    have hlive := hf.entry_used e he
    have hphis : ∀ j ∈ f.phis e, j < f.insts.size := fun j hj =>
      hf.inst_lt e hlive j (Func.mem_body_of_phis hj)
    simp only
    by_cases hargs : f.params.size = args.length
    · rw [if_neg (by simpa using hargs), Machine.goto]
      constructor
      · rintro ⟨m', hrun, rfl⟩
        cases henter : (Frame.activate f args).enter p.types limit none e 0 with
        | mk r k =>
          simp only [henter] at hrun
          cases r with
          | error err => cases congrArg Halt.result hrun
          | ok fr =>
            obtain ⟨rfl, hk, hready, hat'⟩ := hat.of_enter hphis (Nat.zero_le _) henter
            obtain ⟨k, hr, hn, hle⟩ := Machine.runs_of_run hf rfl _ hat' hlive
              (fun j hj => Func.mem_body_of_afterPhis hj) hk hrun
            simp only [Nat.zero_add] at hn hle
            exact ⟨e, rfl, hargs, hle, hn ▸ hr.executes hf k hlive hready⟩
      · rintro ⟨e', he', _, hle, hex⟩
        cases he'
        obtain ⟨hready, k, rfl, hr⟩ := hex.runs hf hlive
        have hphi : 0 + (f.phis e).length ≤ limit := by omega
        obtain ⟨fr, henter, hat'⟩ := hat.enter 0 hphis hphi hready
        rw [henter, Nat.zero_add]
        have hle' : 0 + (f.phis e).length + k ≤ limit := by omega
        obtain ⟨m', hrun, hrs⟩ := hr.run hf (0 + (f.phis e).length) (limit + 1) hat' rfl hlive
          (fun j hj => Func.mem_body_of_afterPhis hj) hle' (by omega)
        rw [Nat.zero_add] at hrun
        exact ⟨m', hrun, hrs⟩
    · rw [if_pos hargs]
      simp [hargs]

end

end LoopNest
