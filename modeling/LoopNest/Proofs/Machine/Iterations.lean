import LoopNest.Proofs.Machine.Lanes
import LoopNest.Proofs.Machine.Points
import LoopNest.Proofs.Ty.Extends

/-!
# Loops of a run

`Takes` has one rule for each way that an instruction can go on: it computes a result, loads,
stores, or enters a block.  The rules are read from the front, so a proof about a block lists its
instructions in order.

A *counter* is a loop that counts a 64-bit value up in steps of any size, as the header and the
latch of the function do it (`Counter.In`).  `Counter.In.takes` follows it through all of its
iterations, with what every iteration of the body keeps and how many accesses it makes.
-/

namespace LoopNest

/-! ## Instructions -/

namespace Takes

variable {tt : TypeTable} {f : Func} {args : List Datum} {b c : BlockId} {i : InstId}
  {is : List InstId} {ρ : Values} {rs : Array Region} {d : Datum} {q : Pointer} {l k l' k' : Nat}
  {P Q R : Point}

theorem trans (h : Takes tt f args P l k Q) (h' : Takes tt f args Q l' k' R) :
    Takes tt f args P (l + l') (k + k') R := by
  induction h with
  | refl => simpa using h'
  | step hrest hm _ ih =>
    rw [Nat.add_assoc, Nat.add_assoc]
    exact .step hrest hm (ih h')

theorem pure (hi : i < f.insts.size)
    (hd : pureResult tt (f.value tt args ρ) f.tyOf (f.inst i).ty (f.op i) = some d)
    (h : Takes tt f args ⟨b, is, ρ.set i d, rs⟩ l k Q) :
    Takes tt f args ⟨b, i :: is, ρ, rs⟩ l k Q := by
  have hcount : (f.op i).loads = 0 ∧ (f.op i).stores = 0 := by
    cases hop : f.op i with
    | load p => simp [hop, pureResult] at hd
    | store v p => simp [hop, pureResult] at hd
    | _ => exact ⟨rfl, rfl⟩
  have := Takes.step rfl (.plain hi (.pure hd)) h
  rwa [hcount.1, hcount.2, Nat.zero_add, Nat.zero_add] at this

theorem load {p : Operand} (hi : i < f.insts.size) (hop : f.op i = .load p)
    (hp : f.value tt args ρ p = some (.ptr q))
    (hd : (Memory.ofRegions rs).load tt q (f.inst i).ty = .ok d)
    (h : Takes tt f args ⟨b, is, ρ.set i d, rs⟩ l k Q) :
    Takes tt f args ⟨b, i :: is, ρ, rs⟩ (1 + l) k Q := by
  have hc : Computes tt (f.value tt args ρ) f.tyOf (f.inst i).ty (f.op i) rs d [] rs :=
    hop ▸ .load hp hd
  have := Takes.step rfl (.plain hi hc) h
  rwa [hop, show (Op.load p).loads = 1 from rfl, show (Op.load p).stores = 0 from rfl,
    Nat.zero_add] at this

theorem store {v p : Operand} {cs : List Chunk} (hi : i < f.insts.size)
    (hop : f.op i = .store v p) (hp : f.value tt args ρ p = some (.ptr q))
    (hv : f.value tt args ρ v = some d) (hcs : storeChunks tt (f.tyOf v) d q = some cs)
    (hfits : ∀ c ∈ cs, c.Fits rs)
    (h : Takes tt f args ⟨b, is, ρ.set i .void, writeChunks rs cs⟩ l k Q) :
    Takes tt f args ⟨b, i :: is, ρ, rs⟩ l (1 + k) Q := by
  have hc : Computes tt (f.value tt args ρ) f.tyOf (f.inst i).ty (f.op i) rs .void cs
      (writeChunks rs cs) := hop ▸ .store hp hv hcs hfits
  have := Takes.step rfl (.plain hi hc) h
  rwa [hop, show (Op.store v p).loads = 0 from rfl, show (Op.store v p).stores = 1 from rfl,
    Nat.zero_add] at this

/-- The address of an element. -/
theorem gep {v x : Operand} {p : Pointer} {n : Nat} {u : TyId} (hi : i < f.insts.size)
    (hop : f.op i = .gep v x) (hv : f.value tt args ρ v = some (.ptr p))
    (hx : f.value tt args ρ x = some (.int (.ofNat n)))
    (hty : tt.shape (f.inst i).ty = .pointer u ∧ tt.shape u = .scalar .f32)
    (h : Takes tt f args ⟨b, is, ρ.set i (.ptr (p.element n)), rs⟩ l k Q) :
    Takes tt f args ⟨b, i :: is, ρ, rs⟩ l k Q := by
  have hpointee : tt.pointee? (f.inst i).ty = some u := TypeTable.pointee_eq_some.mpr hty.1
  have hsize : tt.paddedSize u = 4 := TypeTable.paddedSize_of_scalar hty.2
  refine .pure hi ?_ h
  simp only [hop, pureResult, hv, hx, hpointee, hsize, Pointer.element, Int.mul_comm 4,
    Int64.ofInt_mul]
  rfl

/-- A load of a number. -/
theorem loadCell {p : Operand} (hi : i < f.insts.size) (hop : f.op i = .load p)
    (hp : f.value tt args ρ p = some (.ptr q)) (hty : tt.shape (f.inst i).ty = .scalar .f32)
    (hin : InBounds rs q 4) (h : Takes tt f args ⟨b, is, ρ.set i (.f32 (cellAt rs q)), rs⟩ l k Q) :
    Takes tt f args ⟨b, i :: is, ρ, rs⟩ (1 + l) k Q := by
  refine .load hi hop hp ?_ h
  rw [Memory.load, hty]
  exact loadScalar_cell hin

/-- A store of a number. -/
theorem storeCell {v p : Operand} {x : F32} (hi : i < f.insts.size) (hop : f.op i = .store v p)
    (hp : f.value tt args ρ p = some (.ptr q)) (hv : f.value tt args ρ v = some (.f32 x))
    (hin : InBounds rs q 4)
    (h : Takes tt f args ⟨b, is, ρ.set i .void, storeCell rs q x⟩ l k Q) :
    Takes tt f args ⟨b, i :: is, ρ, rs⟩ l (1 + k) Q := by
  refine .store hi hop hp hv rfl (fun c hc => ?_) h
  rw [List.mem_singleton.mp hc]
  exact fits_cellChunk hin x

/-- A branch to a block. -/
theorem jump (hl : Leaves (f.value tt args ρ) (f.op i) (.goto c))
    (hlt : ∀ j ∈ f.phis c, j < f.insts.size)
    (hready : ∀ j ∈ f.phis c, (phiValue tt f args (some b) ρ j).isSome)
    (h : Takes tt f args ⟨c, f.afterPhis c, entered tt f args (some b) c ρ, rs⟩ l k Q) :
    Takes tt f args ⟨b, i :: is, ρ, rs⟩ l k Q := by
  have hm : Moves tt f args ⟨b, i :: is, ρ, rs⟩ _ := .jump hl hlt hready
  have := Takes.step rfl hm h
  rwa [hl.no_access.1, hl.no_access.2, Nat.zero_add, Nat.zero_add] at this

/-- A branch to a block without phis. -/
theorem goto (hl : Leaves (f.value tt args ρ) (f.op i) (.goto c)) (hphis : f.phis c = [])
    (h : Takes tt f args ⟨c, f.body c, ρ, rs⟩ l k Q) :
    Takes tt f args ⟨b, i :: is, ρ, rs⟩ l k Q := by
  refine jump hl (by simp [hphis]) (by simp [hphis]) ?_
  rw [← f.phis_append_afterPhis c, hphis] at h
  rw [entered_of_nil hphis]
  exact h

/-- A branch to a block with one phi. -/
theorem gotoPhi {φ : InstId} {v : Operand} (hl : Leaves (f.value tt args ρ) (f.op i) (.goto c))
    (hphis : f.phis c = [φ]) (hlt : φ < f.insts.size) (hin : f.incoming? φ b = some v)
    (hd : f.value tt args ρ v = some d)
    (h : Takes tt f args ⟨c, f.afterPhis c, ρ.set φ d, rs⟩ l k Q) :
    Takes tt f args ⟨b, i :: is, ρ, rs⟩ l k Q := by
  have hvalue : phiValue tt f args (some b) ρ φ = some d := by
    simp [phiValue, hin, hd]
  refine jump hl (by simpa [hphis] using hlt) (by simp [hphis, hvalue]) ?_
  rw [entered_of_single hphis hvalue]
  exact h

end Takes

/-! ## Counters -/

/-- The parts of a loop that counts. -/
structure Counter where
  /-- The block with the phi and the test. -/
  header : BlockId
  /-- The first block of the body. -/
  body : BlockId
  /-- The block that counts up. -/
  latch : BlockId
  /-- The block after the loop. -/
  exit : BlockId
  /-- The phi. -/
  iv : InstId
  /-- The test. -/
  test : InstId
  /-- The branch on the test. -/
  fork : InstId
  /-- The sum in the latch. -/
  next : InstId
  /-- The branch back to the header. -/
  back : InstId
  /-- What the counted value stays below. -/
  bound : Operand
  /-- What is added. -/
  step : Operand

namespace Counter

/-- The loop is part of a function. -/
structure In (c : Counter) (tt : TypeTable) (f : Func) : Prop where
  phis_header : f.phis c.header = [c.iv]
  code_header : f.afterPhis c.header = [c.test, c.fork]
  phis_body : f.phis c.body = []
  phis_latch : f.phis c.latch = []
  code_latch : f.body c.latch = [c.next, c.back]
  phis_exit : f.phis c.exit = []
  op_test : f.op c.test = .icmp .ult (.inst c.iv) c.bound
  op_fork : f.op c.fork = .condBr (.inst c.test) c.body c.exit
  op_next : f.op c.next = .binary .add (.inst c.iv) c.step
  op_back : f.op c.back = .br c.header
  incoming_latch : f.incoming? c.iv c.latch = some (.inst c.next)
  scalar_iv : tt.elementScalar? (f.tyOf (.inst c.iv)) = some .i64
  scalar_next : tt.elementScalar? (f.inst c.next).ty = some .i64
  iv_lt : c.iv < f.insts.size
  test_lt : c.test < f.insts.size
  next_lt : c.next < f.insts.size
  iv_ne_test : c.iv ≠ c.test

namespace In

variable {c : Counter} {tt : TypeTable} {f : Func} {args : List Datum} {w n k l s : Nat}
  {ρ : Values} {rs : Array Region} {Q : Point}

/-- The header enters the body while the counted value is below the bound. -/
theorem takes_header (h : c.In tt f) (hn : n < 2 ^ 63) (hk : k ≤ n)
    (hbound : ∀ ρ, f.value tt args ρ c.bound = some (.int (.ofNat n)))
    (hiv : ρ c.iv = some (.int (.ofNat k)))
    (hQ : Takes tt f args ⟨if k < n then c.body else c.exit,
      f.body (if k < n then c.body else c.exit), ρ.set c.test (.bool (k < n)), rs⟩ l s Q) :
    Takes tt f args ⟨c.header, f.afterPhis c.header, ρ, rs⟩ l s Q := by
  have hlow : ∀ {x : Nat}, x ≤ n → Scalar.i64.lowBits (Int64.ofNat x) = x := fun {x} hx => by
    rw [Scalar.lowBits_of_width rfl rfl, toNat_ofNat]
    exact Nat.mod_eq_of_lt (by omega)
  have htest : pureResult tt (f.value tt args ρ) f.tyOf (f.inst c.test).ty (f.op c.test) =
      some (.bool (k < n)) := by
    have hv : f.value tt args ρ (.inst c.iv) = some (.int (.ofNat k)) := hiv
    simp only [h.op_test, pureResult, h.scalar_iv, hv, hbound]
    show some (Datum.bool (Scalar.i64.lowBits (.ofNat k) < Scalar.i64.lowBits (.ofNat n))) = _
    rw [hlow hk, hlow (Nat.le_refl n)]
  have hfork : Leaves (f.value tt args (ρ.set c.test (.bool (k < n)))) (f.op c.fork)
      (.goto (if k < n then c.body else c.exit)) := by
    have hv : f.value tt args (ρ.set c.test (.bool (k < n))) (.inst c.test) =
        some (.bool (k < n)) := Values.set_self ..
    rw [h.op_fork]
    simpa using Leaves.condBr (t := c.body) (e := c.exit) hv
  rw [h.code_header]
  refine .pure h.test_lt htest (.goto hfork ?_ hQ)
  split
  · exact h.phis_body
  · exact h.phis_exit

/-- The latch adds to the counted value and leads back to the header. -/
theorem takes_latch (h : c.In tt f) (hstep : ∀ ρ, f.value tt args ρ c.step = some (.int (.ofNat w)))
    (hiv : ρ c.iv = some (.int (.ofNat k)))
    (hQ : Takes tt f args ⟨c.header, f.afterPhis c.header,
      (ρ.set c.next (.int (.ofNat (k + w)))).set c.iv (.int (.ofNat (k + w))), rs⟩ l s Q) :
    Takes tt f args ⟨c.latch, f.body c.latch, ρ, rs⟩ l s Q := by
  have hnext : pureResult tt (f.value tt args ρ) f.tyOf (f.inst c.next).ty (f.op c.next) =
      some (.int (.ofNat (k + w))) := by
    have hv : f.value tt args ρ (.inst c.iv) = some (.int (.ofNat k)) := hiv
    simp only [h.op_next, pureResult, h.scalar_next, hv, hstep]
    rw [Int64.ofNat_add, ← Scalar.normalize_of_width (s := .i64) rfl rfl (.ofNat k + .ofNat w)]
    rfl
  rw [h.code_latch]
  exact .pure h.next_lt hnext (.gotoPhi (by rw [h.op_back]; exact .br) h.phis_header h.iv_lt
    h.incoming_latch (Values.set_self ..) hQ)

/-- All iterations of a counter.  What the body keeps of the values must not be about what the
loop itself computes; what it does to the regions is told by the counted value. -/
theorem takes (h : c.In tt f) (hw : 0 < w) (hn : n < 2 ^ 63)
    (hbound : ∀ ρ, f.value tt args ρ c.bound = some (.int (.ofNat n)))
    (hstep : ∀ ρ, f.value tt args ρ c.step = some (.int (.ofNat w))) {J : Values → Prop}
    {R : Nat → Array Region → Prop}
    (hJ : ∀ i ∈ [c.iv, c.test, c.next], ∀ ρ d, J ρ → J (ρ.set i d))
    (hbody : ∀ k ρ rs, k + w ≤ n → ρ c.iv = some (.int (.ofNat k)) → J ρ → R k rs →
      ∃ ρ' rs', Takes tt f args ⟨c.body, f.body c.body, ρ, rs⟩ l s
        ⟨c.latch, f.body c.latch, ρ', rs'⟩ ∧ ρ' c.iv = ρ c.iv ∧ J ρ' ∧ R (k + w) rs') :
    ∀ (t k : Nat) (ρ : Values) (rs : Array Region), k + t * w = n →
      ρ c.iv = some (.int (.ofNat k)) → J ρ → R k rs →
      ∃ ρ' rs', Takes tt f args ⟨c.header, f.afterPhis c.header, ρ, rs⟩ (t * l) (t * s)
        ⟨c.exit, f.body c.exit, ρ', rs'⟩ ∧ J ρ' ∧ R n rs' := by
  intro t
  induction t with
  | zero =>
    intro k ρ rs hk hiv hρ hrs
    obtain rfl : k = n := by omega
    refine ⟨ρ.set c.test (.bool (k < k)), rs, h.takes_header hn (Nat.le_refl k) hbound hiv ?_,
      hJ c.test (by simp) ρ _ hρ, hrs⟩
    rw [if_neg (Nat.lt_irrefl k), Nat.zero_mul, Nat.zero_mul]
    exact .refl
  | succ t ih =>
    intro k ρ rs hk hiv hρ hrs
    rw [Nat.succ_mul] at hk
    have hroom : k + w ≤ n := by omega
    have hlt : k < n := by omega
    have hiv' : ρ.set c.test (.bool (k < n)) c.iv = some (.int (.ofNat k)) := by
      rw [Values.set_of_ne h.iv_ne_test, hiv]
    obtain ⟨ρ₁, rs₁, hrun, hiv₁, hρ₁, hrs₁⟩ :=
      hbody k _ rs hroom hiv' (hJ c.test (by simp) ρ _ hρ) hrs
    have hρ₂ := hJ c.iv (by simp) _ (.int (.ofNat (k + w)))
      (hJ c.next (by simp) ρ₁ (.int (.ofNat (k + w))) hρ₁)
    obtain ⟨ρ', rs', hrest, hρ', hrs'⟩ :=
      ih (k + w) _ rs₁ (by omega) (Values.set_self ..) hρ₂ hrs₁
    refine ⟨ρ', rs', h.takes_header hn (Nat.le_of_lt hlt) hbound hiv ?_, hρ', hrs'⟩
    rw [if_pos hlt, Nat.succ_mul, Nat.succ_mul, Nat.add_comm, Nat.add_comm (t * s)]
    exact hrun.trans (h.takes_latch hstep (hiv₁.trans hiv') hrest)

end In

end Counter

end LoopNest
