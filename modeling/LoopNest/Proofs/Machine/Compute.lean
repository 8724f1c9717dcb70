import LoopNest.Machine.Step
import LoopNest.Proofs.Machine.Bytes

/-!
# What an instruction computes

The machine passes frames and memories with counters around.  The result of an instruction
depends on less: on the values of its operands, on the types of its operands, and on the
regions of the memory.  `Computes` says what an instruction that succeeds does in these
terms, in four cases: it computes something without touching memory (`pureResult`), makes a
region, loads, or stores some chunks.

`Frame.compute_ok_iff` says that this is what the machine does.
-/

namespace LoopNest

/-! ## Values of operands -/

/-- The latest result of each instruction. -/
abbrev Values := InstId → Option Datum

/-- The values with a new result of one instruction. -/
def Values.set (ρ : Values) (i : InstId) (d : Datum) : Values := fun j =>
  if j = i then some d else ρ j

@[simp] theorem Values.set_self (ρ : Values) (i : InstId) (d : Datum) :
    ρ.set i d i = some d := if_pos rfl

@[simp] theorem Values.set_of_ne {ρ : Values} {i j : InstId} {d : Datum} (h : j ≠ i) :
    ρ.set i d j = ρ j := if_neg h

/-- The value of a constant. -/
def Func.constantValue (f : Func) (tt : TypeTable) (c : ConstId) : Option Datum :=
  match f.constants[c]? with
  | none => none
  | some ⟨_, .bool b⟩ => some (.bool b)
  | some ⟨_, .f32 x⟩ => some (.f32 x)
  | some ⟨ty, .int v⟩ => (tt.elementScalar? ty).map fun s => .int (s.normalize v)

/-- The value of an operand. -/
def Func.value (f : Func) (tt : TypeTable) (args : List Datum) (ρ : Values) :
    Operand → Option Datum
  | .inst i => ρ i
  | .param k => args[k]?
  | .const c => f.constantValue tt c

/-- The results of a frame as a map. -/
def Frame.values (fr : Frame) : Values := fun i => fr.results[i]?.join

/-- The value of an operand in a frame. -/
def Frame.value (tt : TypeTable) (fr : Frame) : Operand → Option Datum :=
  fr.func.value tt fr.args fr.values

theorem Frame.eval_eq_ok {tt : TypeTable} {fr : Frame} {v : Operand} {d : Datum} :
    fr.eval tt v = .ok d ↔ fr.value tt v = some d := by
  cases v with
  | inst i =>
    simp only [Frame.eval, Frame.value, Func.value, Frame.values]
    cases h : fr.results[i]? with
    | none => simp
    | some o => cases o <;> simp
  | param k =>
    simp only [Frame.eval, Frame.value, Func.value]
    cases h : fr.args[k]? <;> simp
  | const c =>
    simp only [Frame.eval, Frame.value, Func.value, Func.constantValue]
    cases h : fr.func.constants[c]? with
    | none => simp
    | some k =>
      obtain ⟨ty, l⟩ := k
      cases l with
      | bool b => simp
      | f32 x => simp
      | int n => cases hs : tt.elementScalar? ty <;> simp [hs]

theorem Frame.values_record {fr : Frame} {i : InstId} (hi : i < fr.results.size) (d : Datum) :
    (fr.record i d).values = fr.values.set i d := by
  funext j
  unfold Frame.values Frame.record Values.set
  by_cases h : j = i
  · subst h
    simp [hi]
  · simp [h, Array.getElem?_setIfInBounds_ne (Ne.symm h)]

/-! ## The relation -/

/-- The memory with some regions and no accesses counted. -/
def Memory.ofRegions (rs : Array Region) : Memory := ⟨rs, 0, 0⟩

theorem Memory.load_ofRegions (m : Memory) (tt : TypeTable) (p : Pointer) (t : TyId) :
    (Memory.ofRegions m.regions).load tt p t = m.load tt p t := by
  have h : (Memory.ofRegions m.regions).regions = m.regions := rfl
  exact Memory.load_congr h tt p t

section

variable (tt : TypeTable) (value : Operand → Option Datum) (tyOf : Operand → TyId)

/-- The result of an instruction that neither touches memory nor directs control. -/
def pureResult (ty : TyId) : Op → Option Datum
  | .gep b i =>
    match value b, value i, tt.pointee? ty with
    | some (.ptr p), some (.int n), some t =>
      some (.ptr (p.advance (n * Int64.ofNat (tt.paddedSize t))))
    | _, _, _ => none
  | .binary op l r =>
    match tt.elementScalar? ty, value l, value r with
    | some s, some a, some b => (lanewise (op.apply s) a b).toOption
    | _, _, _ => none
  | .icmp pred l r =>
    match tt.elementScalar? (tyOf l), value l, value r with
    | some s, some a, some b => (lanewise (pred.apply s) a b).toOption
    | _, _, _ => none
  | .fcmp pred l r =>
    match value l, value r with
    | some a, some b => (lanewise pred.apply a b).toOption
    | _, _ => none
  | .select c t e =>
    match value c, value t, value e with
    | some c, some t, some e => (c.choose t e).toOption
    | _, _, _ => none
  | .bitcast v => value v
  | .splat v => (value v).map fun d => .vector (List.replicate ((tt.lanes? ty).getD 1) d)
  | _ => none

/-- What an instruction that succeeds does to the regions, with its result and the chunks that
it writes. -/
inductive Computes (ty : TyId) : Op → Array Region → Datum → List Chunk → Array Region → Prop where
  /-- It computes without memory. -/
  | pure {op : Op} {rs : Array Region} {d : Datum} :
      pureResult tt value tyOf ty op = some d → Computes ty op rs d [] rs
  /-- It makes a region of zeros. -/
  | alloca {t : TyId} {align : Nat} {rs : Array Region} :
      Computes ty (.alloca t align) rs (.ptr ⟨rs.size, 0⟩) []
        (rs.push (Array.replicate (tt.paddedSize t) 0))
  /-- It reads. -/
  | load {p : Operand} {q : Pointer} {rs : Array Region} {d : Datum} :
      value p = some (.ptr q) → (Memory.ofRegions rs).load tt q ty = .ok d →
      Computes ty (.load p) rs d [] rs
  /-- It writes. -/
  | store {v p : Operand} {q : Pointer} {d : Datum} {rs : Array Region} {cs : List Chunk} :
      value p = some (.ptr q) → value v = some d → storeChunks tt (tyOf v) d q = some cs →
      (∀ c ∈ cs, c.Fits rs) → Computes ty (.store v p) rs .void cs (writeChunks rs cs)

end

/-- Neither a branch nor a return nor a call. -/
def Op.isPlain : Op → Bool
  | .call _ _ | .br _ | .condBr _ _ _ | .ret _ => false
  | _ => true

theorem Datum.asPtr_eq_ok {d : Datum} {p : Pointer} : d.asPtr = .ok p ↔ d = .ptr p := by
  cases d <;> simp [Datum.asPtr]

theorem Datum.asInt_eq_ok {d : Datum} {n : Int64} : d.asInt = .ok n ↔ d = .int n := by
  cases d <;> simp [Datum.asInt]

theorem Datum.asBool_eq_ok {d : Datum} {b : Bool} : d.asBool = .ok b ↔ d = .bool b := by
  cases d <;> simp [Datum.asBool]

theorem toOption_eq_some {ε α : Type} {x : Except ε α} {a : α} :
    x.toOption = some a ↔ x = .ok a := by
  cases x <;> simp [Except.toOption]

theorem Frame.scalarOf_eq_ok {tt : TypeTable} {t : TyId} {s : Scalar} :
    Frame.scalarOf tt t = .ok s ↔ tt.elementScalar? t = some s := by
  unfold Frame.scalarOf
  cases tt.elementScalar? t <;> simp

theorem Access.pure_eq_ok {α : Type} {a b : α} {m m' : Memory} :
    (pure a : Access α) m = (.ok b, m') ↔ a = b ∧ m' = m := by
  constructor
  · intro h
    exact ⟨Except.ok.inj (Prod.mk.inj h).1, (Prod.mk.inj h).2.symm⟩
  · rintro ⟨rfl, rfl⟩
    rfl

/-! ## The machine computes by the relation -/

section

variable {tt : TypeTable} {fr : Frame} {x : Inst} {m : Memory} {d : Datum} {rs : Array Region}

/-- An instruction without effect on memory. -/
theorem Frame.compute_pure_iff
    (hop : ∀ m' : Memory, fr.compute tt x m = (.ok d, m') ↔
      pureResult tt (fr.value tt) fr.func.tyOf x.ty x.op = some d ∧ m' = m)
    (hl : ∀ p, x.op ≠ .load p) (hs : ∀ v p, x.op ≠ .store v p) (ha : ∀ t a, x.op ≠ .alloca t a) :
    (∃ m', fr.compute tt x m = (.ok d, m') ∧ m'.regions = rs) ↔
      ∃ δ, Computes tt (fr.value tt) fr.func.tyOf x.ty x.op m.regions d δ rs := by
  constructor
  · rintro ⟨m', h, rfl⟩
    obtain ⟨hp, rfl⟩ := (hop m').mp h
    exact ⟨[], .pure hp⟩
  · rintro ⟨δ, h⟩
    generalize hx : x.op = op at h
    generalize hm : m.regions = ms at h
    cases h with
    | pure hp => exact ⟨m, (hop m).mpr ⟨hx ▸ hp, rfl⟩, hm⟩
    | alloca => exact absurd hx (ha _ _)
    | load _ _ => exact absurd hx (hl _)
    | store _ _ _ _ => exact absurd hx (hs _ _)

theorem Frame.compute_load_iff {p : Operand} (hx : x.op = .load p) :
    (∃ m', fr.compute tt x m = (.ok d, m') ∧ m'.regions = rs) ↔
      ∃ δ, Computes tt (fr.value tt) fr.func.tyOf x.ty x.op m.regions d δ rs := by
  simp only [Frame.compute, hx, Access.bind_eq_ok, Access.ofExcept_eq_ok, Frame.eval_eq_ok,
    Datum.asPtr_eq_ok]
  constructor
  · rintro ⟨m', ⟨_, _, ⟨hv, rfl⟩, q, _, ⟨rfl, rfl⟩, _, _, hcount, hld⟩, rfl⟩
    cases hcount
    obtain ⟨hd, rfl⟩ := Prod.mk.inj hld
    rw [← Memory.load_ofRegions] at hd
    exact ⟨[], .load hv hd⟩
  · rintro ⟨δ, h⟩
    generalize hm : m.regions = ms at h
    cases h with
    | pure hp => cases hp
    | load hv hld =>
      subst hm
      refine ⟨_, ⟨_, _, ⟨hv, rfl⟩, _, _, ⟨rfl, rfl⟩, (), _, rfl, Prod.ext ?_ rfl⟩, rfl⟩
      exact (Memory.load_ofRegions _ tt _ x.ty).symm.trans hld

theorem Frame.compute_alloca_iff {t : TyId} {a : Nat} (hx : x.op = .alloca t a) :
    (∃ m', fr.compute tt x m = (.ok d, m') ∧ m'.regions = rs) ↔
      ∃ δ, Computes tt (fr.value tt) fr.func.tyOf x.ty x.op m.regions d δ rs := by
  simp only [Frame.compute, hx, Access.bind_eq_ok, Access.pure_eq_ok]
  constructor
  · rintro ⟨m', ⟨_, _, halloc, rfl, rfl⟩, rfl⟩
    cases halloc
    exact ⟨[], .alloca⟩
  · rintro ⟨δ, h⟩
    cases h with
    | pure hp => cases hp
    | alloca => exact ⟨_, ⟨_, _, rfl, rfl, rfl⟩, rfl⟩

/-- Writes a datum, an integer in the width of its type. -/
def storeAccess (tt : TypeTable) (t : TyId) (d : Datum) (q : Pointer) : Access Datum :=
  match d with
  | .int n => do
    let s ← Access.ofExcept (Frame.scalarOf tt t)
    Memory.storeInt q n s
    return .void
  | d => do
    Memory.storeDatum q d
    return .void

theorem storeAccess_ok_iff {t : TyId} {e : Datum} {q : Pointer} :
    (∃ m', storeAccess tt t e q m = (.ok d, m') ∧ m'.regions = rs) ↔
      d = .void ∧ ∃ cs, storeChunks tt t e q = some cs ∧ (∀ c ∈ cs, c.Fits m.regions) ∧
        rs = writeChunks m.regions cs := by
  by_cases he : ∃ n, e = .int n
  · obtain ⟨n, rfl⟩ := he
    simp only [storeAccess, Access.bind_eq_ok, Access.ofExcept_eq_ok, Frame.scalarOf_eq_ok,
      Access.pure_eq_ok, storeChunks, Option.map_eq_some_iff]
    constructor
    · rintro ⟨m', ⟨s, _, ⟨hs, rfl⟩, _, _, hw, rfl, rfl⟩, hrs⟩
      obtain ⟨hf, hrs⟩ := Access.writeBytes_ok_iff.mp ⟨m', hw, hrs⟩
      exact ⟨rfl, _, ⟨s, hs, rfl⟩, hf, hrs⟩
    · rintro ⟨rfl, cs, ⟨s, hs, rfl⟩, hf, hrs⟩
      obtain ⟨m', hw, hrs⟩ := Access.writeBytes_ok_iff.mpr ⟨hf, hrs⟩
      exact ⟨m', ⟨s, m, ⟨hs, rfl⟩, (), m', hw, rfl, rfl⟩, hrs⟩
  · have hne : ∀ n, e ≠ .int n := fun n hn => he ⟨n, hn⟩
    have heq : storeAccess tt t e q = (do Memory.storeDatum q e; return .void) := by
      unfold storeAccess
      split
      · exact absurd rfl (hne _)
      · rfl
    simp only [heq, Access.bind_eq_ok, Access.pure_eq_ok]
    rw [← Memory.storeDatum_ok_iff hne]
    constructor
    · rintro ⟨m', ⟨_, _, hw, rfl, rfl⟩, hrs⟩
      exact ⟨rfl, m', hw, hrs⟩
    · rintro ⟨rfl, m', hw, hrs⟩
      exact ⟨m', ⟨(), m', hw, rfl, rfl⟩, hrs⟩

theorem Frame.compute_store_iff {v p : Operand} (hx : x.op = .store v p) :
    (∃ m', fr.compute tt x m = (.ok d, m') ∧ m'.regions = rs) ↔
      ∃ δ, Computes tt (fr.value tt) fr.func.tyOf x.ty x.op m.regions d δ rs := by
  simp only [Frame.compute, hx, Access.bind_eq_ok, Access.ofExcept_eq_ok, Frame.eval_eq_ok,
    Datum.asPtr_eq_ok]
  constructor
  · rintro ⟨m', ⟨_, _, ⟨hp, rfl⟩, q, _, ⟨rfl, rfl⟩, e, _, ⟨hv, rfl⟩, _, n, hcount, hst⟩, hrs⟩
    obtain ⟨rfl, cs, hcs, hf, rfl⟩ := storeAccess_ok_iff.mp ⟨m', hst, hrs⟩
    cases hcount
    exact ⟨cs, .store hp hv hcs hf⟩
  · rintro ⟨δ, h⟩
    generalize hm : m.regions = ms at h
    cases h with
    | pure hp => cases hp
    | store hp hv hcs hf =>
      subst hm
      obtain ⟨m', hst, hrs⟩ := (storeAccess_ok_iff (m := { m with stores := m.stores + 1 })).mpr
        ⟨rfl, _, hcs, hf, rfl⟩
      exact ⟨m', ⟨_, _, ⟨hp, rfl⟩, _, _, ⟨rfl, rfl⟩, _, _, ⟨hv, rfl⟩, (), _, rfl, hst⟩, hrs⟩

/-- An instruction that leaves memory alone. -/
theorem Frame.compute_eq_pureResult (hx : x.op.isPlain = true) (hl : ∀ p, x.op ≠ .load p)
    (hs : ∀ v p, x.op ≠ .store v p) (ha : ∀ t a, x.op ≠ .alloca t a) (m' : Memory) :
    fr.compute tt x m = (.ok d, m') ↔
      pureResult tt (fr.value tt) fr.func.tyOf x.ty x.op = some d ∧ m' = m := by
  cases hop : x.op with
  | alloca t a => exact absurd hop (ha t a)
  | load p => exact absurd hop (hl p)
  | store v p => exact absurd hop (hs v p)
  | call c as => simp [hop, Op.isPlain] at hx
  | br t => simp [hop, Op.isPlain] at hx
  | condBr c t e => simp [hop, Op.isPlain] at hx
  | ret v => simp [hop, Op.isPlain] at hx
  | gep b i =>
    simp only [Frame.compute, hop, Access.bind_eq_ok, Access.ofExcept_eq_ok, Frame.eval_eq_ok,
      Datum.asPtr_eq_ok, Datum.asInt_eq_ok, pureResult]
    cases tt.pointee? x.ty with
    | none =>
      constructor
      · rintro ⟨_, _, _, _, _, _, _, _, _, _, _, _, h⟩
        cases (Access.ofExcept_eq_ok.mp h).1
      · rintro ⟨h, _⟩
        split at h <;> simp_all
    | some t =>
      simp only [Access.pure_eq_ok]
      constructor
      · rintro ⟨_, _, ⟨hb, rfl⟩, p, _, ⟨rfl, rfl⟩, _, _, ⟨hi, rfl⟩, n, _, ⟨rfl, rfl⟩, rfl, rfl⟩
        simp [hb, hi]
      · rintro ⟨h, rfl⟩
        split at h
        · rename_i p n _ hb hi ht
          cases ht
          cases h
          exact ⟨_, _, ⟨hb, rfl⟩, p, _, ⟨rfl, rfl⟩, _, _, ⟨hi, rfl⟩, n, _, ⟨rfl, rfl⟩, rfl, rfl⟩
        · cases h
  | binary o l r =>
    simp only [Frame.compute, hop, Access.bind_eq_ok, Access.ofExcept_eq_ok, Frame.eval_eq_ok,
      Frame.scalarOf_eq_ok, pureResult]
    constructor
    · rintro ⟨s, _, ⟨hs, rfl⟩, a, _, ⟨ha, rfl⟩, b, _, ⟨hb, rfl⟩, h, rfl⟩
      simp [hs, ha, hb, h, toOption_eq_some]
    · rintro ⟨h, rfl⟩
      split at h
      · rename_i s a b hs ha hb
        exact ⟨s, _, ⟨hs, rfl⟩, a, _, ⟨ha, rfl⟩, b, _, ⟨hb, rfl⟩, toOption_eq_some.mp h, rfl⟩
      · cases h
  | icmp pred l r =>
    simp only [Frame.compute, hop, Access.bind_eq_ok, Access.ofExcept_eq_ok, Frame.eval_eq_ok,
      Frame.scalarOf_eq_ok, pureResult]
    constructor
    · rintro ⟨s, _, ⟨hs, rfl⟩, a, _, ⟨ha, rfl⟩, b, _, ⟨hb, rfl⟩, h, rfl⟩
      simp [hs, ha, hb, h, toOption_eq_some]
    · rintro ⟨h, rfl⟩
      split at h
      · rename_i s a b hs ha hb
        exact ⟨s, _, ⟨hs, rfl⟩, a, _, ⟨ha, rfl⟩, b, _, ⟨hb, rfl⟩, toOption_eq_some.mp h, rfl⟩
      · cases h
  | fcmp pred l r =>
    simp only [Frame.compute, hop, Access.bind_eq_ok, Access.ofExcept_eq_ok, Frame.eval_eq_ok,
      pureResult]
    constructor
    · rintro ⟨a, _, ⟨ha, rfl⟩, b, _, ⟨hb, rfl⟩, h, rfl⟩
      simp [ha, hb, h, toOption_eq_some]
    · rintro ⟨h, rfl⟩
      split at h
      · rename_i a b ha hb
        exact ⟨a, _, ⟨ha, rfl⟩, b, _, ⟨hb, rfl⟩, toOption_eq_some.mp h, rfl⟩
      · cases h
  | select c t e =>
    simp only [Frame.compute, hop, Access.bind_eq_ok, Access.ofExcept_eq_ok, Frame.eval_eq_ok,
      pureResult]
    constructor
    · rintro ⟨a, _, ⟨ha, rfl⟩, b, _, ⟨hb, rfl⟩, c, _, ⟨hc, rfl⟩, h, rfl⟩
      simp [ha, hb, hc, h, toOption_eq_some]
    · rintro ⟨h, rfl⟩
      split at h
      · rename_i a b c ha hb hc
        exact ⟨a, _, ⟨ha, rfl⟩, b, _, ⟨hb, rfl⟩, c, _, ⟨hc, rfl⟩, toOption_eq_some.mp h, rfl⟩
      · cases h
  | bitcast v =>
    simp only [Frame.compute, hop, Access.ofExcept_eq_ok, Frame.eval_eq_ok, pureResult]
  | splat v =>
    simp only [Frame.compute, hop, Access.bind_eq_ok, Access.ofExcept_eq_ok, Frame.eval_eq_ok,
      Access.pure_eq_ok, pureResult, Option.map_eq_some_iff]
    constructor
    · rintro ⟨a, _, ⟨ha, rfl⟩, rfl, rfl⟩
      exact ⟨⟨a, ha, rfl⟩, rfl⟩
    · rintro ⟨⟨a, ha, rfl⟩, rfl⟩
      exact ⟨a, _, ⟨ha, rfl⟩, rfl, rfl⟩
  | phi incoming => simp [Frame.compute, hop, Access.ofExcept_eq_ok, pureResult]

/-- An instruction that neither calls nor directs control does what the relation says. -/
theorem Frame.compute_ok_iff (hx : x.op.isPlain = true) :
    (∃ m', fr.compute tt x m = (.ok d, m') ∧ m'.regions = rs) ↔
      ∃ δ, Computes tt (fr.value tt) fr.func.tyOf x.ty x.op m.regions d δ rs := by
  cases hop : x.op with
  | alloca t a => exact hop ▸ Frame.compute_alloca_iff hop
  | load p => exact hop ▸ Frame.compute_load_iff hop
  | store v p => exact hop ▸ Frame.compute_store_iff hop
  | _ =>
    rw [← hop]
    refine Frame.compute_pure_iff (Frame.compute_eq_pureResult hx ?_ ?_ ?_) ?_ ?_ ?_ <;>
      simp [hop]

end

end LoopNest
