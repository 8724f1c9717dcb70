import LoopNest.Proofs.Machine.Steps

/-!
# Counting accesses

The machine counts the loads and the stores that it executes, each as one however many bytes it
moves.  A step counts what its instruction is, and nothing else changes the counters
(`Machine.Advances.counts`).
-/

namespace LoopNest

/-- The loads that an operation counts as. -/
def Op.loads : Op → Nat
  | .load _ => 1
  | _ => 0

/-- The stores that an operation counts as. -/
def Op.stores : Op → Nat
  | .store _ _ => 1
  | _ => 0

/-- The counters of a memory are those of another one, with some accesses more. -/
structure Memory.Counts (m m' : Memory) (loads stores : Nat) : Prop where
  loads_eq : m'.loads = m.loads + loads
  stores_eq : m'.stores = m.stores + stores

theorem Memory.Counts.trans {m₁ m₂ m₃ : Memory} {l s l' s' : Nat} (h : m₁.Counts m₂ l s)
    (h' : m₂.Counts m₃ l' s') : m₁.Counts m₃ (l + l') (s + s') :=
  ⟨by rw [h'.loads_eq, h.loads_eq, Nat.add_assoc], by rw [h'.stores_eq, h.stores_eq, Nat.add_assoc]⟩

/-! ## Writing counts nothing -/

namespace Access

/-- The action counts no accesses. -/
def Quiet {α : Type} (x : Access α) : Prop := ∀ m : Memory, m.Counts (x m).2 0 0

variable {α β : Type}

theorem quiet_pure (a : α) : Quiet (pure a : Access α) := fun _ => ⟨rfl, rfl⟩

theorem quiet_ofExcept (r : Except Fault α) : Quiet (ofExcept r) := fun _ => ⟨rfl, rfl⟩

theorem Quiet.bind {x : Access α} {k : α → Access β} (hx : x.Quiet) (hk : ∀ a, (k a).Quiet) :
    (x >>= k).Quiet := by
  intro m
  have hm := hx m
  rw [Access.bind_eq]
  rcases hres : x m with ⟨r, m'⟩
  rw [hres] at hm
  cases r with
  | ok a => exact hm.trans (hk a m')
  | error e => exact hm

theorem quiet_writeBytes (p : Pointer) (bytes : List UInt8) : (writeBytes p bytes).Quiet := by
  intro m
  unfold writeBytes
  split
  · exact ⟨rfl, rfl⟩
  · exact ⟨rfl, rfl⟩

theorem quiet_storeLanes : ∀ (ds : List Datum) (p : Pointer), (Memory.storeLanes p ds).Quiet
  | [], _ => quiet_pure ()
  | d :: ds, p => by
    unfold Memory.storeLanes
    split
    · exact .bind (quiet_writeBytes _ _) fun _ => quiet_storeLanes ds _
    · exact quiet_ofExcept _

theorem quiet_storeDatum (p : Pointer) (d : Datum) : (Memory.storeDatum p d).Quiet := by
  unfold Memory.storeDatum
  split
  · exact quiet_storeLanes _ _
  · split
    · exact quiet_writeBytes _ _
    · exact quiet_ofExcept _

theorem quiet_storeAccess (tt : TypeTable) (t : TyId) (d : Datum) (q : Pointer) :
    (storeAccess tt t d q).Quiet := by
  unfold storeAccess
  split
  · exact .bind (quiet_ofExcept _) fun _ => .bind (quiet_writeBytes _ _) fun _ => quiet_pure _
  · exact .bind (quiet_storeDatum _ _) fun _ => quiet_pure _

end Access

/-! ## One step -/

/-- A result is computed with the accesses that the operation is. -/
theorem Frame.counts_of_compute {tt : TypeTable} {fr : Frame} {x : Inst} {m m' : Memory}
    {d : Datum} (hx : x.op.isPlain = true) (h : fr.compute tt x m = (.ok d, m')) :
    m.Counts m' x.op.loads x.op.stores := by
  cases hop : x.op with
  | load p =>
    simp only [Frame.compute, hop, Access.bind_eq_ok, Access.ofExcept_eq_ok] at h
    obtain ⟨_, _, ⟨_, rfl⟩, _, _, ⟨_, rfl⟩, _, _, hcount, hload⟩ := h
    cases hcount
    rw [← (Prod.mk.inj hload).2]
    exact ⟨rfl, rfl⟩
  | store v p =>
    simp only [Frame.compute, hop, Access.bind_eq_ok, Access.ofExcept_eq_ok] at h
    obtain ⟨_, m₁, ⟨_, rfl⟩, q, _, ⟨_, rfl⟩, e, _, ⟨_, rfl⟩, _, m₂, hcount, hstore⟩ := h
    have hstore : storeAccess tt (fr.func.tyOf v) e q m₂ = (.ok d, m') := hstore
    have hquiet := Access.quiet_storeAccess tt (fr.func.tyOf v) e q m₂
    rw [hstore] at hquiet
    cases hcount
    exact ⟨hquiet.loads_eq, hquiet.stores_eq⟩
  | alloca t a =>
    simp only [Frame.compute, hop, Access.bind_eq_ok, Access.pure_eq_ok] at h
    obtain ⟨_, _, halloc, _, rfl⟩ := h
    cases halloc
    exact ⟨rfl, rfl⟩
  | _ =>
    obtain ⟨_, rfl⟩ := (Frame.compute_eq_pureResult hx (by simp [hop]) (by simp [hop])
      (by simp [hop]) m').mp h
    exact ⟨rfl, rfl⟩

theorem Leaves.no_access {value : Operand → Option Datum} {op : Op} {l : Next}
    (h : Leaves value op l) : op.loads = 0 ∧ op.stores = 0 := by
  cases h <;> exact ⟨rfl, rfl⟩

/-- A step counts the accesses that its instruction is. -/
theorem Machine.Advances.counts {p : Program} {limit : Nat} {s t : State} {i : InstId}
    {rest : List InstId} (h : Advances p limit s t) (hrest : s.frame.rest = i :: rest) :
    s.memory.Counts t.memory (s.frame.func.op i).loads (s.frame.func.op i).stores := by
  cases h with
  | plain hr _ hplain hc =>
    cases hr.symm.trans hrest
    exact Frame.counts_of_compute hplain hc
  | jump hr _ hl _ | ret hr _ hl =>
    cases hr.symm.trans hrest
    obtain ⟨hl, hs⟩ := hl.no_access
    dsimp only
    rw [hl, hs]
    exact ⟨rfl, rfl⟩
  | call hr _ hop _ _ _ _ _ =>
    cases hr.symm.trans hrest
    dsimp only
    rw [hop]
    exact ⟨rfl, rfl⟩

end LoopNest
