import LoopNest.Proofs.Machine.Lockstep
import LoopNest.Proofs.Ty.Extends

/-!
# Runs in a larger type table

Interning more types changes no run that succeeds, as long as the function refers to types of
the old table only (`Executes.extends`).
-/

namespace LoopNest

/-- The types that the blocks in use refer to are in the table. -/
structure Func.TypesIn (f : Func) (tt : TypeTable) (used : BlockId → Prop) : Prop where
  ty_lt : ∀ b, used b → ∀ i ∈ f.body b, (f.inst i).ty < tt.size
  slot_lt : ∀ b, used b → ∀ i ∈ f.body b, ∀ t a, f.op i = .alloca t a → t < tt.size

theorem Leaves.mono {value value' : Operand → Option Datum} {op : Op} {x : Next}
    (h : Leaves value op x) (hv : ∀ v d, value v = some d → value' v = some d) :
    Leaves value' op x := by
  cases h with
  | br => exact .br
  | condBr hc => exact .condBr (hv _ _ hc)
  | retVoid => exact .retVoid
  | ret hd => exact .ret (hv _ _ hd)

section

variable {tt tt' : TypeTable} (ht : tt.Extends tt') {f : Func} {args : List Datum}

include ht

theorem Func.value_extends {ρ : Values} {v : Operand} {d : Datum}
    (h : f.value tt args ρ v = some d) : f.value tt' args ρ v = some d := by
  cases v with
  | inst i => exact h
  | param k => exact h
  | const c =>
    simp only [Func.value, Func.constantValue] at h ⊢
    split at h
    · cases h
    · exact h
    · exact h
    · simp only [Option.map_eq_some_iff] at h ⊢
      obtain ⟨s, hs, rfl⟩ := h
      exact ⟨s, ht.elementScalar_eq hs, rfl⟩

variable (hc : tt.Closed)

include hc in
theorem pureResult_extends {value value' : Operand → Option Datum} {tyOf : Operand → TyId}
    {ty : TyId} {op : Op} {d : Datum} (hty : ty < tt.size)
    (hv : ∀ v d, value v = some d → value' v = some d)
    (h : pureResult tt value tyOf ty op = some d) : pureResult tt' value' tyOf ty op = some d := by
  cases op with
  | gep b i =>
    simp only [pureResult] at h ⊢
    split at h
    · rename_i p n t hb hi hp
      rw [hv b _ hb, hv i _ hi, ht.pointee_eq hp]
      rw [TypeTable.pointee_eq_some] at hp
      simpa [ht.paddedSize_eq hc (hc.pointee_lt hp)] using h
    · cases h
  | binary o l r =>
    simp only [pureResult] at h ⊢
    split at h
    · rename_i s a b hs hl hr
      rw [ht.elementScalar_eq hs, hv l _ hl, hv r _ hr]
      exact h
    · cases h
  | icmp o l r =>
    simp only [pureResult] at h ⊢
    split at h
    · rename_i s a b hs hl hr
      rw [ht.elementScalar_eq hs, hv l _ hl, hv r _ hr]
      exact h
    · cases h
  | fcmp o l r =>
    simp only [pureResult] at h ⊢
    split at h
    · rename_i a b hl hr
      rw [hv l _ hl, hv r _ hr]
      exact h
    · cases h
  | select c t e =>
    simp only [pureResult] at h ⊢
    split at h
    · rename_i c' t' e' hcv htv hev
      rw [hv c _ hcv, hv t _ htv, hv e _ hev]
      exact h
    · cases h
  | bitcast v => exact hv v d h
  | splat v =>
    simp only [pureResult, Option.map_eq_some_iff] at h ⊢
    obtain ⟨e, he, rfl⟩ := h
    refine ⟨e, hv v e he, ?_⟩
    simp only [TypeTable.lanes?, ht.shape_eq_of_lt hty]
  | _ => cases h

theorem storeChunks_extends {t : TyId} {d : Datum} {q : Pointer} {cs : List Chunk}
    (h : storeChunks tt t d q = some cs) : storeChunks tt' t d q = some cs := by
  cases d with
  | int n =>
    simp only [storeChunks, Option.map_eq_some_iff] at h ⊢
    obtain ⟨s, hs, rfl⟩ := h
    exact ⟨s, ht.elementScalar_eq hs, rfl⟩
  | _ => exact h

theorem Memory.load_extends {m : Memory} {q : Pointer} {t : TyId} {d : Datum}
    (h : m.load tt q t = .ok d) : m.load tt' q t = .ok d := by
  unfold Memory.load at h ⊢
  cases hs : tt.shape t with
  | scalar s => simpa [hs, ht.shape_eq hs (by simp)] using h
  | vector n s => simpa [hs, ht.shape_eq hs (by simp)] using h
  | _ => simp [hs] at h

include hc

theorem Computes.extends {value value' : Operand → Option Datum} {tyOf : Operand → TyId}
    {ty : TyId} {op : Op} {rs rs' : Array Region} {d : Datum} {δ : List Chunk}
    (h : Computes tt value tyOf ty op rs d δ rs') (hty : ty < tt.size)
    (hslot : ∀ t a, op = .alloca t a → t < tt.size)
    (hv : ∀ v d, value v = some d → value' v = some d) :
    Computes tt' value' tyOf ty op rs d δ rs' := by
  cases h with
  | pure hp => exact .pure (pureResult_extends ht hc hty hv hp)
  | @alloca t a =>
    rw [← ht.paddedSize_eq hc (hslot t a rfl)]
    exact .alloca
  | load hp hl => exact .load (hv _ _ hp) (Memory.load_extends ht hl)
  | store hp hd hcs hfit => exact .store (hv _ _ hp) (hv _ _ hd) (storeChunks_extends ht hcs) hfit

variable {used : BlockId → Prop} (hin : f.TypesIn tt used)

include hin

theorem Straight.extends {b : BlockId} (hb : used b) {is : List InstId} {s s' : Snapshot}
    {δ : List Chunk} (h : Straight tt f args is s δ s') (his : ∀ i ∈ is, i ∈ f.body b) :
    Straight tt' f args is s δ s' := by
  induction h with
  | nil => exact .nil
  | @cons i is s s' d δ δ' rs hcomp _ ih =>
    have hi := his i List.mem_cons_self
    refine .cons (hcomp.extends ht hc (hin.ty_lt b hb i hi) (hin.slot_lt b hb i hi) ?_) ?_
    · exact fun v d hv => Func.value_extends ht hv
    · exact ih fun j hj => his j (List.mem_cons_of_mem _ hj)

theorem Visit.extends {source : Option BlockId} {b : BlockId} (hb : used b) {s s' : Snapshot}
    {δ : List Chunk} {x : Next} (h : Visit tt f args source b s δ s' x) :
    Visit tt' f args source b s δ s' x := by
  have hphi : ∀ i ∈ f.phis b, phiValue tt' f args source s.values i =
      phiValue tt f args source s.values i := by
    intro i hi
    obtain ⟨d, hd⟩ := Option.isSome_iff_exists.mp (h.ready i hi)
    rw [hd]
    simp only [phiValue, Option.bind_eq_some_iff] at hd ⊢
    obtain ⟨v, hv, hval⟩ := hd
    exact ⟨v, hv, Func.value_extends ht hval⟩
  have hent : entered tt' f args source b s.values = entered tt f args source b s.values := by
    funext i
    unfold entered
    split
    · exact hphi i ‹_›
    · rfl
  refine ⟨fun i hi => ?_, ?_, ?_⟩
  · rw [hphi i hi]
    exact h.ready i hi
  · rw [hent]
    exact h.straight.extends ht hc hin hb fun i hi => Func.mem_body_of_code hi
  · obtain ⟨t, hterm, hl⟩ := h.leaves
    exact ⟨t, hterm, hl.mono fun v d hv => Func.value_extends ht hv⟩

theorem Executes.extends (hnext : ∀ b, used b → ∀ c ∈ f.successors b, used c)
    {source : Option BlockId} {b : BlockId} {s : Snapshot} {d : Datum} {rs : Array Region} {n : Nat}
    (h : Executes tt f args source b s d rs n) (hb : used b) :
    Executes tt' f args source b s d rs n := by
  induction h with
  | ret hv => exact .ret (hv.extends ht hc hin hb)
  | goto hv _ ih => exact .goto (hv.extends ht hc hin hb) (ih (hnext _ hb _ hv.mem_successors))

end

end LoopNest
