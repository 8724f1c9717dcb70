import LoopNest.Proofs.Machine.Lockstep
import Mathlib.Data.List.Basic

/-!
# Chunks in another order

Straight code that lists every instruction once can be read as a table: each instruction has one
result and writes its chunks, with the operands that it has in the end (`Straight.tabled`).

When the same code runs several times, its chunks are written lap by lap (`byLap`).  Written
instruction by instruction (`byInst`), they leave the same bytes behind, if no byte is written in two
laps (`writeChunks_byInst`).  A byte that other laps leave alone is the same on the way, too
(`byteAt_byInst`).
-/

namespace LoopNest

variable {rs : Array Region} {r o : Nat}

/-! ## The chunks of a byte -/

/-- A byte depends on the chunks that cover it. -/
theorem byteAt_writeChunks_filter : ∀ (cs : List Chunk) {rs : Array Region},
    (∀ c ∈ cs, c.Fits rs) → byteAt (writeChunks rs cs) r o =
      byteAt (writeChunks rs (cs.filter fun c => c.Covers r o)) r o
  | [], _, _ => rfl
  | c :: cs, rs, hf => by
    have hrest : ∀ x ∈ cs, x.Fits (writeChunk rs c) := fun x hx =>
      (sameExtents_writeChunk rs c).fits.mp (hf x (List.mem_cons_of_mem _ hx))
    rw [writeChunks_cons, byteAt_writeChunks_filter cs hrest, List.filter_cons]
    by_cases hc : c.Covers r o
    · rw [if_pos (decide_eq_true hc), writeChunks_cons]
    · rw [if_neg (by simpa using hc)]
      refine byteAt_writeChunks_congr _ (fun x hx => hrest x (List.mem_filter.mp hx).1)
        (fun x hx => hf x (List.mem_cons_of_mem _ (List.mem_filter.mp hx).1)) fun _ => ?_
      rw [byteAt_writeChunk (hf c List.mem_cons_self), if_neg hc]

theorem byteAt_writeChunks_of_filter_eq {cs ds : List Chunk} (hcs : ∀ c ∈ cs, c.Fits rs)
    (hds : ∀ c ∈ ds, c.Fits rs)
    (h : (cs.filter fun c => c.Covers r o) = ds.filter fun c => c.Covers r o) :
    byteAt (writeChunks rs cs) r o = byteAt (writeChunks rs ds) r o := by
  rw [byteAt_writeChunks_filter cs hcs, byteAt_writeChunks_filter ds hds, h]

/-! ## Laps -/

/-- The chunks of each instruction in each lap. -/
abbrev ChunkTable := Nat → InstId → List Chunk

/-- Some laps of some code, one after the other. -/
def byLap (n : Nat) (is : List InstId) (X : ChunkTable) : List Chunk :=
  (List.range n).flatMap fun t => is.flatMap (X t)

/-- Each instruction in some laps, one instruction after the other. -/
def byInst (n : Nat) (is : List InstId) (X : ChunkTable) : List Chunk :=
  is.flatMap fun i => (List.range n).flatMap fun t => X t i

section

variable {n t : Nat} {is pre : List InstId} {X : ChunkTable}

theorem byLap_succ : byLap (n + 1) is X = byLap n is X ++ is.flatMap (X n) := by
  simp [byLap, List.range_succ]

theorem byInst_append {post : List InstId} :
    byInst n (is ++ post) X = byInst n is X ++ byInst n post X := List.flatMap_append

theorem mem_byLap {c : Chunk} : c ∈ byLap n is X ↔ ∃ t < n, ∃ i ∈ is, c ∈ X t i := by
  simp [byLap, List.mem_flatMap]

theorem mem_byInst {c : Chunk} : c ∈ byInst n is X ↔ ∃ i ∈ is, ∃ t < n, c ∈ X t i := by
  simp [byInst, List.mem_flatMap]

/-- Only one of the laps has anything to keep. -/
theorem filter_flatMap_range {α : Type} {p : α → Bool} {Y : Nat → List α} : ∀ {n : Nat}, t < n →
    (∀ t' < n, t' ≠ t → ∀ c ∈ Y t', p c = false) →
    ((List.range n).flatMap Y).filter p = (Y t).filter p
  | n + 1, ht, h => by
    rw [List.range_succ, List.flatMap_append, List.filter_append, List.flatMap_singleton]
    rcases Nat.lt_succ_iff_lt_or_eq.mp ht with hlt | rfl
    · have hlast : (Y n).filter p = [] := List.filter_eq_nil_iff.mpr fun c hc =>
        Bool.not_eq_true _ ▸ h n (Nat.lt_succ_self n) (Nat.ne_of_gt hlt) c hc
      rw [filter_flatMap_range hlt fun t' ht' => h t' (Nat.lt_succ_of_lt ht'), hlast,
        List.append_nil]
    · have hfirst : ((List.range t).flatMap Y).filter p = [] := by
        refine List.filter_eq_nil_iff.mpr fun c hc => ?_
        obtain ⟨t', ht', hc⟩ := List.mem_flatMap.mp hc
        rw [List.mem_range] at ht'
        exact Bool.not_eq_true _ ▸ h t' (Nat.lt_succ_of_lt ht') (Nat.ne_of_lt ht') c hc
      rw [hfirst, List.nil_append]

section

variable (hne : ∀ t' < n, t' ≠ t → ∀ i ∈ is, ∀ c ∈ X t' i, ¬ c.Covers r o)
include hne

theorem filter_byInst (ht : t < n) (hpre : ∀ i ∈ pre, i ∈ is) :
    ((byInst n pre X).filter fun c => c.Covers r o) =
      (pre.flatMap (X t)).filter fun c => c.Covers r o := by
  rw [byInst, List.filter_flatMap, List.filter_flatMap]
  refine List.flatMap_congr fun i hi => ?_
  exact filter_flatMap_range ht fun t' ht' htt c hc =>
    decide_eq_false (hne t' ht' htt i (hpre i hi) c hc)

theorem filter_byLap (ht : t < n) : ((byLap n is X).filter fun c => c.Covers r o) =
    (is.flatMap (X t)).filter fun c => c.Covers r o :=
  filter_flatMap_range ht fun t' ht' htt c hc => by
    obtain ⟨i, hi, hc⟩ := List.mem_flatMap.mp hc
    exact decide_eq_false (hne t' ht' htt i hi c hc)

/-- On the way through a lap, a byte that the other laps leave alone is what it is on the way
through all of them. -/
theorem byteAt_byInst (ht : t < n) (hpre : ∀ i ∈ pre, i ∈ is)
    (hf : ∀ t < n, ∀ i ∈ is, ∀ c ∈ X t i, c.Fits rs) :
    byteAt (writeChunks rs (byInst n pre X)) r o =
      byteAt (writeChunks rs (byLap t is X ++ pre.flatMap (X t))) r o := by
  refine byteAt_writeChunks_of_filter_eq (fun c hc => ?_) (fun c hc => ?_) ?_
  · obtain ⟨i, hi, t', ht', hc⟩ := mem_byInst.mp hc
    exact hf t' ht' i (hpre i hi) c hc
  · rcases List.mem_append.mp hc with hc | hc
    · obtain ⟨t', ht', i, hi, hc⟩ := mem_byLap.mp hc
      exact hf t' (Nat.lt_trans ht' ht) i hi c hc
    · obtain ⟨i, hi, hc⟩ := List.mem_flatMap.mp hc
      exact hf t ht i (hpre i hi) c hc
  · have hbefore : ((byLap t is X).filter fun c => c.Covers r o) = [] := by
      refine List.filter_eq_nil_iff.mpr fun c hc => ?_
      obtain ⟨t', ht', i, hi, hc⟩ := mem_byLap.mp hc
      simpa using hne t' (Nat.lt_trans ht' ht) (Nat.ne_of_lt ht') i hi c hc
    rw [filter_byInst hne ht hpre, List.filter_append, hbefore, List.nil_append]

end

/-- Chunks of different laps that cover no byte twice can be written instruction by instruction. -/
theorem writeChunks_byInst (hf : ∀ t < n, ∀ i ∈ is, ∀ c ∈ X t i, c.Fits rs)
    (h : ∀ t < n, ∀ t' < n, t ≠ t' → ∀ i ∈ is, ∀ j ∈ is, ∀ c ∈ X t i, ∀ c' ∈ X t' j, ∀ r o,
      c.Covers r o → ¬ c'.Covers r o) :
    writeChunks rs (byInst n is X) = writeChunks rs (byLap n is X) := by
  have hinst : ∀ c ∈ byInst n is X, c.Fits rs := fun c hc => by
    obtain ⟨i, hi, t, ht, hc⟩ := mem_byInst.mp hc
    exact hf t ht i hi c hc
  have hlap : ∀ c ∈ byLap n is X, c.Fits rs := fun c hc => by
    obtain ⟨t, ht, i, hi, hc⟩ := mem_byLap.mp hc
    exact hf t ht i hi c hc
  refine ext_byteAt ((sameExtents_writeChunks _ rs).1.symm.trans (sameExtents_writeChunks _ rs).1)
    fun r o => ?_
  by_cases hcov : ∃ c ∈ byLap n is X, c.Covers r o
  · obtain ⟨c, hc, hcov⟩ := hcov
    obtain ⟨t, ht, i, hi, hc⟩ := mem_byLap.mp hc
    have hne : ∀ t' < n, t' ≠ t → ∀ j ∈ is, ∀ c' ∈ X t' j, ¬ c'.Covers r o :=
      fun t' ht' htt j hj c' hc' => h t ht t' ht' htt.symm i hi j hj c hc c' hc' r o hcov
    refine byteAt_writeChunks_of_filter_eq hinst hlap ?_
    rw [filter_byInst hne ht fun _ hi => hi, filter_byLap hne ht]
  · have hno : ∀ c ∈ byLap n is X, ¬ c.Covers r o := fun c hc hcov' => hcov ⟨c, hc, hcov'⟩
    rw [byteAt_writeChunks_of_not_covers _ hlap hno, byteAt_writeChunks_of_not_covers _ hinst]
    intro c hc
    obtain ⟨i, hi, t, ht, hc⟩ := mem_byInst.mp hc
    exact hno c (mem_byLap.mpr ⟨t, ht, i, hi, hc⟩)

end

/-! ## Code as a table -/

section

variable {tt : TypeTable} {value : Operand → Option Datum} {tyOf : Operand → TyId} {ty : TyId}
  {op : Op} {rs rs' : Array Region} {d : Datum} {δ : List Chunk}

theorem Computes.of_load {p : Operand} (h : Computes tt value tyOf ty (.load p) rs d δ rs') :
    ∃ q, value p = some (.ptr q) ∧ (Memory.ofRegions rs).load tt q ty = .ok d := by
  cases h with
  | pure h => cases h
  | load hq hd => exact ⟨_, hq, hd⟩

theorem Computes.of_store {v p : Operand} (h : Computes tt value tyOf ty (.store v p) rs d δ rs') :
    d = .void ∧ ∃ q e, value p = some (.ptr q) ∧ value v = some e ∧
      storeChunks tt (tyOf v) e q = some δ ∧ ∀ c ∈ δ, c.Fits rs := by
  cases h with
  | pure h => cases h
  | store hq he hcs hf => exact ⟨rfl, _, _, hq, he, hcs, hf⟩

/-- Only stores write. -/
theorem Computes.eq_nil (h : Computes tt value tyOf ty op rs d δ rs')
    (hop : ∀ v p, op ≠ .store v p) : δ = [] := by
  cases h with
  | store _ _ _ _ => exact absurd rfl (hop _ _)
  | _ => rfl

end

/-- What each instruction of some code computes and writes, by the values in the end. -/
def Tabled (tt : TypeTable) (f : Func) (args : List Datum) (is : List InstId) (ρ : Values)
    (rs : Array Region) (X : InstId → List Chunk) : Prop :=
  ∀ pre i post, is = pre ++ i :: post → ∃ d, ρ i = some d ∧
    Computes tt (f.value tt args ρ) f.tyOf (f.inst i).ty (f.op i)
      (writeChunks rs (pre.flatMap X)) d (X i) (writeChunks rs ((pre ++ [i]).flatMap X))

section

variable {tt : TypeTable} {f : Func} {args : List Datum} {is : List InstId} {s s' : Snapshot}
  {δ : List Chunk}

theorem Straight.append (h : Straight tt f args is s δ s') {js : List InstId} {s'' : Snapshot}
    {δ' : List Chunk} (h' : Straight tt f args js s' δ' s'') :
    Straight tt f args (is ++ js) s (δ ++ δ') s'' := by
  induction h with
  | nil => exact h'
  | cons hc _ ih =>
    rw [List.append_assoc]
    exact .cons hc (ih h')

theorem Straight.concat (h : Straight tt f args is s δ s') {i : InstId} {d : Datum}
    {δ' : List Chunk} {rs : Array Region}
    (hc : Computes tt (f.value tt args s'.values) f.tyOf (f.inst i).ty (f.op i) s'.regions d δ' rs) :
    Straight tt f args (is ++ [i]) s (δ ++ δ') ⟨s'.values.set i d, rs⟩ := by
  have := h.append (.cons hc .nil)
  rwa [List.append_nil] at this

/-- Code that lists every instruction once, and nothing before what it uses, is a table. -/
theorem Straight.tabled (h : Straight tt f args is s δ s') (hal : f.SlotFree is) (hnodup : is.Nodup)
    (hops : ∀ pre i post, is = pre ++ i :: post → ∀ j, Operand.inst j ∈ (f.op i).operands →
      j ∉ i :: post) :
    ∃ X : InstId → List Chunk, δ = is.flatMap X ∧ (∀ i, i ∉ is → X i = []) ∧
      Tabled tt f args is s'.values s.regions X := by
  induction h with
  | nil => exact ⟨fun _ => [], rfl, fun _ _ => rfl, fun pre i post h => by simp at h⟩
  | @cons i is s s' d δ δ' rs hc hrest ih =>
    obtain ⟨hi, hnodup⟩ := List.nodup_cons.mp hnodup
    obtain ⟨X, rfl, hX, htab⟩ := ih (fun j hj => hal j (List.mem_cons_of_mem _ hj)) hnodup
      fun pre j post heq => hops (i :: pre) j post (by rw [heq]; rfl)
    have hrs : rs = writeChunks s.regions δ := by
      have hone : Straight tt f args [i] s (δ ++ []) ⟨s.values.set i d, rs⟩ := .cons hc .nil
      have hslot : f.SlotFree [i] := fun j hj =>
        hal j (List.mem_singleton.mp hj ▸ List.mem_cons_self)
      simpa using hone.regions_eq hslot
    have hdi : s'.values i = some d := by
      rw [hrest.values_of_not_mem hi]
      exact Values.set_self _ _ _
    -- The operands of the first instruction are not computed again.
    have hsame : ∀ v ∈ (f.op i).operands,
        f.value tt args s'.values v = f.value tt args s.values v := by
      intro v hv
      cases v with
      | inst j =>
        have hj := hops [] i is rfl j hv
        rw [List.mem_cons, not_or] at hj
        exact (hrest.values_of_not_mem hj.2).trans (Values.set_of_ne hj.1)
      | param k => rfl
      | const c => rfl
    have hflat : ∀ js : List InstId, i ∉ js →
        js.flatMap (fun j => if j = i then δ else X j) = js.flatMap X := fun js hjs =>
      List.flatMap_congr fun j hj => if_neg fun hji : j = i => hjs (hji ▸ hj)
    refine ⟨fun j => if j = i then δ else X j, ?_, fun j hj => ?_, ?_⟩
    · rw [List.flatMap_cons, if_pos rfl, hflat is hi]
    · rw [List.mem_cons, not_or] at hj
      dsimp only
      rw [if_neg hj.1, hX j hj.2]
    · intro pre k post heq
      cases pre with
      | nil =>
        obtain ⟨rfl, rfl⟩ := List.cons_eq_cons.mp heq
        refine ⟨d, hdi, ?_⟩
        simp only [List.flatMap_nil, List.nil_append, List.flatMap_singleton, if_true]
        rw [← hrs]
        exact hc.congr hsame fun _ _ => rfl
      | cons j pre =>
        obtain ⟨rfl, hsplit⟩ := List.cons_eq_cons.mp heq
        change is = pre ++ k :: post at hsplit
        have hnot : ∀ j ∈ pre ++ [k], j ≠ i := by
          rintro j hj rfl
          refine hi ?_
          rw [hsplit, List.append_cons]
          exact List.mem_append_left _ hj
        obtain ⟨e, he, hck⟩ := htab pre k post hsplit
        refine ⟨e, he, ?_⟩
        have hpre : i ∉ pre := fun hmem => hnot i (List.mem_append_left _ hmem) rfl
        have hpre' : i ∉ pre ++ [k] := fun hmem => hnot i hmem rfl
        have hk : k ≠ i := hnot k (List.mem_append_right _ (List.mem_singleton.mpr rfl))
        rw [List.cons_append, List.flatMap_cons, List.flatMap_cons, if_pos rfl, hflat pre hpre,
          hflat _ hpre', writeChunks_append, writeChunks_append, ← hrs]
        dsimp only
        rw [if_neg hk]
        exact hck

end

end LoopNest
