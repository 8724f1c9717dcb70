import LoopNest.Proofs.Fusion.Settled
import LoopNest.Proofs.Pass.Idle
import LoopNest.Proofs.Vectorize.Ended

/-!
# Nests that stay together

A convolution or a pooling layer is a nest of loops with one innermost block, which uses the
induction values of all loops and adds to a cell that does not move with the innermost loop.
`Func.Interwoven` says so of a function.  No inner loop of such a nest is independent of the outer
one, and no loop of it can be widened, so loop fusion and vectorization leave the function alone
(`Interwoven.fuseLoops_idle`, `Interwoven.vectorize_idle`).
-/

namespace LoopNest

open Func FlowGraph

namespace Func

/-- Operands that are the same in every iteration of a loop with a single block as its body: what is
computed elsewhere and is no phi, and pointers that the block finds from such operands. -/
inductive Fixed (f : Func) (b : BlockId) : Operand → Prop
  | param (k : Nat) : Fixed f b (.param k)
  | const (c : ConstId) : Fixed f b (.const c)
  | outside {i : InstId} {d : BlockId} (hd : d ∈ f.layout) (hi : i ∈ f.body d) (hne : d ≠ b)
    (hphi : (f.op i).isPhi = false) : Fixed f b (.inst i)
  | gep {i : InstId} {base index : Operand} (hi : i ∈ f.body b) (hop : f.op i = .gep base index)
    (hbase : Fixed f b base) (hindex : Fixed f b index) : Fixed f b (.inst i)

/-- All loops of the function meet in a block, which depends on each of them. -/
structure Interwoven (f : Func) (b : BlockId) : Prop where
  live : b ∈ f.layout
  /-- Every loop has the block in its body. -/
  within : ∀ l, IsLoop (.ofFunc f) l → b ∈ l.blocks ∧ b ≠ l.header ∧ b ∉ l.latches
  /-- The block uses a value of every header. -/
  uses : ∀ l, IsLoop (.ofFunc f) l →
    ∃ i ∈ f.body b, ∃ v ∈ (f.op i).operands, f.definingBlock? v = some l.header
  /-- The block stores to one place, whatever the innermost iteration is. -/
  stores : ∃ i ∈ f.body b, ∃ v p, f.op i = .store v p ∧ f.Fixed b p

end Func

variable {f : Func} {b : BlockId} {tt tt' : TypeTable}

/-! ## Loop fusion -/

/-- The inner loop of every nest depends on the outer one. -/
theorem Func.Interwoven.fusion_refused (h : f.Interwoven b) (hf : f.Framed) {o i : LoopId}
    (hn : Fusion.Nests f o i) : Fusion.Refused tt f o i := by
  cases hp : Fusion.plan tt f (.ofFunc f) (.ofFunc f) ((LoopForest.ofFunc f).loop o)
      ((LoopForest.ofFunc f).loop i) with
  | error e => exact ⟨e, hp⟩
  | ok p =>
    exfalso
    have hs := Fusion.shape_of_candidate hf hn hp
    obtain ⟨j, hj, v, hv, hdef⟩ := h.uses _ hs.outer_loop
    obtain ⟨-, -, -, -, -, hinsts, -⟩ := Fusion.plan_eq_ok.mp hp
    have hmem : j ∈ ((LoopForest.ofFunc f).loop i).blocks.flatMap f.body :=
      List.mem_flatMap.mpr ⟨b, (h.within _ hs.inner_loop).1, hj⟩
    -- The value comes from the outer header, which is outside of the inner loop.
    rcases (Fusion.checkInst_eq_ok.mp (Fusion.forAll_eq_ok.mp hinsts j hmem)).2.1 v hv with hin | hinv
    · rw [Fusion.definedIn, hdef] at hin
      exact hs.header_out (by simpa [NaturalLoop.contains] using hin)
    · cases v with
      | inst k =>
        obtain ⟨d, hd, hout, -⟩ := NaturalLoop.isInvariant_iff.mp hinv
        obtain rfl : d = _ := Option.some.inj (hd.symm.trans hdef)
        exact hout hs.outer_loop.header_mem
      | param k => cases hdef
      | const c => cases hdef

theorem Func.Interwoven.fuseLoops_idle (h : f.Interwoven b)
    (hv : ∀ tt', tt.Extends tt' → f.verify tt' = .ok ()) (hu : f.UsesListed) :
    Pass.fuseLoops.Idle tt f where
  unstuck tt' ht := Func.fuseStuck_eq_false (hv tt' ht) hu
  unchanged tt' ht := (Fusion.fuseLoops_eq tt' f).2.trans (Fusion.sweep_of_refused
    (fun _ _ hn => h.fusion_refused (framed_of_verify (hv tt' ht)) hn) _ _).2

/-! ## Vectorization -/

namespace Vectorize

variable {c : Context} {shapes : LaneShapes} {i : InstId} {s : LaneShape} {low : Lowering}
  {config : VectorConfig} {l : NaturalLoop}

/-- Fixed operands are the same in every lane, if they may be used at all. -/
def KeepsFixed (c : Context) (b : BlockId) (shapes : LaneShapes) : Prop :=
  ∀ v, c.func.Fixed b v → ∀ s, laneShape c shapes v = .ok s → s = .uniform

theorem laneShape_cons_self (i : InstId) :
    laneShape c ((.inst i, s) :: shapes) (.inst i) = .ok s := by
  simp [laneShape]

theorem laneShape_cons_of_ne {v w : Operand} (hne : v ≠ w) :
    laneShape c ((w, s) :: shapes) v = laneShape c shapes v := by
  simp [laneShape, List.lookup_cons, beq_eq_false_iff_ne.mpr hne]

/-- Before the body only the induction value has a shape, and it is a phi. -/
theorem keepsFixed_iv {iv : InstId} (hphi : (c.func.op iv).isPhi = true) :
    KeepsFixed c b [(.inst iv, .index 1)] := by
  intro v hv s hs
  have hne : v ≠ .inst iv := by
    rintro rfl
    cases hv with
    | outside _ _ _ hno => cases hphi.symm.trans hno
    | gep _ hop _ _ => simp [hop, Op.isPhi] at hphi
  rw [laneShape_cons_of_ne hne] at hs
  unfold laneShape at hs
  rw [List.lookup_nil] at hs
  cases v with
  | inst j =>
    dsimp only at hs
    split at hs
    · cases hs
    · exact (Except.ok.inj hs).symm
  | param k => exact (Except.ok.inj hs).symm
  | const k => exact (Except.ok.inj hs).symm

theorem shaped_of_lowerInst (h : lowerInst c shapes i tt = (.ok (s, low), tt')) :
    ∃ ops, Shaped c shapes i ops ∧
      (∀ p j, c.func.op i = .gep p j → lowerGep c i ops tt = (.ok (s, low), tt')) ∧
      ∀ v p, c.func.op i = .store v p → lowerStore c i v ops tt = (.ok (s, low), tt') := by
  unfold lowerInst at h
  obtain ⟨ops, tt₁, hmap, h⟩ := bind_eq_ok.mp h
  obtain ⟨hops, rfl⟩ := ofExcept_eq_ok.mp hmap
  refine ⟨ops, forall₂_of_mapM_eq_ok hops, fun p j hop => ?_, fun v p hop => ?_⟩
  · rw [Func.op] at hop
    simpa only [hop] using h
  · rw [Func.op] at hop
    simpa only [hop] using h

/-- A pointer that is found from fixed operands is the same in every lane. -/
theorem KeepsFixed.cons (h : KeepsFixed c b shapes) (hf : c.func.Framed) (hb : b ∈ c.func.layout)
    (hi : i ∈ c.func.body b) (hlow : lowerInst c shapes i tt = (.ok (s, low), tt')) :
    KeepsFixed c b ((.inst i, s) :: shapes) := by
  intro v hv s' hs'
  by_cases heq : v = .inst i
  · subst heq
    rw [laneShape_cons_self] at hs'
    obtain rfl := Except.ok.inj hs'
    cases hv with
    | outside hd hi' hne _ =>
      exact absurd (Option.some.inj ((hf.owner_eq _ hd _ hi').symm.trans (hf.owner_eq b hb i hi))) hne
    | @gep _ base index _ hop hbase hindex =>
      obtain ⟨ops, hops, hgep, -⟩ := shaped_of_lowerInst hlow
      unfold Shaped at hops
      rw [hop, Op.operands] at hops
      obtain ⟨x, _, hx, hrest, rfl⟩ := List.forall₂_cons_left_iff.mp hops
      obtain ⟨y, _, hy, hnil, rfl⟩ := List.forall₂_cons_left_iff.mp hrest
      obtain rfl := List.forall₂_nil_left_iff.mp hnil
      have hlower := hgep base index hop
      rw [h base hbase x hx, h index hindex y hy, lowerGep] at hlower
      exact (congrArg Prod.fst (pure_eq_ok.mp hlower).1).symm
  · rw [laneShape_cons_of_ne heq] at hs'
    exact h v hv s' hs'

/-- A body with a store to a fixed place is not carried over: the lanes would overwrite each
other. -/
theorem lowerBody_of_store {v p : Operand} (hf : c.func.Framed) (hb : b ∈ c.func.layout)
    (hop : c.func.op i = .store v p) (hp : c.func.Fixed b p) : ∀ {is : List InstId}
    {shapes : LaneShapes} {tt tt' : TypeTable} {steps : List (InstId × Lowering)},
    KeepsFixed c b shapes → (∀ j ∈ is, j ∈ c.func.body b) → i ∈ is →
    lowerBody c shapes is tt ≠ (.ok steps, tt')
  | [], _, _, _, _, _, _, hi => absurd hi List.not_mem_nil
  | j :: is, shapes, tt, tt', steps, hk, hsub, hi => by
    intro h
    unfold lowerBody at h
    obtain ⟨⟨s, low⟩, tt₁, hlow, h⟩ := bind_eq_ok.mp h
    obtain ⟨rest, tt₂, hrest, -⟩ := bind_eq_ok.mp h
    rcases List.mem_cons.mp hi with rfl | hi
    · obtain ⟨ops, hops, -, hstore⟩ := shaped_of_lowerInst hlow
      unfold Shaped at hops
      rw [hop, Op.operands] at hops
      obtain ⟨x, _, hx, hrest, rfl⟩ := List.forall₂_cons_left_iff.mp hops
      obtain ⟨y, _, hy, hnil, rfl⟩ := List.forall₂_cons_left_iff.mp hrest
      obtain rfl := List.forall₂_nil_left_iff.mp hnil
      have hlower := hstore v p hop
      rw [hk p hp y hy] at hlower
      exact reject_eq_ok.mp hlower
    · exact lowerBody_of_store hf hb hop hp (hk.cons hf hb (hsub j List.mem_cons_self) hlow)
        (fun k hk => hsub k (List.mem_cons_of_mem _ hk)) hi hrest

end Vectorize

namespace Func.Interwoven

variable {l : NaturalLoop} {config : VectorConfig}

theorem vectorize_refused (h : f.Interwoven b) (hf : f.Framed)
    (hl : l ∈ Vectorize.innermostLoops (.ofFunc f)) : Vectorize.Refused tt config f l := by
  intro tt₁ _
  cases hp : Vectorize.plan config f (.ofFunc f) (.ofGraph (.ofFunc f)) l tt₁ with
  | mk r tt' =>
    cases r with
    | error e => exact ⟨e, tt', rfl⟩
    | ok p =>
      exfalso
      -- The block is the body of the loop.
      have ht := Vectorize.tight_of_plan hf hl hp
      obtain ⟨hb, hheader, hlatch⟩ := h.within l ht.isLoop
      rw [ht.counted.latches_eq, List.mem_singleton] at hlatch
      have hbody : b = p.loop.bodyEntry :=
        ((ht.mem_blocks b hb).resolve_left hheader).resolve_right hlatch
      have hphi : (f.op p.loop.induction).isPhi = true :=
        Func.isPhi_of_mem_phis (ht.counted.phis_eq ▸ List.mem_singleton.mpr rfl)
      obtain ⟨i, hi, v, q, hop, hq⟩ := h.stores
      have hmem : i ∈ (f.body b).dropLast := by
        refine (hf.mem_dropLast_or h.live hi).resolve_right fun hlast => ?_
        have hterm := (mem_body_of_terminator hlast).2
        simp [hop, Op.isTerminator] at hterm
      obtain ⟨-, -, -, -, ⟨tt₂, hlower, -⟩, -⟩ := Vectorize.plan_eq_ok hp
      rw [← hbody] at hlower
      exact Vectorize.lowerBody_of_store hf h.live hop hq (Vectorize.keepsFixed_iv hphi)
        (fun j hj => List.dropLast_subset _ hj) hmem hlower

theorem vectorize_idle (h : f.Interwoven b) (hf : f.WellFormed) (hu : f.UsesListed)
    (config : VectorConfig) : (Pass.vectorize config).Idle tt f where
  unstuck tt' ht := Vectorize.vectorizeStuck_of_refused
    (fun l hl _ => Vectorize.planStuck_eq_false_of_anchored
      (hf.anchored hu (Vectorize.isLoop_of_innermost hl)) (Vectorize.isLoop_of_innermost hl)
      config _)
    (fun _ hl => h.vectorize_refused hf.framed hl) ht
  unchanged tt' ht := by
    change (f.vectorize config tt').changed = false
    unfold Func.vectorize
    split
    · rfl
    · exact (Vectorize.sweep_of_refused (fun _ hl => h.vectorize_refused hf.framed hl) ht _).2

end Func.Interwoven

end LoopNest
