import LoopNest.Proofs.Verified

/-!
# What is computed before a point

An instruction is *available* at a point of a block when it comes before that point in the
block, or stands in a block that dominates this one.  On every path to the point it has been
executed.

In a function that the verifier accepts, an instruction uses what is available where it stands
(`WellFormed.available_operand`), and a phi takes what is available at the end of the block
that control comes from (`WellFormed.available_incoming`).  Following an edge makes nothing
new available (`Available.of_edge`).

The verifier compares terminators by number and looks up owners by their record, so two
conditions have to be added: `TerminatorsLast` and `UsesListed`.
-/

namespace LoopNest

theorem Op.exists_of_isPhi {op : Op} (h : op.isPhi = true) : ∃ incoming, op = .phi incoming := by
  cases op with
  | phi incoming => exact ⟨incoming, rfl⟩
  | _ => cases h

namespace Func

/-! ## Conditions on the listing of instructions -/

/-- A terminator is listed at the end of its block and nowhere else. -/
def TerminatorsLast (f : Func) : Prop :=
  ∀ b ∈ f.layout, ∀ i ∈ (f.body b).dropLast, (f.op i).isTerminator = false

/-- The operands of live instructions that are results. -/
def usedInsts (f : Func) : List InstId :=
  f.liveInsts.flatMap fun i => (f.op i).operands.filterMap Operand.inst?

/-- What is used is listed in the block that it records. -/
def UsesListed (f : Func) : Prop :=
  ∀ j ∈ f.usedInsts, ∀ b ∈ f.owner j, j ∈ f.body b

/-- No block lists an instruction twice. -/
def ListedOnce (f : Func) : Prop := ∀ b ∈ f.layout, (f.body b).Nodup

instance (f : Func) : Decidable f.TerminatorsLast := by
  unfold TerminatorsLast
  infer_instance

instance (f : Func) : Decidable f.UsesListed := by
  unfold UsesListed
  infer_instance

instance (f : Func) : Decidable f.ListedOnce := by
  unfold ListedOnce
  infer_instance

variable {f : Func} {b c : BlockId} {done rest : List InstId} {i j : InstId}

theorem mem_usedInsts (hb : b ∈ f.layout) (hi : i ∈ f.body b)
    (hj : Operand.inst j ∈ (f.op i).operands) : j ∈ f.usedInsts := by
  refine List.mem_flatMap.mpr ⟨i, List.mem_flatMap.mpr ⟨b, hb, hi⟩, ?_⟩
  exact List.mem_filterMap.mpr ⟨.inst j, hj, rfl⟩

theorem usesListed_iff : f.UsesListed ↔ ∀ b ∈ f.layout, ∀ i ∈ f.body b, ∀ j,
    Operand.inst j ∈ (f.op i).operands → ∀ d, f.owner j = some d → j ∈ f.body d := by
  refine ⟨fun h b hb i hi j hj d hd => h j (mem_usedInsts hb hi hj) d hd, fun h j hj d hd => ?_⟩
  obtain ⟨i, hlive, hused⟩ := List.mem_flatMap.mp hj
  obtain ⟨b, hb, hi⟩ := List.mem_flatMap.mp hlive
  obtain ⟨v, hv, hinst⟩ := List.mem_filterMap.mp hused
  cases v with
  | inst k =>
    cases hinst
    exact h b hb i hi j hv d hd
  | _ => cases hinst

/-- An instruction of a block is its terminator or stands before it. -/
theorem Framed.mem_dropLast_or (hf : f.Framed) (hb : b ∈ f.layout) (hi : i ∈ f.body b) :
    i ∈ (f.body b).dropLast ∨ f.terminator? b = some i := by
  obtain ⟨t, ht⟩ := hf.ends b hb
  obtain ⟨⟨front, hfront⟩, _⟩ := terminator?_eq_some.mp ht
  rw [hfront, List.mem_append, List.mem_singleton] at hi
  rw [hfront, List.dropLast_concat]
  exact hi.imp_right fun (heq : i = t) => heq ▸ ht

/-- Where no instruction is listed twice, the last terminator is the only one. -/
theorem ListedOnce.terminatorsLast (h : f.ListedOnce) (hf : f.WellFormed) : f.TerminatorsLast := by
  intro b hb i hi
  by_contra ht
  rw [Bool.not_eq_false] at ht
  have hlast := hf.terminator_eq b hb i (List.dropLast_subset _ hi) ht
  unfold terminator? at hlast
  split at hlast
  · rename_i t hget
    split at hlast
    · cases hlast
      obtain ⟨pre, hpre⟩ := List.getLast?_eq_some_iff.mp hget
      have hnd := h b hb
      rw [hpre] at hnd hi
      rw [List.dropLast_concat] at hi
      exact (List.nodup_append.mp hnd).2.2 i hi i (List.mem_singleton.mpr rfl) rfl
    · cases hlast
  · cases hlast

/-! ## Points -/

/-- A point of a reachable block, after the phis: what was executed of the block, and what is
still to come. -/
structure Point (f : Func) (b : BlockId) (done rest : List InstId) : Prop where
  reachable : (FlowGraph.ofFunc f).Reachable b
  body_eq : f.body b = done ++ rest
  not_isPhi : ∀ i ∈ rest, (f.op i).isPhi = false

theorem Point.live (h : f.Point b done rest) : b ∈ f.layout := by
  have := h.reachable.live
  rwa [FlowGraph.blocks_ofFunc] at this

theorem Point.mem_body (h : f.Point b done (i :: rest)) : i ∈ f.body b := by
  rw [h.body_eq]
  simp

theorem Point.next (h : f.Point b done (i :: rest)) : f.Point b (done ++ [i]) rest :=
  ⟨h.reachable, by rw [h.body_eq, List.append_assoc, List.singleton_append],
    fun j hj => h.not_isPhi j (List.mem_cons_of_mem _ hj)⟩

/-- The first point of a block. -/
theorem WellFormed.point_afterPhis (hf : f.WellFormed) (hr : (FlowGraph.ofFunc f).Reachable b) :
    f.Point b (f.phis b) (f.afterPhis b) := by
  have hb := hr.live
  rw [FlowGraph.blocks_ofFunc] at hb
  exact ⟨hr, (f.phis_append_afterPhis b).symm, hf.phi_first b hb⟩

/-- A block does not end in another instruction than its terminator. -/
theorem WellFormed.rest_ne_nil (hf : f.WellFormed) (h : f.Point b done (i :: rest))
    (hi : (f.op i).isTerminator = false) : rest ≠ [] := by
  rintro rfl
  obtain ⟨t, ht⟩ := hf.ends b h.live
  unfold terminator? at ht
  rw [h.body_eq, List.getLast?_concat] at ht
  simp [hi] at ht

/-- Nothing follows a terminator. -/
theorem TerminatorsLast.rest_eq_nil (hl : f.TerminatorsLast) (h : f.Point b done (i :: rest))
    (hi : (f.op i).isTerminator = true) : rest = [] := by
  by_contra hne
  have hmem : i ∈ (f.body b).dropLast := by
    rw [h.body_eq, List.dropLast_append_of_ne_nil (List.cons_ne_nil _ _),
      List.dropLast_cons_of_ne_nil hne]
    simp
  rw [hl b h.live i hmem] at hi
  cases hi

/-- A terminator at a point is the one of the block. -/
theorem WellFormed.edge_of_point (hf : f.WellFormed) (h : f.Point b done (i :: rest))
    (hc : c ∈ (f.op i).targets) : (FlowGraph.ofFunc f).Edge b c := by
  have ht := hf.terminator_eq b h.live i h.mem_body (Op.isTerminator_of_mem_targets hc)
  have hsucc : c ∈ f.successors b := (mem_successors_iff ht).mpr hc
  exact (FlowGraph.edge_ofFunc f b c).mpr ⟨h.live, hf.successor_live b h.live c hsucc, hsucc⟩

/-! ## Availability -/

/-- The instruction comes before the point on every path to it. -/
def Available (f : Func) (b : BlockId) (done : List InstId) (j : InstId) : Prop :=
  j ∈ done ∨ ∃ d, d ≠ b ∧ (FlowGraph.ofFunc f).Dominates d b ∧ j ∈ f.body d

/-- An execution makes one more instruction available. -/
theorem available_concat :
    f.Available b (done ++ [i]) j ↔ f.Available b done j ∨ j = i := by
  simp only [Available, List.mem_append, List.mem_singleton]
  constructor
  · rintro ((h | h) | h)
    · exact .inl (.inl h)
    · exact .inr h
    · exact .inl (.inr h)
  · rintro ((h | h) | h)
    · exact .inl (.inl h)
    · exact .inr h
    · exact .inl (.inr h)

/-- What is available at the start of a block is so at the end of each predecessor. -/
theorem Available.of_edge (he : (FlowGraph.ofFunc f).Edge b c) (h : f.Available c [] j) :
    f.Available b (f.body b) j := by
  rcases h with h | ⟨d, hdc, hdom, hj⟩
  · exact absurd h List.not_mem_nil
  by_cases hdb : d = b
  · exact .inl (hdb ▸ hj)
  · exact .inr ⟨d, hdb, hdom.of_edge he hdc, hj⟩

/-- Nothing is available at the start of the entry. -/
theorem not_available_entry {e : BlockId} (he : f.entry? = some e) : ¬ f.Available e [] j := by
  rintro (h | ⟨d, hde, hdom, _⟩)
  · exact absurd h List.not_mem_nil
  · have hlive : e ∈ (FlowGraph.ofFunc f).blocks := by
      rw [FlowGraph.blocks_ofFunc]
      exact List.mem_of_head? he
    exact hde (List.mem_singleton.mp (hdom e [e] (f.entry?_ofFunc.trans he) (.here hlive)))

theorem reachable_entry {e : BlockId} (he : f.entry? = some e) :
    (FlowGraph.ofFunc f).Reachable e := by
  refine ⟨e, f.entry?_ofFunc.trans he, .refl ?_ trivial⟩
  rw [FlowGraph.blocks_ofFunc]
  exact List.mem_of_head? he

/-- What an instruction uses is available where it stands. -/
theorem WellFormed.available_operand (hf : f.WellFormed) (hl : f.UsesListed)
    (h : f.Point b done (i :: rest)) (hj : Operand.inst j ∈ (f.op i).operands) :
    f.Available b done j := by
  obtain ⟨d, hd, hdom, hsame⟩ := hf.use_dominated b h.live h.reachable i h.mem_body
    (h.not_isPhi i List.mem_cons_self) j hj
  by_cases hdb : d = b
  · exact .inl (hsame hdb done rest h.body_eq)
  · exact .inr ⟨d, hdb, hdom hdb, hl j (mem_usedInsts h.live h.mem_body hj) d hd⟩

/-- No instruction uses itself or what comes after it. -/
theorem WellFormed.not_mem_operands (hf : f.WellFormed) (ho : f.ListedOnce)
    (hr : (FlowGraph.ofFunc f).Reachable b) (hbody : f.body b = done ++ i :: rest)
    (hphi : (f.op i).isPhi = false) (hj : j ∈ i :: rest) : Operand.inst j ∉ (f.op i).operands := by
  intro hv
  have hlive : b ∈ f.layout := FlowGraph.blocks_ofFunc f ▸ hr.live
  have hi : i ∈ f.body b := by
    rw [hbody]
    exact List.mem_append_right _ List.mem_cons_self
  have hjb : j ∈ f.body b := by
    rw [hbody]
    exact List.mem_append_right _ hj
  obtain ⟨d, hd, _, hsame⟩ := hf.use_dominated b hlive hr i hi hphi j hv
  obtain rfl : d = b := Option.some.inj (hd.symm.trans (hf.owner_eq b hlive j hjb))
  have hnodup := ho d hlive
  rw [hbody] at hnodup
  exact (List.nodup_append.mp hnodup).2.2 j (hsame rfl done rest hbody) j hj rfl


theorem mem_of_incoming? {p : BlockId} {v : Operand} (h : f.incoming? i p = some v) :
    ∃ incoming, f.op i = .phi incoming ∧ (v, p) ∈ incoming := by
  unfold incoming? at h
  split at h
  · rename_i incoming hop
    obtain ⟨e, he, rfl⟩ := Option.map_eq_some_iff.mp h
    refine ⟨incoming, hop, ?_⟩
    have hp : e.2 = p := by simpa using List.find?_some he
    rw [← hp]
    exact List.mem_of_find?_eq_some he
  · cases h

/-- A phi takes what is available at the end of the block that control comes from. -/
theorem WellFormed.available_incoming (hf : f.WellFormed) (hl : f.UsesListed) (hc : c ∈ f.layout)
    (hi : i ∈ f.phis c) (hj : f.incoming? i b = some (.inst j)) :
    f.Available b (f.body b) j := by
  obtain ⟨incoming, hop, hmem⟩ := mem_of_incoming? hj
  have hbody := mem_body_of_phis hi
  have huse : Operand.inst j ∈ (f.op i).operands := by
    rw [hop]
    exact List.mem_map.mpr ⟨_, hmem, rfl⟩
  -- The operand exists, so it records a block.
  have hex := hf.operand_exists c hc i hbody _ huse
  obtain ⟨d, hd⟩ : ∃ d, f.owner j = some d := by
    simp only [Verify.operandExists, isLiveInst, Bool.and_eq_true] at hex
    cases hd : f.owner j with
    | none => simp [hd] at hex
    | some d => exact ⟨d, rfl⟩
  have hdom := hf.phi_dominated c hc i hbody incoming hop j b hmem d hd
  have hjd := hl j (mem_usedInsts hc hbody huse) d hd
  by_cases hdb : d = b
  · exact .inl (hdb ▸ hjd)
  · exact .inr ⟨d, hdb, hdom, hjd⟩

/-- A phi has an entry for the block that control comes from. -/
theorem WellFormed.exists_incoming (hf : f.WellFormed) (he : (FlowGraph.ofFunc f).Edge b c)
    (hi : i ∈ f.phis c) : ∃ v, f.incoming? i b = some v := by
  obtain ⟨hb, hc, hsucc⟩ := (FlowGraph.edge_ofFunc f b c).mp he
  obtain ⟨incoming, hop⟩ := Op.exists_of_isPhi (isPhi_of_mem_phis hi)
  have hmem := ((hf.phi_sources c hc i (mem_body_of_phis hi) incoming hop).2 b).mpr
    ((f.mem_predecessors b c).mpr ⟨hb, hsucc⟩)
  obtain ⟨e, he, heb⟩ := List.mem_map.mp hmem
  unfold incoming?
  rw [hop]
  have hsome : (incoming.find? fun e => e.2 = b).isSome := by
    rw [List.find?_isSome]
    exact ⟨e, he, by simpa using heb⟩
  obtain ⟨x, hx⟩ := Option.isSome_iff_exists.mp hsome
  exact ⟨x.1, by simp [hx]⟩

/-! ## Induction on what is used -/

/-- What holds of an instruction if it holds of what the instruction uses, holds of the instructions
of reachable blocks.  Nothing may be asked of what phis use.  What another instruction uses stands
before it in the block, or in a block that a shorter path leads to. -/
theorem WellFormed.use_induction {motive : InstId → Prop} (hf : f.WellFormed) (hl : f.UsesListed)
    (step : ∀ b ∈ f.layout, ∀ i ∈ f.body b,
      ((f.op i).isPhi = false → ∀ j, Operand.inst j ∈ (f.op i).operands → motive j) → motive i)
    (hr : (FlowGraph.ofFunc f).Reachable b) (hi : i ∈ f.body b) : motive i := by
  obtain ⟨e, he, trail, hp, -⟩ := hr
  obtain ⟨n, hn⟩ : ∃ n, trail.length = n := ⟨_, rfl⟩
  induction n using Nat.strong_induction_on generalizing b i trail with
  | _ n outer =>
    have hr : (FlowGraph.ofFunc f).Reachable b := ⟨e, he, trail, hp, fun _ _ => trivial⟩
    have hb : b ∈ f.layout := FlowGraph.blocks_ofFunc f ▸ hr.live
    -- Inside the block the induction is on the position.
    obtain ⟨pre, post, hbody⟩ := List.append_of_mem hi
    obtain ⟨k, hk⟩ : ∃ k, pre.length = k := ⟨_, rfl⟩
    induction k using Nat.strong_induction_on generalizing i pre post with
    | _ k inner =>
      refine step b hb i hi fun hphi j hj => ?_
      obtain ⟨d, hd, hdom, hsame⟩ := hf.use_dominated b hb hr i hi hphi j hj
      by_cases hdb : d = b
      · obtain ⟨pre₁, pre₂, hpre⟩ := List.append_of_mem (hsame hdb pre post hbody)
        have hbody' : f.body b = pre₁ ++ j :: (pre₂ ++ i :: post) := by
          rw [hbody, hpre]
          simp
        refine inner pre₁.length ?_ ?_ pre₁ _ hbody' rfl
        · rw [← hk, hpre]
          simp
        · rw [hbody']
          exact List.mem_append_right _ List.mem_cons_self
      · have hmem := hdom hdb e trail he hp
        obtain ⟨t, ht, hlt⟩ := hp.exists_prefix hmem
        exact outer t.length (hn ▸ hlt hdb) (hl j (mem_usedInsts hb hi hj) d hd) t ht rfl

end Func

end LoopNest
