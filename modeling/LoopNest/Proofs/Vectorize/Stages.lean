import LoopNest.Proofs.Vectorize.Visits

/-!
# One round preserves results

At the entry of a kept block both functions are about to do the same (`Abreast`).  When the vector
loop was entered, the old function is at the header of its loop, and about to do in consecutive laps
what the other one does in one (`Leading`).  Where the vector loop ends, the functions meet at the
header of the old loop, or at its exit if nothing is left over.
-/

namespace LoopNest

open Func FlowGraph

namespace Vectorize

section

variable (tt : TypeTable) (config : VectorConfig) (args : List Datum) (l : NaturalLoop)
  (p : VectorPlan) (n : VectorLoop) (f g : Func) (nb : Nat)

/-- Both functions are about to visit a kept block. -/
structure Abreast (q q' : Option BlockId) (b : BlockId) (s t : Snapshot) : Prop where
  kept : Kept l n (ended config f p) b
  reachable : (ofFunc f).Reachable b
  current : s.values.Agree (Current f l b) t.values
  phis : ∀ i ∈ f.phis b, phiValue tt g args q' t.values i = phiValue tt f args q s.values i
  regions : s.regions = t.regions
  typed : s.values.Typed tt f
  traced : ∃ made, Traced f args nb made s

/-- Both functions are about to test the same induction value in the headers of their loops. -/
structure Leading (q q' : Option BlockId) (s t : Snapshot) : Prop where
  testing : ∃ made x y e, Testing tt (planSite config f l p) args nb made q s x y ∧
    phiValue tt g args q' t.values n.iv = some (.int x) ∧
    g.value tt args t.values n.stop = some (.int e) ∧ Ends config.width (!p.epilogue) x y e
  current : s.values.Agree (Current f l l.header) t.values
  regions : s.regions = t.regions

/-- Both functions at the entries of blocks. -/
inductive Stage : Option BlockId → Option BlockId → BlockId → BlockId → Snapshot → Snapshot → Prop
  | kept {q q' : Option BlockId} {b : BlockId} {s t : Snapshot} :
    Abreast tt config args l p n f g nb q q' b s t → Stage q q' b b s t
  | vector {q q' : Option BlockId} {s t : Snapshot} :
    Leading tt config args l p n f g nb q q' s t → Stage q q' l.header n.blocks.header s t

/-- Executions of the old function of some length have a counterpart, from all stages on. -/
def Simulated (k : Nat) : Prop :=
  ∀ {q q' : Option BlockId} {b b' : BlockId} {s t : Snapshot} {d : Datum} {rs : Array Region},
    Stage tt config args l p n f g nb q q' b b' s t → Executes tt f args q b s d rs k →
    ∃ k', Executes tt g args q' b' t d rs k'

end

namespace Round

variable {tt : TypeTable} {config : VectorConfig} {args : List Datum} {l : NaturalLoop}
  {p : VectorPlan} {n : VectorLoop} {T : LaneShapes} {f g : Func} {nb k : Nat} {b c : BlockId}
  {q q' : Option BlockId} {s s' t t' : Snapshot} {δ : List Chunk} {d : Datum} {rs : Array Region}
  (r : Round tt config args l p n T f g)

include r

/-! ## From kept blocks -/

/-- After a visit of a kept block both functions are abreast again. -/
theorem abreast_of_visit (h : Abreast tt config args l p n f g nb q q' b s t)
    (hne : b ≠ p.loop.preheader) (hv : Visit tt f args q b s δ s' (.goto c))
    (hag : s'.values.Agree (fun j => Current f l b j ∨ j ∈ f.phis b ∨ j ∈ f.code b) t'.values)
    (hrs : s'.regions = t'.regions) :
    Abreast tt config args l p n f g nb (some b) (some b) c s' t' := by
  have hs := hv.mem_successors
  have hlive := r.live_of_kept h.kept
  have hclive := r.wellFormed.successor_live b hlive c hs
  have hkept : Kept l n (ended config f p) c := by
    refine ⟨r.prepares.live hclive, fun hm hc => ?_⟩
    exact hne (CountedLoop.eq_preheader_of_edge r.isLoop r.counted h.reachable (h.kept.2 hm) hc hs).1
  exact ⟨hkept, h.reachable.edge ((edge_ofFunc f b c).mpr ⟨hlive, hclive, hs⟩),
    fun j hj => hag j (r.current_of_edge h.reachable hs hj),
    fun i hi => r.phiValue_eq h.reachable hne hkept hs hag hi, hrs,
    h.typed.visit r.wellFormed r.laned.wellTyped r.laned.data hlive hv,
    h.traced.elim fun _ htr => htr.visit hv⟩

variable (ih : ∀ m, m < k → Simulated tt config args l p n f g nb m)

include ih

theorem simulated_preheader (h : Abreast tt config args l p n f g nb q q' p.loop.preheader s t)
    (hex : Executes tt f args q p.loop.preheader s d rs k) :
    ∃ k', Executes tt g args q' p.loop.preheader t d rs k' := by
  cases hex with
  | ret hv => exact absurd hv.successors_of_ret (by simp [r.counted.preheader_succ])
  | @goto _ _ c _ s' _ _ _ m hv hrest =>
    obtain rfl : c = l.header := by
      have hs := hv.mem_successors
      rwa [r.counted.preheader_succ, List.mem_singleton] at hs
    -- The header of the old loop is going to test numbers.
    obtain ⟨x, y, hx, hy⟩ : ∃ x y,
        phiValue tt f args (some p.loop.preheader) s'.values p.loop.induction = some (.int x) ∧
        f.value tt args s'.values p.loop.bound = some (.int y) := by
      cases hrest with
      | ret hv' =>
        obtain ⟨x, y, hx, hy, _⟩ := r.laned.visit_header hv'
        exact ⟨x, y, hx, hy⟩
      | goto hv' _ =>
        obtain ⟨x, y, hx, hy, _⟩ := r.laned.visit_header hv'
        exact ⟨x, y, hx, hy⟩
    have hstart : f.value tt args s'.values p.loop.start = some (.int x) := by
      rwa [phiValue, Option.bind_some, r.counted.start_eq] at hx
    obtain ⟨t', e, hv', hag, hrs, hiv, hstop, hends⟩ := r.visit_preheader hv h.current h.phis
      h.regions hstart hy
    obtain ⟨made, htr⟩ := h.traced
    obtain ⟨made', htr'⟩ := htr.visit hv
    obtain ⟨k', hex'⟩ := ih m (by unfold Func.cost; omega) (.vector ⟨⟨made', x, y, e,
      ⟨hx, hy, h.typed.visit r.wellFormed r.laned.wellTyped r.laned.data (r.live_of_kept h.kept) hv,
        htr'⟩, hiv, hstop, hends⟩, hag, hrs⟩) hrest
    exact ⟨_, .goto hv' hex'⟩

theorem simulated_kept (h : Abreast tt config args l p n f g nb q q' b s t)
    (hex : Executes tt f args q b s d rs k) : ∃ k', Executes tt g args q' b t d rs k' := by
  by_cases hne : b = p.loop.preheader
  · subst hne
    exact r.simulated_preheader ih h hex
  cases hex with
  | ret hv =>
    obtain ⟨t', hv', _, hrs⟩ := r.visit_kept h.kept hne h.reachable hv h.current h.phis h.regions
    rw [hrs]
    exact ⟨_, .ret hv'⟩
  | @goto _ _ c _ s' _ _ _ m hv hrest =>
    obtain ⟨t', hv', hag, hrs⟩ := r.visit_kept h.kept hne h.reachable hv h.current h.phis h.regions
    obtain ⟨k', hex'⟩ := ih m (by unfold Func.cost; omega)
      (.kept (r.abreast_of_visit h hne hv hag hrs)) hrest
    exact ⟨_, .goto hv' hex'⟩

/-! ## From the headers of the loops -/

omit ih in
/-- Blocks outside of the loop are kept, and computed by nothing that is new. -/
theorem not_mem_new_of_outside {d : BlockId} (hd : d ∈ f.layout) (hout : d ∉ l.blocks) {j : InstId}
    (hj : j ∈ f.body d) (hb : b ∈ [n.blocks.header, n.blocks.body, n.blocks.latch]) : j ∉ g.body b := by
  have hkept := r.kept_of_live hd hout
  exact r.not_mem_new hkept (r.splicing.owner_eq d hkept j (r.mem_ended hkept hj)) hb

omit ih in
theorem spares_of_outside {d : BlockId} (hd : d ∈ f.layout) (hout : d ∉ l.blocks) {j : InstId}
    (hj : j ∈ f.body d) : l.Spares f j := fun b hb hjb => by
  have hown := r.wellFormed.owner_eq d hd j hj
  rw [r.wellFormed.owner_eq b (CountedLoop.live_of_mem r.isLoop hb) j hjb] at hown
  cases hown
  exact hout hb

omit ih in
/-- The vector loop changes nothing that is current at the old header. -/
theorem current_of_new {ρ ρ' σ σ' : Values} (hag : ρ.Agree (Current f l l.header) σ)
    (hs : ∀ j, l.Spares f j → ρ' j = ρ j)
    (ht : ∀ j, (∀ b ∈ [n.blocks.header, n.blocks.body, n.blocks.latch], j ∉ g.body b) →
      σ' j = σ j) : ρ'.Agree (Current f l l.header) σ' := by
  intro j hj
  obtain ⟨d, hd, hout, hjd⟩ := r.current_header hj
  rw [ht j fun b hb => r.not_mem_new_of_outside hd hout hjd hb, ← hag j hj,
    hs j (r.spares_of_outside hd hout hjd)]

/-- Below its end, the vector loop does in one lap what the old loop does in as many turns as there
are lanes. -/
theorem simulated_lap (hsep : Separate f args nb) {made : Origins} {x y e : Int64}
    (ht : Testing tt (planSite config f l p) args nb made q s x y)
    (hx : phiValue tt g args q' t.values n.iv = some (.int x))
    (he : g.value tt args t.values n.stop = some (.int e))
    (hends : Ends config.width (!p.epilogue) x y e)
    (hag : s.values.Agree (Current f l l.header) t.values) (hrs : s.regions = t.regions)
    (hlt : x.toUInt64.toNat < e.toUInt64.toNat)
    (hex : Executes tt f args q l.header s d rs k) :
    ∃ k', Executes tt g args q' n.blocks.header t d rs k' := by
  have hnew := r.splicing.newLoop
  obtain ⟨hle, hends'⟩ := hends.step hlt
  obtain ⟨V, X, q₁, s₁, k₁, hturns, hk, hex₁, ht₁, hrs₁, hspared⟩ := r.laned.turns ht hle hex
  have hL := lanes_of_turns hturns
  rw [hrs] at hL
  have hv₁ := r.visit_header hx he
  rw [if_pos hlt] at hv₁
  generalize hdef : (⟨(t.values.set n.iv (.int x)).set n.cond
    (.bool (decide (x.toUInt64.toNat < e.toUInt64.toNat))), t.regions⟩ : Snapshot) = t₁ at hv₁
  have hrs' : t₁.regions = t.regions := by rw [← hdef]
  have hiv : t₁.values n.iv = some (.int x) := by
    rw [← hdef]
    exact (Values.set_of_ne hnew.iv_ne_cond).trans (Values.set_self _ _ _)
  have hold₁ : ∀ j, j ∉ g.body n.blocks.header → t₁.values j = t.values j :=
    fun j hj => hv₁.values_of_not_mem_body hj
  obtain ⟨δ, t₂, hv₂, hrs₂, hval₂⟩ : ∃ δ t₂, Visit tt g args (some n.blocks.header) n.blocks.body t₁
      δ t₂ (.goto n.blocks.latch) ∧ _ := r.visit_body hsep (hrs' ▸ hL) hiv fun d hd hout j hj => by
      rw [hold₁ j (r.not_mem_new_of_outside hd hout hj (by simp)), ← hag j (.inl ⟨d, hd, hout, hj⟩)]
      exact ((hturns 0 r.width_pos).spared j (r.spares_of_outside hd hout hj)).symm
  have hiv₂ : t₂.values n.iv = some (.int x) := (hval₂ n.iv hnew.iv_not_mem_code).trans hiv
  obtain ⟨hv₃, hx₃⟩ : Visit tt g args (some n.blocks.body) n.blocks.latch t₂ [] _ _ ∧ _ :=
    r.visit_latch hiv₂
  have hold : ∀ j, (∀ b ∈ [n.blocks.header, n.blocks.body, n.blocks.latch], j ∉ g.body b) →
      t₂.values.set n.next (.int (x + .ofNat config.width)) j = t.values j := fun j hj => by
    have hbody : j ∉ n.code := fun hmem => hj n.blocks.body (by simp) (by simp [hnew.body_body, hmem])
    have hlatch := hv₃.values_of_not_mem_body (hj n.blocks.latch (by simp))
    exact hlatch.trans ((hval₂ j hbody).trans (hold₁ j (hj n.blocks.header (by simp))))
  have hrs₃ : s₁.regions = (Snapshot.mk (t₂.values.set n.next (.int (x + .ofNat config.width)))
      t₂.regions).regions := by rw [hrs₁, hrs, hrs₂, hrs']
  obtain ⟨k', hex'⟩ := ih k₁ (by have := r.width_pos; omega)
    (.vector ⟨⟨made, _, y, e, ht₁, hx₃, (r.value_stop hold).trans he, hends'⟩,
      r.current_of_new hag hspared hold, hrs₃⟩) hex₁
  exact ⟨_, .goto hv₁ (.goto hv₂ (.goto hv₃ hex'))⟩

omit ih in
theorem middle_cases : (∃ m, n.blocks.middle = some m) ∧ p.epilogue = true ∨
    n.blocks.middle = none ∧ p.epilogue = false := by
  have hblocks := r.splicing.blocks_eq
  cases hep : p.epilogue with
  | true =>
    refine .inl ⟨⟨(ended config f p).blocks.size + 3, ?_⟩, rfl⟩
    rw [hblocks, freshBlocks, if_pos hep]
  | false =>
    refine .inr ⟨?_, rfl⟩
    rw [hblocks, freshBlocks, if_neg (by simp [hep])]

omit ih in
/-- The old loop starts where the vector loop ended. -/
theorem incoming?_middle {m : BlockId} (hm : n.blocks.middle = some m) :
    g.incoming? p.loop.induction m = some n.stop := by
  obtain ⟨incoming, hop, hstart, _⟩ := r.planned.incoming_eq
  have hop' : (ended config f p).op p.loop.induction = .phi incoming :=
    (r.prepares.inserts.op_eq (r.inst_lt r.planned.header_live r.planned.mem_header.1)).trans hop
  have hne : ∀ e ∈ incoming, e.2 ≠ m := fun e he heq => by
    have hpred := ((r.wellFormed.phi_sources _ r.planned.header_live _ r.planned.mem_header.1 incoming
      hop).2 e.2).mp (List.mem_map_of_mem he)
    have hlive := ((f.mem_predecessors _ _).mp hpred).1
    exact r.splicing.not_mem_of_live (r.prepares.live hlive) (heq ▸ VectorLoop.middle_mem hm)
  obtain ⟨e, hfind⟩ : ∃ e, incoming.find? (fun e => decide (e.2 = p.loop.preheader)) = some e :=
    Option.isSome_iff_exists.mp (List.find?_isSome.mpr ⟨_, hstart, by simp⟩)
  have hcongr : incoming.find? ((fun e : Operand × BlockId => decide (e.2 = m)) ∘
      fun e => if e.2 = p.loop.preheader then (n.stop, m) else e) = some e := by
    rw [← hfind]
    refine List.find?_congr fun e he => ?_
    by_cases heq : e.2 = p.loop.preheader
    · simp [heq]
    · simp [heq, hne e he]
  have hph : e.2 = p.loop.preheader := by simpa using List.find?_some hfind
  simp only [incoming?, r.splicing.induction_op m hm incoming hop', List.find?_map, hcongr,
    Option.map_some, if_pos hph]

/-- When the last turn was taken, both functions leave their loops. -/
theorem simulated_exit {made : Origins} {x : Int64}
    (ht : Testing tt (planSite config f l p) args nb made q s x x) {t₁ : Snapshot}
    (hag : s.values.Agree (Current f l l.header) t.values) (hrs : s.regions = t₁.regions)
    (hold : ∀ j, (∀ b ∈ [n.blocks.header, n.blocks.body, n.blocks.latch], j ∉ g.body b) →
      t₁.values j = t.values j)
    (hex : Executes tt f args q l.header s d rs k) :
    ∃ k', Executes tt g args (some n.blocks.header) p.loop.exit t₁ d rs k' := by
  cases hex with
  | ret hv =>
    obtain ⟨_, _, _, _, _, _, hnext⟩ := r.laned.visit_header hv
    cases hnext
  | @goto _ _ c _ s' _ _ _ m hv hrest =>
    obtain ⟨x', y', hx', hy', -, hs', hnext⟩ := r.laned.visit_header hv
    cases hx'.symm.trans ht.counts
    cases hy'.symm.trans ht.bound
    rw [if_neg (Nat.lt_irrefl _)] at hnext
    cases hnext
    have hout := r.counted.exit_out
    have hlive := r.laned.header_live
    have hkept := r.kept_of_live (r.wellFormed.successor_live _ hlive _ hv.mem_successors) hout
    have hspared : ∀ j, l.Spares f j → s'.values j = s.values j :=
      fun j hj => hv.values_of_not_mem_body (hj _ r.isLoop.header_mem)
    have hab : Abreast tt config args l p n f g nb (some l.header) (some n.blocks.header)
        p.loop.exit s' t₁ := by
      refine ⟨hkept, r.isLoop.reachable.edge ((edge_ofFunc f _ _).mpr ⟨hlive, r.live_of_kept hkept,
        hv.mem_successors⟩), fun j hj => ?_, fun i hi => ?_, ?_,
        ht.typed.visit r.wellFormed r.laned.wellTyped r.laned.data hlive hv, ht.traced.visit hv⟩
      · exact r.current_of_new hag hspared hold j (.inl (hj.resolve_right fun hin => hout hin.1))
      · rw [r.planned.exit_phis] at hi
        cases hi
      · rw [hs']
        exact hrs
    exact ih m (by unfold Func.cost; omega) (.kept hab) hrest

/-- Where the vector loop ends, the old loop goes on. -/
theorem simulated_end {made : Origins} {x y : Int64}
    (ht : Testing tt (planSite config f l p) args nb made q s x y)
    (hx : phiValue tt g args q' t.values n.iv = some (.int x))
    (he : g.value tt args t.values n.stop = some (.int x))
    (hends : Ends config.width (!p.epilogue) x y x)
    (hag : s.values.Agree (Current f l l.header) t.values) (hrs : s.regions = t.regions)
    (hex : Executes tt f args q l.header s d rs k) :
    ∃ k', Executes tt g args q' n.blocks.header t d rs k' := by
  have hv₁ := r.visit_header hx he
  rw [if_neg (Nat.lt_irrefl _)] at hv₁
  generalize hdef : (⟨(t.values.set n.iv (.int x)).set n.cond
    (.bool (decide (x.toUInt64.toNat < x.toUInt64.toNat))), t.regions⟩ : Snapshot) = t₁ at hv₁
  have hrs' : s.regions = t₁.regions := by rw [hrs, ← hdef]
  have hold : ∀ j, (∀ b ∈ [n.blocks.header, n.blocks.body, n.blocks.latch], j ∉ g.body b) →
      t₁.values j = t.values j := fun j hj => hv₁.values_of_not_mem_body (hj _ (by simp))
  rcases r.middle_cases with ⟨⟨m, hm⟩, _⟩ | ⟨hm, hep⟩
  · -- The rest is left to the old loop.
    rw [hm, Option.getD_some] at hv₁
    have hphi : ∀ i ∈ f.phis l.header,
        phiValue tt g args (some m) t₁.values i = phiValue tt f args q s.values i := fun i hi => by
      rw [r.counted.phis_eq, List.mem_singleton] at hi
      rw [hi, phiValue, Option.bind_some, r.incoming?_middle hm, Option.bind_some, r.value_stop hold,
        he]
      exact ht.counts.symm
    obtain ⟨k', hex'⟩ := r.simulated_kept ih ⟨r.splicing.kept_header hm, r.isLoop.reachable,
      r.current_of_new hag (fun _ _ => rfl) hold, hphi, hrs', ht.typed, made, ht.traced⟩ hex
    exact ⟨_, .goto hv₁ (.goto (r.visit_middle hm) hex')⟩
  · -- Nothing is left.
    rw [hm, Option.getD_none] at hv₁
    obtain rfl := hends.eq_bound (by simp [hep])
    obtain ⟨k', hex'⟩ := r.simulated_exit ih ht hag hrs' hold hex
    exact ⟨_, .goto hv₁ hex'⟩

theorem simulated_vector (hsep : Separate f args nb)
    (h : Leading tt config args l p n f g nb q q' s t) (hex : Executes tt f args q l.header s d rs k) :
    ∃ k', Executes tt g args q' n.blocks.header t d rs k' := by
  obtain ⟨made, x, y, e, ht, hx, he, hends⟩ := h.testing
  by_cases hlt : x.toUInt64.toNat < e.toUInt64.toNat
  · exact r.simulated_lap ih hsep ht hx he hends h.current h.regions hlt hex
  · obtain rfl := hends.eq_end hlt
    exact r.simulated_end ih ht hx he hends h.current h.regions hex

omit ih

/-! ## Whole runs -/

/-- Every execution of the old function has a counterpart. -/
theorem simulated (hsep : Separate f args nb) (k : Nat) :
    Simulated tt config args l p n f g nb k := by
  induction k using Nat.strong_induction_on with
  | _ k ih =>
    intro q q' b b' s t d rs hstage hex
    cases hstage with
    | kept h => exact r.simulated_kept ih h hex
    | vector h => exact r.simulated_vector ih hsep h hex

/-- A run from the entry. -/
theorem executes (hsep : Separate f args nb) {e : BlockId} (he : f.entry? = some e)
    {rs₀ : Array Region} (hbase : rs₀.size = nb)
    (hex : Executes tt f args none e ⟨fun _ => none, rs₀⟩ d rs k) :
    ∃ k', Executes tt g args none e ⟨fun _ => none, rs₀⟩ d rs k' := by
  have hlive : e ∈ f.layout := List.mem_of_head? he
  have hr : (ofFunc f).Reachable e := by
    refine ⟨e, ?_, .refl ?_ trivial⟩
    · rw [FlowGraph.entry?, blocks_ofFunc]
      exact he
    · rw [blocks_ofFunc]
      exact hlive
  have hout := CountedLoop.entry_not_mem r.wellFormed.entry_predecessors r.isLoop r.counted he
  have htyped : Values.Typed tt f fun _ => none := fun _ _ h => by cases h
  have htr : Traced f args nb (fun _ => none) ⟨fun _ => none, rs₀⟩ :=
    ⟨fun _ _ h => (by cases h), Nat.le_of_eq hbase.symm, fun _ _ h => (by cases h)⟩
  have hab : Abreast tt config args l p n f g nb none none e ⟨fun _ => none, rs₀⟩
      ⟨fun _ => none, rs₀⟩ :=
    ⟨r.kept_of_live hlive hout, hr, fun _ _ => rfl, fun _ _ => rfl, rfl, htyped, _, htr⟩
  exact r.simulated hsep k (.kept hab) hex

end Round

end Vectorize

end LoopNest
