import LoopNest.Proofs.Fusion.Moved

/-!
# Running the inner loop again

What the inner loop of an accepted nest does depends on values from outside the nest, and on
regions that neither the inner loop nor the rest of the outer one writes.  So wherever it is
run in the course of one execution of the outer loop, it writes the same chunks
(`Nest.replay`).  This holds inside the original function and inside the moved one; a `Host`
is a function that holds the inner loop, with the block from which it is entered there and the
block to which it leaves.
-/

namespace LoopNest

/-! ## Computed values -/

/-- Only phis and code have values. -/
def Computed (f : Func) (ρ : Values) : Prop :=
  ∀ j d, ρ j = some d → ∃ b ∈ f.layout, j ∈ f.phis b ∨ j ∈ f.code b

section

variable {tt : TypeTable} {f : Func} {args : List Datum}

/-- A visit of the block in any function where it has the same instructions. -/
theorem Computed.visit {F : Func} {source : Option BlockId} {b : BlockId} {s s' : Snapshot}
    {δ : List Chunk} {x : Next} (h : Computed f s.values) (hb : b ∈ f.layout)
    (hF : f.SameCode tt F b) (hv : Visit tt F args source b s δ s' x) : Computed f s'.values := by
  intro j d hj
  by_cases hp : j ∈ f.phis b
  · exact ⟨b, hb, .inl hp⟩
  · by_cases hc : j ∈ f.code b
    · exact ⟨b, hb, .inr hc⟩
    · rw [hv.values_of_not_mem (hF.phis_eq ▸ hp) (hF.code_eq ▸ hc)] at hj
      exact h j d hj

theorem Computed.segment {ok : BlockId → Prop} (hf : f.WellFormed) (hok : ∀ b, ok b → b ∈ f.layout)
    {q q' : Option BlockId} {b b' : BlockId} {s s' : Snapshot} {δ : List Chunk} {n : Nat}
    (h : Computed f s.values) (hseg : Segment tt f args ok q b s δ q' b' s' n) :
    Computed f s'.values := by
  induction hseg with
  | refl => exact h
  | step hb hv _ ih =>
    refine ih (h.visit (hok _ hb) (Func.Relinked.refl.sameCode tt fun i hi => ?_) hv)
    exact hf.not_isPhi_of_code (hok _ hb) hi

/-- In a block, only phis and code have values. -/
theorem Computed.eq_none {ρ : Values} (h : Computed f ρ) (hf : f.WellFormed) {b : BlockId}
    {j : InstId} (hj : f.owner j = some b) (hp : j ∉ f.phis b) (hc : j ∉ f.code b) :
    ρ j = none := by
  cases hv : ρ j with
  | none => rfl
  | some d =>
    obtain ⟨c, hlive, hmem⟩ := h j d hv
    have hown : f.owner j = some c := by
      refine hf.owner_eq c hlive j ?_
      rcases hmem with hm | hm
      · exact Func.mem_body_of_phis hm
      · exact Func.mem_body_of_code hm
    rw [hj] at hown
    cases hown
    rcases hmem with hm | hm
    · exact absurd hm hp
    · exact absurd hm hc

end

namespace Fusion

/-! ## Memory of a nest -/

/-- The regions that stores in some blocks may go to. -/
def Written (f : Func) (args : List Datum) (made : Origins) (bs : BlockId → Prop) (r : Nat) : Prop :=
  ∃ b, bs b ∧ ∃ i ∈ f.body b, ∃ v q, f.op i = .store v q ∧ (f.place q).root.Covers args made r

variable {tt : TypeTable} {f : Func} {outer inner : NaturalLoop} {p : Plan} {args : List Datum}
  {base : Nat} {made : Origins} {s : Snapshot}

namespace Nest

/-- The blocks of the outer loop around the inner one. -/
def Rest (outer inner : NaturalLoop) (b : BlockId) : Prop := b ∈ outer.blocks ∧ b ∉ inner.blocks

theorem mem_rest {b : BlockId} (hb : Rest outer inner b) :
    b ∈ outer.blocks.filter fun b => !inner.contains b :=
  List.mem_filter.mpr ⟨hb.1, by simpa [NaturalLoop.contains] using hb.2⟩

variable (h : Nest tt f outer inner p) (hsep : Separate f args base)
  (htr : Traced f args base made s)

include h hsep htr

/-- The inner loop does not read what it writes. -/
theorem not_written_of_load {b : BlockId} (hb : b ∈ inner.blocks) {i : InstId} (hi : i ∈ f.body b)
    {q : Operand} (hop : f.op i = .load q) {r : Nat} (hr : (f.place q).root.Covers args made r) :
    ¬ Written f args made (· ∈ inner.blocks) r := by
  rintro ⟨c, hc, k, hk, v, w, hst, hw⟩
  have halias := MemRoot.mayAlias_of_covers hsep htr hr hw
  have hown := h.no_own_reads
  unfold readsOwnWrites at hown
  rw [List.any_eq_false] at hown
  have := hown _ (MemAccess.store_access hc hk hst)
  simp only [AccessKind.writes, Bool.true_and, Bool.not_eq_true, List.any_eq_false] at this
  have := this _ (MemAccess.load_access hb hi hop)
  simp [AccessKind.reads, halias] at this

/-- The inner loop does not read what the rest writes. -/
theorem not_rest_of_load {b : BlockId} (hb : b ∈ inner.blocks) {i : InstId} (hi : i ∈ f.body b)
    {q : Operand} (hop : f.op i = .load q) {r : Nat} (hr : (f.place q).root.Covers args made r) :
    ¬ Written f args made (Rest outer inner) r := by
  rintro ⟨c, hc, k, hk, v, w, hst, hw⟩
  have halias := MemRoot.mayAlias_of_covers hsep htr hr hw
  have := h.no_conflict _ (MemAccess.load_access hb hi hop) _ (MemAccess.store_access (mem_rest hc) hk hst) rfl
  rw [halias] at this
  cases this

/-- The rest does not read what the inner loop writes. -/
theorem not_written_of_rest_load {b : BlockId} (hb : Rest outer inner b) {i : InstId}
    (hi : i ∈ f.body b) {q : Operand} (hop : f.op i = .load q) {r : Nat}
    (hr : (f.place q).root.Covers args made r) : ¬ Written f args made (· ∈ inner.blocks) r := by
  rintro ⟨c, hc, k, hk, v, w, hst, hw⟩
  have halias := MemRoot.mayAlias_of_covers hsep htr hw hr
  have := h.no_conflict _ (MemAccess.store_access hc hk hst) _ (MemAccess.load_access (mem_rest hb) hi hop) rfl
  rw [halias] at this
  cases this

/-- The rest does not write what the inner loop writes. -/
theorem not_written_of_rest {r : Nat} (hr : Written f args made (Rest outer inner) r) :
    ¬ Written f args made (· ∈ inner.blocks) r := by
  obtain ⟨b, hb, i, hi, v, w, hst, hw⟩ := hr
  rintro ⟨c, hc, k, hk, v', w', hst', hw'⟩
  have halias := MemRoot.mayAlias_of_covers hsep htr hw' hw
  have := h.no_conflict _ (MemAccess.store_access hc hk hst') _ (MemAccess.store_access (mem_rest hb) hi hst) rfl
  rw [halias] at this
  cases this

end Nest

/-! ## Hosts -/

/-- A function that holds the inner loop.  It is entered from `source` there, and leaves to
`exit`. -/
structure Host (f F : Func) (inner : NaturalLoop) (p : Plan) (source exit : BlockId) : Prop where
  relinked : f.Relinked F
  start_eq : F.incoming? p.inner.induction source =
    f.incoming? p.inner.induction p.inner.preheader
  incoming_eq : ∀ b ∈ inner.blocks, ∀ i ∈ f.phis b, ∀ q ∈ inner.blocks,
    F.incoming? i q = f.incoming? i q
  terminator_eq : ∀ b ∈ inner.blocks, b ≠ inner.header → ∀ t, f.terminator? b = some t →
    F.op t = f.op t
  exit_eq : ∀ t, f.terminator? inner.header = some t →
    F.op t = .condBr (.inst p.inner.cond) p.inner.bodyEntry exit

namespace Nest

variable (h : Nest tt f outer inner p)

include h

/-- The inner loop where it is. -/
theorem host_self : Host f f inner p p.inner.preheader p.inner.exit where
  relinked := .refl
  start_eq := rfl
  incoming_eq _ _ _ _ _ _ := rfl
  terminator_eq _ _ _ _ _ := rfl
  exit_eq t ht := by
    obtain ⟨t', ht', hop⟩ := h.inner_counted.exitBranch
    rw [ht] at ht'
    cases ht'
    exact hop

/-- The inner loop after the move. -/
theorem host_apply : Host f (apply f p) inner p outer.header p.outer.exit where
  relinked := relinked_apply f p
  start_eq := by
    have := h.incoming_induction (.inl rfl)
    rwa [if_pos rfl] at this
  incoming_eq b hb i hi q hq := by
    by_cases hbh : b = inner.header
    · subst hbh
      rw [h.inner_counted.phis_eq, List.mem_singleton] at hi
      subst hi
      have := h.incoming_induction (.inr hq)
      rwa [if_neg] at this
      rintro rfl
      exact h.inner_counted.preheader_out hq
    · unfold Func.incoming?
      rw [h.op_phi (CountedLoop.live_of_mem h.inner_loop hb) hi hbh]
  terminator_eq b hb hne t ht := by
    refine h.op_terminator (CountedLoop.live_of_mem h.inner_loop hb) ht hne ?_ ?_
    · rintro rfl
      exact h.header_out hb
    · rintro rfl
      exact h.inner_counted.preheader_out hb
  exit_eq t ht := h.op_innerHeader ht

end Nest

/-! ## Replaying -/

/-- The same values from outside the nest, and from the inner blocks that dominate a block. -/
def Agrees (f : Func) (outer inner : NaturalLoop) (q : BlockId) (ρ σ : Values) : Prop :=
  ∀ j d, f.owner j = some d →
    d ∉ outer.blocks ∨ d ∈ inner.blocks ∧ (FlowGraph.ofFunc f).Dominates d q → ρ j = σ j

/-- The regions that neither loop writes. -/
def Untouched (f : Func) (outer inner : NaturalLoop) (args : List Datum) (made : Origins)
    (r : Nat) : Prop :=
  ¬ Written f args made (· ∈ inner.blocks) r ∧ ¬ Written f args made (Nest.Rest outer inner) r

/-- Where control comes from in the original function and in the host. -/
def Comes (inner : NaturalLoop) (p : Plan) (source q q' : BlockId) : Prop :=
  q = p.inner.preheader ∧ q' = source ∨ q ∈ inner.blocks ∧ q' = q

/-- Where control goes to in the original function and in the host. -/
def Goes (inner : NaturalLoop) (p : Plan) (exit b c c' : BlockId) : Prop :=
  c ∈ inner.blocks ∧ c' = c ∨ b = inner.header ∧ c = p.inner.exit ∧ c' = exit

namespace Nest

variable (h : Nest tt f outer inner p)

include h

theorem not_dominates_preheader {d : BlockId} (hd : d ∈ inner.blocks) :
    ¬ (FlowGraph.ofFunc f).Dominates d p.inner.preheader := by
  intro hdom
  -- The preheader would be a latch.
  have hlatch : p.inner.preheader ∈ inner.latches :=
    (h.inner_loop.mem_latches _).mpr
      ⟨h.preheader_edge, h.preheader_reachable, (h.inner_loop.dominates hd).trans hdom⟩
  exact h.inner_counted.preheader_out (h.inner_loop.latch_mem hlatch)

/-- At the preheader, agreement is about values from outside the nest. -/
theorem agrees_preheader {ρ σ : Values}
    (hag : ∀ j d, f.owner j = some d → d ∉ outer.blocks → ρ j = σ j) :
    Agrees f outer inner p.inner.preheader ρ σ := by
  rintro j d hd (hout | ⟨hin, hdom⟩)
  · exact hag j d hd hout
  · exact absurd hdom (h.not_dominates_preheader hin)

/-- The operands of the inner loop come from it or from outside the nest. -/
theorem owner_of_operand {b : BlockId} (hb : b ∈ inner.blocks) {i j : InstId} (hi : i ∈ f.body b)
    (hj : Operand.inst j ∈ (f.op i).operands) :
    ∃ d, f.owner j = some d ∧ (d ∉ outer.blocks ∨ d ∈ inner.blocks) := by
  rcases h.operands b hb i hi _ hj with hdef | ⟨d, hd, hout, _⟩
  · simp only [definedIn, Func.definingBlock?] at hdef
    cases hd : f.owner j with
    | none => simp [hd] at hdef
    | some d =>
      simp only [hd, NaturalLoop.contains, List.contains_iff_mem] at hdef
      exact ⟨d, rfl, .inr hdef⟩
  · exact ⟨d, hd, .inl hout⟩

variable {F : Func} {source exit q q' b : BlockId} (hH : Host f F inner p source exit)
  (hq : Comes inner p source q q') (hb : b ∈ inner.blocks) (he : (FlowGraph.ofFunc f).Edge q b)

include hH hq hb he

theorem incoming_host {i : InstId} (hi : i ∈ f.phis b) : F.incoming? i q' = f.incoming? i q := by
  rcases hq with ⟨rfl, rfl⟩ | ⟨hin, rfl⟩
  · have hs := ((FlowGraph.edge_ofFunc f _ _).mp he).2.2
    rw [h.inner_counted.preheader_succ, List.mem_singleton] at hs
    subst hs
    rw [h.inner_counted.phis_eq, List.mem_singleton] at hi
    subst hi
    exact hH.start_eq
  · exact hH.incoming_eq b hb i hi _ hin

/-- Phis take the same values in the host. -/
theorem phiValue_host {ρ σ : Values} (hag : Agrees f outer inner q ρ σ) {i : InstId}
    (hi : i ∈ f.phis b) :
    phiValue tt F args (some q') σ i = phiValue tt f args (some q) ρ i := by
  have hlive := CountedLoop.live_of_mem h.inner_loop hb
  have hbody := Func.mem_body_of_phis hi
  unfold phiValue
  simp only [Option.bind_some]
  rw [h.incoming_host hH hq hb he hi, hH.relinked.value_eq]
  cases hv : f.incoming? i q with
  | none => rfl
  | some v =>
    simp only [Option.bind_some]
    cases v with
    | inst j =>
      unfold Func.incoming? at hv
      split at hv
      · rename_i incoming hop
        obtain ⟨⟨w, x⟩, hfind, heq⟩ := Option.map_eq_some_iff.mp hv
        have hmem := List.mem_of_find?_eq_some hfind
        have hx := List.find?_some hfind
        simp only [decide_eq_true_eq] at hx heq
        subst hx
        subst heq
        have hj : Operand.inst j ∈ (f.op i).operands := by
          rw [hop]
          exact List.mem_map_of_mem hmem
        obtain ⟨d, hd, hside⟩ := h.owner_of_operand hb hbody hj
        refine (hag j d hd (hside.imp_right fun hin => ⟨hin, ?_⟩)).symm
        exact h.wellFormed.phi_dominated b hlive i hbody incoming hop j x hmem d hd
      · cases hv
    | param k => rfl
    | const c => rfl

variable {s' t : Snapshot} {δ : List Chunk} {c c' : BlockId} (hsep : Separate f args base)
  (htr : Traced f args base made s)
  (hal : ∀ b ∈ outer.blocks, f.SlotFree (f.code b))

omit hq he in
theorem leaves_host (hx : Goes inner p exit b c c') {i : InstId} {value : Operand → Option Datum}
    (hi : f.terminator? b = some i) (hl : Leaves value (f.op i) (.goto c)) :
    Leaves value (F.op i) (.goto c') := by
  by_cases hbh : b = inner.header
  · subst hbh
    obtain ⟨i', hi', hop⟩ := h.inner_counted.exitBranch
    rw [hi] at hi'
    cases hi'
    rw [hH.exit_eq i hi]
    rw [hop] at hl
    generalize hn : Next.goto c = x at hl
    cases hl with
    | @condBr _ _ _ taken hc =>
      cases hn
      have hne := CountedLoop.bodyEntry_ne_exit h.inner_counted
      cases taken with
      | true =>
        rcases hx with ⟨_, rfl⟩ | ⟨_, heq, _⟩
        · exact .condBr hc
        · exact absurd heq hne
      | false =>
        rcases hx with ⟨hin, _⟩ | ⟨_, _, rfl⟩
        · exact absurd hin h.inner_counted.exit_out
        · exact .condBr hc
  · rw [hH.terminator_eq b hb hbh i hi]
    rcases hx with ⟨_, rfl⟩ | ⟨heq, _⟩
    · exact hl
    · exact absurd heq hbh

include hsep htr hal

/-- A visit of an inner block in the host. -/
theorem replay_visit (hv : Visit tt f args (some q) b s δ s' (.goto c))
    (hx : Goes inner p exit b c c') (hcs : Computed f s.values) (hct : Computed f t.values)
    (hag : Agrees f outer inner q s.values t.values)
    (hrs : SameOn (Untouched f outer inner args made) s.regions t.regions) :
    ∃ t', Visit tt F args (some q') b t δ t' (.goto c') ∧
      Agrees f outer inner b s'.values t'.values ∧ Computed f s'.values ∧ Computed f t'.values ∧
      SameOn (Untouched f outer inner args made) s'.regions t'.regions := by
  have hf := h.wellFormed
  have hlive := CountedLoop.live_of_mem h.inner_loop hb
  have hr := h.inner_loop.reachable_mem hb
  have hsame := hH.relinked.sameCode tt fun i => hf.not_isPhi_of_code hlive (i := i)
  have hself := Func.Relinked.refl.sameCode tt fun i => hf.not_isPhi_of_code hlive (i := i)
  -- What the block uses: values from outside the nest, and from inner blocks that dominate it.
  have hreads : f.ReadsFrom b fun j => ∃ d, f.owner j = some d ∧
      (d ∉ outer.blocks ∨ d ∈ inner.blocks ∧ (FlowGraph.ofFunc f).Dominates d q) := by
    refine hf.readsFrom hlive hr fun i hi j hj d hd hne hdom => ?_
    obtain ⟨d', hd', hside⟩ := h.owner_of_operand hb hi hj
    rw [hd] at hd'
    cases hd'
    exact ⟨d, hd, hside.imp_right fun hin => ⟨hin, hdom.of_edge he hne⟩⟩
  have hnoal := hal b (h.subset b hb)
  have hload : ∀ i ∈ f.code b, ∀ v, f.op i = .load v → ∀ s, Traced f args base made s → ∀ r,
      f.value tt args s.values v = some (.ptr r) →
      Untouched f outer inner args made r.region := by
    intro i hi v hop s₁ htr₁ r hr
    have hcov := (htr₁.value hr).covers
    have hbody := Func.mem_body_of_code hi
    exact ⟨h.not_written_of_load hsep htr hb hbody hop hcov,
      h.not_rest_of_load hsep htr hb hbody hop hcov⟩
  obtain ⟨t', hv', hag', hrs'⟩ := hv.lockstep hsame hreads
    (fun j ⟨d, hd, hside⟩ => hag j d hd hside) (fun i hi => h.phiValue_host hH hq hb he hag hi)
    (Traced.keeps hnoal) (htr.entered (some q) b) hload hrs
    fun i value hi hl => h.leaves_host hH hb hx hi hl
  have hcs' := hcs.visit hlive hself hv
  have hct' := hct.visit hlive hsame hv'
  refine ⟨t', hv', fun j d hd hside => ?_, hcs', hct', hrs'⟩
  by_cases hdb : d = b
  · subst hdb
    by_cases hmem : j ∈ f.phis d ∨ j ∈ f.code d
    · exact hag' j (.inr hmem)
    · rw [not_or] at hmem
      rw [hcs'.eq_none hf hd hmem.1 hmem.2, hct'.eq_none hf hd hmem.1 hmem.2]
  · exact hag' j (.inl ⟨d, hd, hside.imp_right fun hin => ⟨hin.1, hin.2.of_edge he hdb⟩⟩)

omit hq hb he htr

/-- The rest of the inner loop in the host, from any of its blocks on. -/
theorem replay_from {q₀ q₁ : Option BlockId} {b b' : BlockId} {s s' : Snapshot} {δ : List Chunk}
    {k : Nat} (hseg : Segment tt f args (· ∈ inner.blocks) q₀ b s δ q₁ b' s' k)
    (hq₁ : q₁ = some inner.header) (hb' : b' = p.inner.exit) :
    ∀ {q q' : BlockId} {t : Snapshot}, q₀ = some q → Comes inner p source q q' → b ∈ inner.blocks →
    (FlowGraph.ofFunc f).Edge q b → Traced f args base made s → Computed f s.values →
    Computed f t.values → Agrees f outer inner q s.values t.values →
    SameOn (Untouched f outer inner args made) s.regions t.regions →
    ∃ t', Segment tt F args (· ∈ inner.blocks) (some q') b t δ (some inner.header) exit t' k ∧
      Computed f t'.values := by
  induction hseg with
  | refl =>
    intro q q' t _ _ hb
    subst hb'
    exact absurd hb h.inner_counted.exit_out
  | @step q₀ q₁ b b' c s s₁ s' δ δ' n hb hv hrest ih =>
    intro q q' t hq₀ hq _ he htr hcs hct hag hrs
    subst hq₀
    have hsucc := hv.mem_successors
    have htr₁ := htr.visit_of_no_alloca hv (hal b (h.subset b hb))
    rw [← hH.relinked.cost_eq b]
    rcases CountedLoop.mem_of_successor h.inner_counted hb hsucc with hc | ⟨rfl, rfl⟩
    · obtain ⟨t₁, hv', hag₁, hcs₁, hct₁, hrs₁⟩ := h.replay_visit hH hq hb he hsep htr hal hv
        (.inl ⟨hc, rfl⟩) hcs hct hag hrs
      have hedge : (FlowGraph.ofFunc f).Edge b c := (FlowGraph.edge_ofFunc f b c).mpr
        ⟨CountedLoop.live_of_mem h.inner_loop hb, CountedLoop.live_of_mem h.inner_loop hc, hsucc⟩
      obtain ⟨t', hseg, hct'⟩ := ih hq₁ hb' rfl (.inr ⟨hb, rfl⟩) hc hedge htr₁ hcs₁ hct₁ hag₁ hrs₁
      exact ⟨t', .step hb hv' hseg, hct'⟩
    · obtain ⟨t₁, hv', _, _, hct₁, _⟩ := h.replay_visit hH hq hb he hsep htr hal hv
        (.inr ⟨rfl, rfl, rfl⟩) hcs hct hag hrs
      -- The loop has been left, and no visit of an inner block follows.
      cases hrest with
      | refl => exact ⟨t₁, .step hb hv' .refl, hct₁⟩
      | step hx _ _ => exact absurd hx h.inner_counted.exit_out

/-- The inner loop writes the same chunks wherever it is run during the outer loop. -/
theorem replay {s s' t : Snapshot} {δ : List Chunk} {k : Nat}
    (hseg : Segment tt f args (· ∈ inner.blocks) (some p.inner.preheader) inner.header s δ
      (some inner.header) p.inner.exit s' k)
    (htr : Traced f args base made s) (hcs : Computed f s.values) (hct : Computed f t.values)
    (hag : ∀ j d, f.owner j = some d → d ∉ outer.blocks → s.values j = t.values j)
    (hrs : SameOn (Untouched f outer inner args made) s.regions t.regions) :
    ∃ t', Segment tt F args (· ∈ inner.blocks) (some source) inner.header t δ (some inner.header)
        exit t' k ∧ Computed f t'.values ∧ t'.regions = writeChunks t.regions δ ∧
      ∀ j, (∀ b ∈ inner.blocks, j ∉ f.body b) → t'.values j = t.values j := by
  have hmem := h.inner_loop.header_mem
  obtain ⟨t', hseg', hct'⟩ := h.replay_from hH hsep hal hseg rfl rfl rfl (.inl ⟨rfl, rfl⟩) hmem
    h.preheader_edge htr hcs hct (h.agrees_preheader hag) hrs
  refine ⟨t', hseg', hct', hseg'.regions_eq fun b hb i hi => ?_, fun j hj => ?_⟩
  · have hlive := CountedLoop.live_of_mem h.inner_loop hb
    rw [hH.relinked.code_eq] at hi
    rw [hH.relinked.op_eq i (Func.not_isTerminator_of_code hi)
      (h.wellFormed.not_isPhi_of_code hlive hi)]
    exact hal b (h.subset b hb) i hi
  · refine hseg'.values_of_not_mem fun b hb => ?_
    rw [hH.relinked.body_eq]
    exact hj b hb

end Nest

/-- What a segment writes lies behind the roots of its stores. -/
theorem written_of_segment {ok : BlockId → Prop} {q q' : Option BlockId} {b b' : BlockId}
    {s s' : Snapshot} {δ : List Chunk} {k : Nat}
    (hseg : Segment tt f args ok q b s δ q' b' s' k)
    (hal : ∀ b, ok b → f.SlotFree (f.code b))
    (htr : Traced f args base made s) :
    Traced f args base made s' ∧ ∀ c ∈ δ, Written f args made ok c.place.region := by
  induction hseg with
  | refl => exact ⟨htr, fun c hc => absurd hc List.not_mem_nil⟩
  | @step q q' b b' c s s₁ s' δ δ' n hb hv _ ih =>
    obtain ⟨htr', hrest⟩ := ih (htr.visit_of_no_alloca hv (hal b hb))
    refine ⟨htr', fun c hc => ?_⟩
    rcases List.mem_append.mp hc with hc | hc
    · obtain ⟨i, hi, v, w, hop, hcov⟩ := hv.straight.chunks_covered (hal b hb) (htr.entered q b) c hc
      exact ⟨b, hb, i, Func.mem_body_of_code hi, v, w, hop, hcov⟩
    · exact hrest c hc

end Fusion

end LoopNest
