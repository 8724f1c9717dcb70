import LoopNest.Proofs.Graph.Loops

/-!
# Exchanging a region of a flow graph

Two graphs are the same but for what stands between two blocks `a` and `b`: in one it is a region
`R`, in the other a region `R'`.  A region is entered from `a` only and left to `b` only.  It may
be empty, and then an edge leads from `a` to `b`.

A path between blocks outside of the regions can be taken in both graphs (`Exchanged.via_outside`),
so these blocks keep their dominance.  `a` dominates the region (`Exchanged.dominates_region`).  A
loop whose header is outside is a loop of the other graph, up to the regions
(`Exchanged.exists_backEdge`).

The relation is symmetric, so each fact is proved for one direction only.
-/

namespace LoopNest

namespace FlowGraph

/-- The first graph has a region on the way from `a` to `b`, and the second has another one. -/
structure Exchanged (g g' : FlowGraph) (R R' : BlockId → Prop) (a b : BlockId) : Prop where
  entry_eq : g'.entry? = g.entry?
  entry_out : ∀ e, g.entry? = some e → ¬ R e
  live : ∀ x ∈ g.blocks, ¬ R x → x ∈ g'.blocks
  fresh : ∀ x ∈ g.blocks, ¬ R' x
  a_out : ¬ R a
  b_out : ¬ R b
  a_ne_b : a ≠ b
  enters : ∀ x y, g.Reachable x → g.Edge x y → ¬ R x → R y → x = a
  leaves : ∀ x y, g.Edge x y → R x → ¬ R y → y = b
  /-- All other edges are kept. -/
  kept : ∀ x y, g.Edge x y → ¬ R x → ¬ R y → x = a ∧ y = b ∨ g'.Edge x y
  /-- The second graph has a way from `a` to `b`. -/
  through : g'.Via (fun x => x = a ∨ x = b ∨ R' x) a b

namespace Exchanged

variable {g g' : FlowGraph} {R R' : BlockId → Prop} {a b : BlockId}
  (h : Exchanged g g' R R' a b) (h' : Exchanged g' g R' R a b) {ok : BlockId → Prop}
  {s u v x y p : BlockId} {l : NaturalLoop}

include h

/-! ## Paths -/

/-- A path that starts outside goes on outside, or has come to `a` and into the region. -/
theorem via_or (hok : ∀ x, R' x → ok x) (hs : ¬ R s) (hr : g.Reachable s) (hv : g.Via ok s v) :
    g.Reachable v ∧ (¬ R v → g'.Via ok s v) ∧ (R v → g'.Via ok s a) := by
  refine hv.rec_on (motive := fun v => g.Reachable v ∧ (¬ R v → g'.Via ok s v) ∧
    (R v → g'.Via ok s a)) ?_ ?_
  · exact ⟨hr, fun _ => .refl (h.live s hv.live_start hs) hv.start, fun hin => absurd hin hs⟩
  · rintro x y he _ hy ⟨hx, hout, hin⟩
    have hthrough (hsa : g'.Via ok s a) (hyb : y = b) : g'.Via ok s y := by
      subst hyb
      refine hsa.trans (h.through.mono fun z hz => ?_)
      rcases hz with rfl | rfl | hz
      · exact hsa.stop
      · exact hy
      · exact hok z hz
    refine ⟨hx.edge he, fun hyout => ?_, fun hyin => ?_⟩
    · by_cases hxin : R x
      · exact hthrough (hin hxin) (h.leaves x y he hxin hyout)
      · rcases h.kept x y he hxin hyout with ⟨rfl, heq⟩ | he
        · exact hthrough (hout hxin) heq
        · exact (hout hxin).snoc he hy
    · by_cases hxin : R x
      · exact hin hxin
      · exact h.enters x y hx he hxin hyin ▸ hout hxin

/-- A path between two blocks outside of the region, through blocks of a set that contains the other
region. -/
theorem via_outside (hok : ∀ x, R' x → ok x) (hs : ¬ R s) (hr : g.Reachable s) (hv : ¬ R v)
    (hvia : g.Via ok s v) : g'.Via ok s v := (h.via_or hok hs hr hvia).2.1 hv

theorem reachable_out (hv : ¬ R v) (hr : g.Reachable v) : g'.Reachable v := by
  obtain ⟨e, he, hvia⟩ := hr
  exact ⟨e, h.entry_eq.trans he, h.via_outside (fun _ _ => trivial) (h.entry_out e he)
    ⟨e, he, .refl hvia.live_start trivial⟩ hv hvia⟩

/-- The region is reached from `a` without leaving it. -/
theorem via_from (hr : g.Reachable v) (hv : R v) : g.Via (fun x => x = a ∨ R x) a v := by
  obtain ⟨e, he, hvia⟩ := hr
  refine (hvia.rec_on (motive := fun v => g.Reachable v ∧
    (R v → g.Via (fun x => x = a ∨ R x) a v)) ?_ ?_).2 hv
  · exact ⟨⟨e, he, .refl hvia.live_start trivial⟩, fun hin => absurd hin (h.entry_out e he)⟩
  · rintro x y hedge _ _ ⟨hx, hin⟩
    refine ⟨hx.edge hedge, fun hyin => ?_⟩
    by_cases hxin : R x
    · exact (hin hxin).snoc hedge (.inr hyin)
    · cases h.enters x y hx hedge hxin hyin
      exact .cons hedge (.inl rfl) (.refl hedge.2.1 (.inr hyin))

/-! ## Dominance -/

theorem dominates_region (hv : R v) : g.Dominates a v := by
  by_contra hn
  obtain ⟨e, he, hvia⟩ := not_dominates_iff.mp hn
  refine (hvia.rec_on (motive := fun v => g.Reachable v ∧ ¬ R v) ?_ ?_).2 hv
  · exact ⟨⟨e, he, .refl hvia.live_start trivial⟩, h.entry_out e he⟩
  · rintro x y hedge hx _ ⟨hr, hout⟩
    exact ⟨hr.edge hedge, fun hyin => hx (h.enters x y hr hedge hout hyin)⟩

/-- What dominates a block of the region and is not in it dominates `a`. -/
theorem dominates_a (hu : ¬ R u) (hv : R v) (hr : g.Reachable v) (hd : g.Dominates u v) :
    g.Dominates u a := by
  by_cases hua : u = a
  · exact hua ▸ .refl
  · refine hd.of_via ((h.via_from hr hv).mono fun z hz => ?_)
    rcases hz with rfl | hz
    · exact Ne.symm hua
    · exact fun heq => hu (heq ▸ hz)

theorem dominates_outside (hu : ¬ R' u) (hv : ¬ R v) (hd : g'.Dominates u v) :
    g.Dominates u v := by
  by_contra hn
  obtain ⟨e, he, hvia⟩ := not_dominates_iff.mp hn
  refine not_dominates_iff.mpr ⟨e, h.entry_eq.trans he, ?_⟩ hd
  exact h.via_outside (fun x hx heq => hu (heq ▸ hx)) (h.entry_out e he)
    ⟨e, he, .refl hvia.live_start trivial⟩ hv hvia

/-! ## Loops -/

/-- The last block before `b` in the second graph. -/
theorem exists_last : ∃ c, g'.Edge c b ∧ (c = a ∨ R' c) ∧
    g'.Via (fun x => x ≠ b ∧ (x = a ∨ R' x)) a c := by
  obtain ⟨trail, hp, hok⟩ := h.through
  rcases hp.first hp.mem_end with heq | ⟨c, hvia, hc⟩
  · exact absurd heq h.a_ne_b
  · have hvia := hvia.mono fun x hx => And.intro hx.1 ((or_left_comm.mp (hok x hx.2)).resolve_left hx.1)
    exact ⟨c, hc, hvia.stop.2, hvia⟩

include h'

/-- A block of a loop leads to a latch of a loop of the second graph, with the same header. -/
theorem exists_backEdge (hl : IsLoop g l) (hh : ¬ R l.header) (hv : v ∈ l.blocks) (hout : ¬ R v) :
    ∃ p, g'.BackEdge p l.header ∧ (v = l.header ∨ g'.Via (· ≠ l.header) v p) := by
  have hreach := hl.reachable_mem hv
  have hfresh : ∀ x, R' x → x ≠ l.header := fun x hx heq =>
    h.fresh _ hl.reachable.live (heq ▸ hx)
  obtain ⟨p, hp, hvia⟩ : ∃ p ∈ l.latches, v = l.header ∨ g.Via (· ≠ l.header) v p := by
    by_cases hne : v = l.header
    · obtain ⟨p, hp⟩ := List.exists_mem_of_ne_nil _ hl.latches_ne
      exact ⟨p, hp, .inl hne⟩
    · obtain ⟨p, hp, hvia⟩ := hl.via_to_latch hv hne
      exact ⟨p, hp, .inr (hvia.mono fun x hx => hx.1)⟩
  obtain ⟨he, hr, hd⟩ := (hl.mem_latches p).mp hp
  -- A latch from where the second graph goes through its region.
  have hinner (hb : l.header = b) (hda : g.Dominates b a) (hra : g.Reachable a)
      (hto : v = l.header ∨ g'.Via (· ≠ l.header) v a) :
      ∃ p, g'.BackEdge p l.header ∧ (v = l.header ∨ g'.Via (· ≠ l.header) v p) := by
    obtain ⟨c, hc, hcr, hvc⟩ := h.exists_last
    have hda' := h'.dominates_outside h.b_out (h.fresh a hra.live) hda
    refine ⟨c, ⟨hb ▸ hc, ((h.reachable_out h.a_out hra).via hvc), hb ▸ hda'.trans ?_⟩,
      hto.imp_right fun hto => hto.trans (hvc.mono fun x hx => hb ▸ hx.1)⟩
    rcases hcr with rfl | hcr
    · exact .refl
    · exact h'.dominates_region hcr
  by_cases hpin : R p
  · have hb := h.leaves p _ he hpin hh
    have hra : g.Reachable a := (h.dominates_region hpin).reachable hr
    refine hinner hb (hb ▸ h.dominates_a hh hpin hr hd) hra (hvia.imp_right fun hvia => ?_)
    exact (h.via_or hfresh hout hreach hvia).2.2 hpin
  · have hvia' := hvia.imp_right fun hvia => (h.via_or hfresh hout hreach hvia).2.1 hpin
    rcases h.kept p _ he hpin hh with ⟨rfl, hb⟩ | he'
    · exact hinner hb (hb ▸ hd) hr hvia'
    · exact ⟨p, ⟨he', h.reachable_out hpin hr, h'.dominates_outside hh (h.fresh p hr.live) hd⟩,
        hvia'⟩

/-- A block of a loop is in a loop of the second graph, with the same header. -/
theorem exists_loop (hg : g'.Coherent) (hl : IsLoop g l) (hh : ¬ R l.header) (hv : v ∈ l.blocks)
    (hout : ¬ R v) : ∃ l', IsLoop g' l' ∧ l'.header = l.header ∧ v ∈ l'.blocks := by
  obtain ⟨p, ⟨he, hr, hd⟩, hvia⟩ := h.exists_backEdge h' hl hh hv hout
  obtain ⟨i, hi, hheader⟩ := LoopForest.exists_loop hg he hr hd
  have hl' := LoopForest.isLoop_loop hg hi
  refine ⟨_, hl', hheader, (hl'.mem_blocks v).mpr ?_⟩
  rw [hheader]
  refine hvia.imp_right fun hvia => ⟨h.reachable_out hout (hl.reachable_mem hv), p, ?_, hvia⟩
  exact (hl'.mem_latches p).mpr (hheader ▸ ⟨he, hr, hd⟩)

end Exchanged

end FlowGraph

end LoopNest
