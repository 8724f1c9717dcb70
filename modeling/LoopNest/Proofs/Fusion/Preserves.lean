import LoopNest.Proofs.Fusion.Replay
import LoopNest.Proofs.Loop.Trips
import Mathlib

/-!
# Moving the inner loop preserves results

The original function runs the inner loop in every iteration of the outer one, the moved
function once at the end.  `Stage` relates the two at the entry of a block: outside the outer
loop they agree; inside it they agree until the inner loop has run for the first time, and
from then on the original function is ahead by the chunks that the inner loop writes.  The
inner loop is met in every iteration, since its preheader dominates the outer latch, so the
functions do not leave the outer loop before that.

The moved function executes at most as many instructions (`Nest.executes_apply`).
-/

namespace LoopNest

namespace Fusion

variable {tt : TypeTable} {f : Func} {outer inner : NaturalLoop} {p : Plan} {args : List Datum}
  {base : Nat}

/-- Instructions that the inner loop does not compute. -/
def Shared (f : Func) (inner : NaturalLoop) (j : InstId) : Prop := ∀ b ∈ inner.blocks, j ∉ f.body b

/-- The original function is ahead by the chunks `δ` of the inner loop, which took `k`
instructions to write them when it ran first, from `s₀`. -/
structure Ahead (tt : TypeTable) (f : Func) (outer inner : NaturalLoop) (p : Plan)
    (args : List Datum) (base : Nat) (made : Origins) (s₀ : Snapshot) (δ : List Chunk) (k : Nat)
    (s t : Snapshot) : Prop where
  traced : Traced f args base made s₀
  computed : Computed f s₀.values
  segment : ∃ s', Segment tt f args (· ∈ inner.blocks) (some p.inner.preheader) inner.header s₀ δ
    (some inner.header) p.inner.exit s' k
  /-- Values from outside the nest have not changed since. -/
  values : ∀ j d, f.owner j = some d → d ∉ outer.blocks → s₀.values j = s.values j
  /-- Nor have the regions that neither loop writes. -/
  untouched : SameOn (Untouched f outer inner args made) s₀.regions t.regions
  regions : s.regions = writeChunks t.regions δ

/-- What holds of both functions at the entry of a block. -/
structure Matched (f : Func) (inner : NaturalLoop) (args : List Datum) (base : Nat)
    (made : Origins) (q q' : Option BlockId) (b : BlockId) (s t : Snapshot) : Prop where
  reachable : (FlowGraph.ofFunc f).Reachable b
  not_inner : b ∉ inner.blocks
  sources : q = q' ∨ f.phis b = []
  traced : Traced f args base made s
  computed : Computed f s.values
  computed' : Computed f t.values
  values : s.values.Agree (Shared f inner) t.values

/-- The original function and the moved one at the entry of a block.  The moved function may
take some more instructions to the end, as many as one run of the inner loop. -/
inductive Stage (tt : TypeTable) (f : Func) (outer inner : NaturalLoop) (p : Plan)
    (args : List Datum) (base : Nat) : Option BlockId → Option BlockId → BlockId → Snapshot →
    Snapshot → Nat → Prop where
  /-- Outside the outer loop. -/
  | outside {made : Origins} {q q' : Option BlockId} {b : BlockId} {s t : Snapshot} :
      Matched f inner args base made q q' b s t → b ∉ outer.blocks → s.regions = t.regions →
      Stage tt f outer inner p args base q q' b s t 0
  /-- In the first iteration, on the way to the inner loop. -/
  | before {made : Origins} {q q' : Option BlockId} {b : BlockId} {s t : Snapshot} :
      Matched f inner args base made q q' b s t → b ∈ outer.blocks → s.regions = t.regions →
      (b = outer.header ∧ q = some p.outer.preheader ∨ b ≠ outer.header ∧
        (b = p.inner.preheader ∨ ¬ (FlowGraph.ofFunc f).Dominates p.inner.preheader b)) →
      Stage tt f outer inner p args base q q' b s t 0
  /-- In the outer loop, after the inner loop has run. -/
  | after {made : Origins} {q q' : Option BlockId} {b : BlockId} {s t s₀ : Snapshot}
      {δ : List Chunk} {k : Nat} :
      Matched f inner args base made q q' b s t → b ∈ outer.blocks →
      Ahead tt f outer inner p args base made s₀ δ k s t →
      Stage tt f outer inner p args base q q' b s t k

/-- From all stages on, executions of some length have a counterpart. -/
def Simulated (tt : TypeTable) (f : Func) (outer inner : NaturalLoop) (p : Plan) (args : List Datum)
    (base n : Nat) : Prop :=
  ∀ {q q' : Option BlockId} {b : BlockId} {s t : Snapshot} {k : Nat} {d : Datum}
    {rs : Array Region}, Stage tt f outer inner p args base q q' b s t k →
    Executes tt f args q b s d rs n →
    ∃ n', n' ≤ n + k ∧ Executes tt (apply f p) args q' b t d rs n'

theorem Matched.live {made : Origins} {q q' : Option BlockId} {b : BlockId} {s t : Snapshot}
    (hm : Matched f inner args base made q q' b s t) : b ∈ f.layout :=
  FlowGraph.blocks_ofFunc f ▸ hm.reachable.live

/-- A value from outside the nest is shared. -/
theorem shared_of_owner (hf : f.WellFormed) (hl : IsLoop (.ofFunc f) inner) {j : InstId}
    {d : BlockId} (hd : f.owner j = some d) (hout : d ∉ inner.blocks) : Shared f inner j := by
  intro b hb hmem
  rw [hf.owner_eq b (CountedLoop.live_of_mem hl hb) j hmem] at hd
  cases hd
  exact hout hb

/-- An execution of the moved function after its visit of a block. -/
theorem executes_goto {q' : Option BlockId} {b c : BlockId} {t t' : Snapshot} {δ : List Chunk}
    {d : Datum} {rs : Array Region} {m m' k : Nat}
    (hv : Visit tt (apply f p) args q' b t δ t' (.goto c))
    (hex : Executes tt (apply f p) args (some b) c t' d rs m') (hle : m' ≤ m + k) :
    ∃ n', n' ≤ f.cost b + m + k ∧ Executes tt (apply f p) args q' b t d rs n' := by
  refine ⟨f.cost b + m', by omega, ?_⟩
  rw [← (relinked_apply f p).cost_eq b]
  exact .goto hv hex

namespace Nest

variable (h : Nest tt f outer inner p)

include h

/-! ## One visit around the inner loop -/

theorem sameCode_apply {b : BlockId} (hb : b ∈ f.layout) : f.SameCode tt (apply f p) b :=
  (relinked_apply f p).sameCode tt fun _ hi => h.wellFormed.not_isPhi_of_code hb hi

theorem op_code_apply {b : BlockId} (hb : b ∈ f.layout) {i : InstId}
    (hi : i ∈ (apply f p).code b) : i ∈ f.code b ∧ (apply f p).op i = f.op i := by
  have hs := h.sameCode_apply hb
  rw [hs.code_eq] at hi
  exact ⟨hi, (hs.inst_eq i hi).1⟩

/-- Blocks outside the inner loop use shared values. -/
theorem readsFrom_shared {b : BlockId} (hb : b ∈ f.layout) (hr : (FlowGraph.ofFunc f).Reachable b)
    (hout : b ∉ inner.blocks) : f.ReadsFrom b (Shared f inner) :=
  h.wellFormed.readsFrom hb hr fun i hi j hj _ _ _ _ c hc hmem =>
    h.uses c hc j hmem b hb hout i hi hj

theorem phiValue_shared {b : BlockId} (hb : b ∈ f.layout) (hout : b ∉ inner.blocks)
    {q q' : Option BlockId} (hq : q = q' ∨ f.phis b = []) {ρ σ : Values}
    (hag : ρ.Agree (Shared f inner) σ) {i : InstId} (hi : i ∈ f.phis b) :
    phiValue tt (apply f p) args q' σ i = phiValue tt f args q ρ i := by
  rcases hq with rfl | hnil
  · have hop : (apply f p).op i = f.op i := h.op_phi hb hi fun heq =>
      hout (heq ▸ h.inner_loop.header_mem)
    unfold phiValue Func.incoming?
    rw [hop, (relinked_apply f p).value_eq]
    cases q with
    | none => rfl
    | some q =>
      simp only [Option.bind_some]
      split
      · rename_i incoming hinc
        cases hfind : incoming.find? fun e => e.2 = q with
        | none => rfl
        | some e =>
          simp only [Option.map_some, Option.bind_some]
          refine (hag.value fun j hj c hc hmem => ?_).symm
          refine h.uses c hc j hmem b hb hout i (Func.mem_body_of_phis hi) ?_
          rw [hinc, ← hj]
          exact List.mem_map_of_mem (List.mem_of_find?_eq_some hfind)
      · rfl
  · rw [hnil] at hi
    exact absurd hi List.not_mem_nil

variable {made : Origins} {q q' : Option BlockId} {b : BlockId} {s s' t : Snapshot}
  {δ : List Chunk} {x x' : Next}

/-- A visit of a block outside the inner loop, in both functions. -/
theorem visit_shared {R : Nat → Prop} {P : Snapshot → Prop}
    (hm : Matched f inner args base made q q' b s t) (hv : Visit tt f args q b s δ s' x)
    (hP : Keeps tt f args (f.code b) P) (hs : P ⟨entered tt f args q b s.values, s.regions⟩)
    (hload : ∀ i ∈ f.code b, ∀ v, f.op i = .load v → ∀ s, P s → ∀ r,
      f.value tt args s.values v = some (.ptr r) → R r.region)
    (hrs : SameOn R s.regions t.regions)
    (hnext : ∀ i value, f.terminator? b = some i → Leaves value (f.op i) x →
      Leaves value ((apply f p).op i) x') :
    ∃ t', Visit tt (apply f p) args q' b t δ t' x' ∧ Computed f s'.values ∧
      Computed f t'.values ∧ s'.values.Agree (Shared f inner) t'.values ∧
      SameOn R s'.regions t'.regions := by
  obtain ⟨t', hv', hag, hrs'⟩ := hv.lockstep (h.sameCode_apply hm.live)
    (h.readsFrom_shared hm.live hm.reachable hm.not_inner) hm.values
    (fun i hi => h.phiValue_shared hm.live hm.not_inner hm.sources hm.values hi) hP hs hload hrs
    hnext
  have hself := Func.Relinked.refl.sameCode tt fun i =>
    h.wellFormed.not_isPhi_of_code hm.live (i := i)
  exact ⟨t', hv', hm.computed.visit hm.live hself hv,
    hm.computed'.visit hm.live (h.sameCode_apply hm.live) hv', fun j hj => hag j (.inl hj), hrs'⟩

/-- With equal regions, everything that is read is the same. -/
theorem visit_equal (hm : Matched f inner args base made q q' b s t)
    (hv : Visit tt f args q b s δ s' x) (hrs : s.regions = t.regions)
    (hnext : ∀ i value, f.terminator? b = some i → Leaves value (f.op i) x →
      Leaves value ((apply f p).op i) x') :
    ∃ t', Visit tt (apply f p) args q' b t δ t' x' ∧ Computed f s'.values ∧
      Computed f t'.values ∧ s'.values.Agree (Shared f inner) t'.values ∧
      s'.regions = t'.regions := by
  obtain ⟨t', hv', hcs, hct, hag, hrs'⟩ := h.visit_shared (R := fun _ => True) (P := fun _ => True)
    hm hv (fun _ _ _ _ _ _ _ _ => trivial) trivial (fun _ _ _ _ _ _ _ _ => trivial)
    (hrs ▸ .refl _ _) hnext
  exact ⟨t', hv', hcs, hct, hag, hrs'.eq fun _ => trivial⟩

theorem edge_of_visit {c : BlockId} (hr : (FlowGraph.ofFunc f).Reachable b)
    (hv : Visit tt f args q b s δ s' (.goto c)) : (FlowGraph.ofFunc f).Edge b c := by
  have hb : b ∈ f.layout := FlowGraph.blocks_ofFunc f ▸ hr.live
  exact (FlowGraph.edge_ofFunc f b c).mpr
    ⟨hb, h.wellFormed.successor_live b hb c hv.mem_successors, hv.mem_successors⟩

/-- Terminators outside the nest, and in most of the outer loop, stay. -/
theorem leaves_apply (hb : b ∈ f.layout) (hout : b ∉ inner.blocks) (hne : b ≠ outer.header)
    (hp : b ≠ p.inner.preheader) {i : InstId} {value : Operand → Option Datum}
    (hi : f.terminator? b = some i) (hl : Leaves value (f.op i) x) :
    Leaves value ((apply f p).op i) x := by
  rw [h.op_terminator hb hi (fun heq => hout (heq ▸ h.inner_loop.header_mem)) hne hp]
  exact hl

/-- The outer header goes on the same way, and leaves to the inner header. -/
theorem leaves_outerHeader {c : BlockId} {i : InstId} {value : Operand → Option Datum}
    (hi : f.terminator? outer.header = some i) (hl : Leaves value (f.op i) (.goto c)) :
    Leaves value ((apply f p).op i)
      (.goto (if c = p.outer.exit then inner.header else c)) := by
  obtain ⟨i', hi', hop⟩ := h.outer_counted.exitBranch
  rw [hi] at hi'
  cases hi'
  rw [h.op_outerHeader hi]
  rw [hop] at hl
  generalize hn : Next.goto c = x at hl
  cases hl with
  | @condBr _ _ _ taken hc =>
    cases hn
    have hl : Leaves value (.condBr (.inst p.outer.cond) p.outer.bodyEntry inner.header) _ :=
      .condBr hc
    cases taken with
    | true => simpa [CountedLoop.bodyEntry_ne_exit h.outer_counted] using hl
    | false => simpa using hl

/-- Inside the outer loop, control goes on the same way. -/
theorem leaves_inside {c : BlockId} (hb : b ∈ f.layout) (hout : b ∉ inner.blocks)
    (hp : b ≠ p.inner.preheader) (hexit : ¬ (b = outer.header ∧ c = p.outer.exit)) {i : InstId}
    {value : Operand → Option Datum} (hi : f.terminator? b = some i)
    (hl : Leaves value (f.op i) (.goto c)) : Leaves value ((apply f p).op i) (.goto c) := by
  by_cases hbh : b = outer.header
  · subst hbh
    have := h.leaves_outerHeader hi hl
    rwa [if_neg fun heq => hexit ⟨rfl, heq⟩] at this
  · exact h.leaves_apply hb hout hbh hp hi hl

/-! ## The stages -/

variable {n : Nat} (ih : ∀ m, m < n → Simulated tt f outer inner p args base m) {d : Datum}
  {rs : Array Region}

include ih

theorem simulated_outside (hm : Matched f inner args base made q q' b s t)
    (hout : b ∉ outer.blocks) (hrs : s.regions = t.regions)
    (hex : Executes tt f args q b s d rs n) :
    ∃ n', n' ≤ n + 0 ∧ Executes tt (apply f p) args q' b t d rs n' := by
  have hne : b ≠ outer.header := fun heq => hout (heq ▸ h.outer_loop.header_mem)
  have hp : b ≠ p.inner.preheader := fun heq => hout (heq ▸ h.preheader_mem)
  cases hex with
  | ret hv =>
    obtain ⟨t', hv', _, _, _, hrs'⟩ := h.visit_equal hm hv hrs fun i value hi hl =>
      h.leaves_apply hm.live hm.not_inner hne hp hi hl
    refine ⟨_, Nat.le_of_eq ((relinked_apply f p).cost_eq b), ?_⟩
    rw [hrs']
    exact .ret hv'
  | @goto _ _ c _ s' _ _ _ m hv hrest =>
    obtain ⟨t', hv', hcs, hct, hag, hrs'⟩ := h.visit_equal hm hv hrs fun i value hi hl =>
      h.leaves_apply hm.live hm.not_inner hne hp hi hl
    obtain ⟨made', htr'⟩ := hm.traced.visit hv
    have hr := hm.reachable.edge (h.edge_of_visit hm.reachable hv)
    have hin : c ∉ inner.blocks := fun hc =>
      hp (h.eq_preheader hm.reachable hm.not_inner hc hv.mem_successors).1
    have hm' : Matched f inner args base made' (some b) (some b) c s' t' :=
      ⟨hr, hin, .inl rfl, htr', hcs, hct, hag⟩
    have hstage : Stage tt f outer inner p args base (some b) (some b) c s' t' 0 := by
      by_cases hc : c ∈ outer.blocks
      · obtain ⟨rfl, rfl⟩ := CountedLoop.eq_preheader_of_edge h.outer_loop h.outer_counted
          hm.reachable hout hc hv.mem_successors
        exact .before hm' hc hrs' (.inl ⟨rfl, rfl⟩)
      · exact .outside hm' hc hrs'
    obtain ⟨m', hle, hex'⟩ := ih m (by unfold Func.cost; omega) hstage hrest
    exact executes_goto hv' hex' hle

variable (hal : ∀ b ∈ outer.blocks, f.SlotFree (f.code b))

include hal

/-- The first time at the inner preheader.  The original function runs the inner loop, and the
moved one skips it. -/
theorem simulated_firstRun (hm : Matched f inner args base made q q' p.inner.preheader s t)
    (hrs : s.regions = t.regions) (hex : Executes tt f args q p.inner.preheader s d rs n) :
    ∃ n', n' ≤ n + 0 ∧ Executes tt (apply f p) args q' p.inner.preheader t d rs n' := by
  have hf := h.wellFormed
  cases hex with
  | ret hv => exact absurd hv.successors_of_ret (by simp [h.inner_counted.preheader_succ])
  | @goto _ _ c _ s' _ _ _ m hv hrest =>
    have hc := hv.mem_successors
    rw [h.inner_counted.preheader_succ, List.mem_singleton] at hc
    subst hc
    obtain ⟨t', hv', hcs, hct, hag, hrs'⟩ := h.visit_equal hm hv hrs fun i value hi hl =>
      (h.leaves_preheader hi hl).2
    have htr := hm.traced.visit_of_no_alloca hv (hal _ h.preheader_mem)
    obtain ⟨δ, s'', k, m', hseg, hrest', rfl⟩ := hrest.exists_segment (· ∈ inner.blocks)
      (fun x hx => CountedLoop.successors_ne_nil h.inner_loop h.inner_counted hx)
      (fun x hx y hy => CountedLoop.mem_of_successor h.inner_counted hx hy)
      h.inner_loop.header_mem
    have hal' : ∀ b, b ∈ inner.blocks → f.SlotFree (f.code b) :=
      fun b hb => hal b (h.subset b hb)
    have hm' : Matched f inner args base made (some inner.header) (some p.inner.preheader)
        p.inner.exit s'' t' := by
      refine ⟨h.outer_loop.reachable_mem h.innerExit_mem, h.inner_counted.exit_out,
        .inr h.inner_exit, (written_of_segment hseg hal' htr).1,
        hcs.segment hf (fun b hb => CountedLoop.live_of_mem h.inner_loop hb) hseg, hct,
        fun j hj => ?_⟩
      rw [hseg.values_of_not_mem hj]
      exact hag j hj
    have hstage : Stage tt f outer inner p args base (some inner.header) (some p.inner.preheader)
        p.inner.exit s'' t' k := by
      refine .after hm' h.innerExit_mem ⟨htr, hcs, ⟨s'', hseg⟩, fun j d hd hout => ?_,
        hrs' ▸ .refl _ _, hrs' ▸ hseg.regions_eq hal'⟩
      have hin : d ∉ inner.blocks := fun hin => hout (h.subset d hin)
      exact (hseg.values_of_not_mem (shared_of_owner hf h.inner_loop hd hin)).symm
    obtain ⟨n', hle, hex'⟩ := ih m' (by unfold Func.cost; omega) hstage hrest'
    exact executes_goto hv' hex' (by omega)

/-- In the first iteration, on the way to the inner loop. -/
theorem simulated_before (hty : f.WellTyped tt)
    (hdom : (FlowGraph.ofFunc f).Dominates p.inner.preheader p.outer.latch)
    (hm : Matched f inner args base made q q' b s t) (hb : b ∈ outer.blocks)
    (hrs : s.regions = t.regions)
    (hpos : b = outer.header ∧ q = some p.outer.preheader ∨ b ≠ outer.header ∧
      (b = p.inner.preheader ∨ ¬ (FlowGraph.ofFunc f).Dominates p.inner.preheader b))
    (hex : Executes tt f args q b s d rs n) :
    ∃ n', n' ≤ n + 0 ∧ Executes tt (apply f p) args q' b t d rs n' := by
  by_cases hp : b = p.inner.preheader
  · subst hp
    exact h.simulated_firstRun ih hal hm hrs hex
  have hnd : ¬ (FlowGraph.ofFunc f).Dominates p.inner.preheader b := by
    rcases hpos with ⟨rfl, _⟩ | ⟨_, heq | hnd⟩
    · exact h.not_dominates_header
    · exact absurd heq hp
    · exact hnd
  cases hex with
  | ret hv =>
    exact absurd hv.successors_of_ret
      (CountedLoop.successors_ne_nil h.outer_loop h.outer_counted hb)
  | @goto _ _ c _ s' _ _ _ m hv hrest =>
    -- The loop is not left: its first test holds.
    have hexit : ¬ (b = outer.header ∧ c = p.outer.exit) := by
      rintro ⟨rfl, rfl⟩
      rcases hpos with ⟨_, rfl⟩ | ⟨hne, _⟩
      · obtain ⟨trips, htrips⟩ := h.trips
        have := CountedLoop.enters_of_trips h.wellFormed hty h.outer_loop h.outer_counted htrips hv
        exact CountedLoop.bodyEntry_ne_exit h.outer_counted (Next.goto.inj this).symm
      · exact hne rfl
    have hc : c ∈ outer.blocks :=
      (CountedLoop.mem_of_successor h.outer_counted hb hv.mem_successors).resolve_right hexit
    have hin : c ∉ inner.blocks := fun hc =>
      hp (h.eq_preheader hm.reachable hm.not_inner hc hv.mem_successors).1
    have hedge := h.edge_of_visit hm.reachable hv
    have hch : c ≠ outer.header := by
      rintro rfl
      rw [CountedLoop.eq_latch h.outer_loop h.outer_counted hb hv.mem_successors] at hnd
      exact hnd hdom
    obtain ⟨t', hv', hcs, hct, hag, hrs'⟩ := h.visit_equal hm hv hrs fun i value hi hl =>
      h.leaves_inside hm.live hm.not_inner hp hexit hi hl
    have hm' : Matched f inner args base made (some b) (some b) c s' t' :=
      ⟨hm.reachable.edge hedge, hin, .inl rfl, hm.traced.visit_of_no_alloca hv (hal b hb), hcs, hct,
        hag⟩
    have hstage : Stage tt f outer inner p args base (some b) (some b) c s' t' 0 := by
      refine .before hm' hc hrs' (.inr ⟨hch, ?_⟩)
      by_cases hcp : c = p.inner.preheader
      · exact .inl hcp
      · exact .inr fun hd => hnd (hd.of_edge hedge (Ne.symm hcp))
    obtain ⟨m', hle, hex'⟩ := ih m (by unfold Func.cost; omega) hstage hrest
    exact executes_goto hv' hex' hle

omit ih

variable {s₀ : Snapshot} {ε : List Chunk} {k : Nat} (hsep : Separate f args base)

/-- The chunks that the original function is ahead by. -/
theorem written_of_ahead (ha : Ahead tt f outer inner p args base made s₀ ε k s t) :
    (∀ c ∈ ε, Written f args made (· ∈ inner.blocks) c.place.region) ∧
      ∀ c ∈ ε, c.Fits t.regions := by
  have hal' : ∀ b, b ∈ inner.blocks → f.SlotFree (f.code b) :=
    fun b hb => hal b (h.subset b hb)
  obtain ⟨s', hseg⟩ := ha.segment
  exact ⟨(written_of_segment hseg hal' ha.traced).2, fun c hc =>
    ha.untouched.1.fits.mp (hseg.fits hal' c hc)⟩

include hsep

/-- A visit of a block of the outer loop after the inner loop has run. -/
theorem visit_after (hm : Matched f inner args base made q q' b s t) (hb : b ∈ outer.blocks)
    (ha : Ahead tt f outer inner p args base made s₀ ε k s t)
    (hv : Visit tt f args q b s δ s' x)
    (hnext : ∀ i value, f.terminator? b = some i → Leaves value (f.op i) x →
      Leaves value ((apply f p).op i) x') :
    ∃ t', Visit tt (apply f p) args q' b t δ t' x' ∧ Computed f s'.values ∧
      Computed f t'.values ∧ s'.values.Agree (Shared f inner) t'.values ∧
      Ahead tt f outer inner p args base made s₀ ε k s' t' := by
  have hrest : Rest outer inner b := ⟨hb, hm.not_inner⟩
  obtain ⟨hwritten, _⟩ := h.written_of_ahead hal ha
  -- The block reads none of the regions in which the functions differ.
  have hsame : SameOn (fun r => ¬ Written f args made (· ∈ inner.blocks) r) s.regions t.regions := by
    rw [ha.regions]
    exact (sameOn_writeChunks _ fun c hc hn => hn (hwritten c hc)).symm
  obtain ⟨t', hv', hcs, hct, hag, _⟩ := h.visit_shared hm hv (Traced.keeps (hal b hb))
    (hm.traced.entered q b)
    (fun i hi v hop s₁ htr₁ r hr => h.not_written_of_rest_load hsep hm.traced hrest
      (Func.mem_body_of_code hi) hop (htr₁.value hr).covers) hsame hnext
  -- What it writes commutes with the chunks of the inner loop.
  have hchunks : ∀ c ∈ δ, Written f args made (Rest outer inner) c.place.region := by
    intro c hc
    obtain ⟨i, hi, v, w, hop, hcov⟩ :=
      hv.straight.chunks_covered (hal b hb) (hm.traced.entered q b) c hc
    exact ⟨b, hrest, i, Func.mem_body_of_code hi, v, w, hop, hcov⟩
  have ht' : t'.regions = writeChunks t.regions δ := by
    refine hv'.straight.regions_eq fun i hi => ?_
    obtain ⟨hi, hop⟩ := h.op_code_apply hm.live hi
    rw [hop]
    exact hal b hb i hi
  have hs' : s'.regions = writeChunks s.regions δ := hv.straight.regions_eq (hal b hb)
  refine ⟨t', hv', hcs, hct, hag, ha.traced, ha.computed, ha.segment, fun j d hd hout => ?_, ?_, ?_⟩
  · rw [ha.values j d hd hout]
    refine (hv.values_of_not_mem_body fun hmem => ?_).symm
    rw [h.wellFormed.owner_eq b hm.live j hmem] at hd
    cases hd
    exact hout hb
  · rw [ht']
    exact ha.untouched.trans (sameOn_writeChunks _ fun c hc hn => hn.2 (hchunks c hc))
  · rw [hs', ha.regions, ht']
    refine writeChunks_comm fun c hc e he heq => ?_
    exact h.not_written_of_rest hsep hm.traced (hchunks e he) (heq ▸ hwritten c hc)

include ih

/-- At the inner preheader again.  The original function writes what it wrote before. -/
theorem simulated_again (hm : Matched f inner args base made q q' p.inner.preheader s t)
    (ha : Ahead tt f outer inner p args base made s₀ ε k s t)
    (hex : Executes tt f args q p.inner.preheader s d rs n) :
    ∃ n', n' ≤ n + k ∧ Executes tt (apply f p) args q' p.inner.preheader t d rs n' := by
  cases hex with
  | ret hv => exact absurd hv.successors_of_ret (by simp [h.inner_counted.preheader_succ])
  | @goto _ _ c _ s' _ _ _ m hv hrest =>
    have hc := hv.mem_successors
    rw [h.inner_counted.preheader_succ, List.mem_singleton] at hc
    subst hc
    obtain ⟨t', hv', hcs, hct, hag, ha'⟩ := h.visit_after hal hsep hm h.preheader_mem ha hv
      fun i value hi hl => (h.leaves_preheader hi hl).2
    obtain ⟨hwritten, hfits⟩ := h.written_of_ahead hal ha'
    have hsame : SameOn (Untouched f outer inner args made) s₀.regions s'.regions := by
      rw [ha'.regions]
      exact ha'.untouched.trans (sameOn_writeChunks _ fun c hc hn => hn.1 (hwritten c hc))
    obtain ⟨s₁, hseg₀⟩ := ha'.segment
    obtain ⟨s'', hseg, hcs'', hrs'', hvals⟩ := h.replay h.host_self hsep hal hseg₀ ha'.traced
      ha'.computed hcs ha'.values hsame
    have hal' : ∀ b, b ∈ inner.blocks → f.SlotFree (f.code b) :=
      fun b hb => hal b (h.subset b hb)
    obtain ⟨m', rfl, hrest'⟩ := hseg.advance hrest
    have htr := hm.traced.visit_of_no_alloca hv (hal _ h.preheader_mem)
    have hm' : Matched f inner args base made (some inner.header) (some p.inner.preheader)
        p.inner.exit s'' t' := by
      refine ⟨h.outer_loop.reachable_mem h.innerExit_mem, h.inner_counted.exit_out,
        .inr h.inner_exit, (written_of_segment hseg hal' htr).1, hcs'', hct, fun j hj => ?_⟩
      rw [hvals j hj]
      exact hag j hj
    have hstage : Stage tt f outer inner p args base (some inner.header) (some p.inner.preheader)
        p.inner.exit s'' t' k := by
      refine .after hm' h.innerExit_mem ⟨ha'.traced, ha'.computed, ha'.segment,
        fun j d hd hout => ?_, ha'.untouched, ?_⟩
      · rw [ha'.values j d hd hout]
        have hin : d ∉ inner.blocks := fun hin => hout (h.subset d hin)
        exact (hvals j (shared_of_owner h.wellFormed h.inner_loop hd hin)).symm
      · rw [hrs'', ha'.regions, writeChunks_idem hfits]
    obtain ⟨n', hle, hex'⟩ := ih m' (by unfold Func.cost; omega) hstage hrest'
    exact executes_goto hv' hex' (by omega)

/-- At the end of the outer loop.  The moved function runs the inner loop. -/
theorem simulated_exit (hm : Matched f inner args base made q q' outer.header s t)
    (ha : Ahead tt f outer inner p args base made s₀ ε k s t) {m : Nat} (hmn : m < n)
    (hv : Visit tt f args q outer.header s δ s' (.goto p.outer.exit))
    (hex : Executes tt f args (some outer.header) p.outer.exit s' d rs m) :
    ∃ n', n' ≤ f.cost outer.header + m + k ∧
      Executes tt (apply f p) args q' outer.header t d rs n' := by
  have hnext : ∀ i value, f.terminator? outer.header = some i →
      Leaves value (f.op i) (.goto p.outer.exit) →
      Leaves value ((apply f p).op i) (.goto inner.header) := by
    intro i value hi hl
    have := h.leaves_outerHeader hi hl
    rwa [if_pos rfl] at this
  obtain ⟨t', hv', hcs, hct, hag, ha'⟩ := h.visit_after hal hsep hm h.outer_loop.header_mem ha hv
    hnext
  obtain ⟨s₁, hseg₀⟩ := ha'.segment
  have hout : ∀ {d : BlockId}, d ∉ outer.blocks → d ∉ inner.blocks :=
    fun hout hin => hout (h.subset _ hin)
  obtain ⟨t'', hseg, hct'', hrs'', hvals⟩ := h.replay h.host_apply hsep hal hseg₀ ha'.traced
    ha'.computed hct (fun j d hd hd' => (ha'.values j d hd hd').trans
      (hag j (shared_of_owner h.wellFormed h.inner_loop hd (hout hd')))) ha'.untouched
  have hstage : Stage tt f outer inner p args base (some outer.header) (some inner.header)
      p.outer.exit s' t'' 0 := by
    refine .outside ⟨hm.reachable.edge (h.edge_of_visit hm.reachable hv),
      hout h.outer_counted.exit_out, .inr h.outer_exit,
      hm.traced.visit_of_no_alloca hv (hal _ h.outer_loop.header_mem), hcs, hct'', fun j hj => ?_⟩
      h.outer_counted.exit_out (ha'.regions.trans hrs''.symm)
    rw [hvals j hj]
    exact hag j hj
  obtain ⟨n', hle, hex'⟩ := ih m hmn hstage hex
  exact executes_goto hv' (hseg.executes hex') (by omega)

/-- In the outer loop, after the inner loop has run. -/
theorem simulated_after (hm : Matched f inner args base made q q' b s t) (hb : b ∈ outer.blocks)
    (ha : Ahead tt f outer inner p args base made s₀ ε k s t)
    (hex : Executes tt f args q b s d rs n) :
    ∃ n', n' ≤ n + k ∧ Executes tt (apply f p) args q' b t d rs n' := by
  by_cases hp : b = p.inner.preheader
  · subst hp
    exact h.simulated_again ih hal hsep hm ha hex
  cases hex with
  | ret hv =>
    exact absurd hv.successors_of_ret
      (CountedLoop.successors_ne_nil h.outer_loop h.outer_counted hb)
  | @goto _ _ c _ s' _ _ _ m hv hrest =>
    rcases CountedLoop.mem_of_successor h.outer_counted hb hv.mem_successors with hc | ⟨rfl, rfl⟩
    · have hin : c ∉ inner.blocks := fun hc =>
        hp (h.eq_preheader hm.reachable hm.not_inner hc hv.mem_successors).1
      have hexit : ¬ (b = outer.header ∧ c = p.outer.exit) := by
        rintro ⟨_, rfl⟩
        exact h.outer_counted.exit_out hc
      obtain ⟨t', hv', hcs, hct, hag, ha'⟩ := h.visit_after hal hsep hm hb ha hv
        fun i value hi hl => h.leaves_inside hm.live hm.not_inner hp hexit hi hl
      have hm' : Matched f inner args base made (some b) (some b) c s' t' :=
        ⟨hm.reachable.edge (h.edge_of_visit hm.reachable hv), hin, .inl rfl,
          hm.traced.visit_of_no_alloca hv (hal b hb), hcs, hct, hag⟩
      obtain ⟨m', hle, hex'⟩ := ih m (by unfold Func.cost; omega) (.after hm' hc ha') hrest
      exact executes_goto hv' hex' hle
    · exact h.simulated_exit ih hal hsep hm ha (by unfold Func.cost; omega) hv hrest

omit ih

/-! ## Whole runs -/

/-- Every execution of the original function has a counterpart that is at most longer by one
run of the inner loop, and not longer from outside the loops. -/
theorem simulated (hty : f.WellTyped tt)
    (hdom : (FlowGraph.ofFunc f).Dominates p.inner.preheader p.outer.latch) (n : Nat) :
    Simulated tt f outer inner p args base n := by
  induction n using Nat.strong_induction_on with
  | _ n ih =>
    intro q q' b s t k d rs hstage hex
    cases hstage with
    | outside hm hout hrs => exact h.simulated_outside ih hm hout hrs hex
    | before hm hb hrs hpos => exact h.simulated_before ih hal hty hdom hm hb hrs hpos hex
    | after hm hb ha => exact h.simulated_after ih hal hsep hm hb ha hex

/-- A run of the moved function from the entry. -/
theorem executes_apply (hty : f.WellTyped tt)
    (hdom : (FlowGraph.ofFunc f).Dominates p.inner.preheader p.outer.latch) {e : BlockId}
    (he : f.entry? = some e) {rs₀ : Array Region} (hbase : rs₀.size = base)
    (hex : Executes tt f args none e ⟨fun _ => none, rs₀⟩ d rs n) :
    ∃ n', n' ≤ n ∧ Executes tt (apply f p) args none e ⟨fun _ => none, rs₀⟩ d rs n' := by
  have hlive : e ∈ f.layout := List.mem_of_head? he
  have hr : (FlowGraph.ofFunc f).Reachable e := by
    refine ⟨e, ?_, .refl ?_ trivial⟩
    · rw [ FlowGraph.entry?, FlowGraph.blocks_ofFunc]
      exact he
    · rw [FlowGraph.blocks_ofFunc]
      exact hlive
  have hout := CountedLoop.entry_not_mem h.wellFormed.entry_predecessors h.outer_loop h.outer_counted he
  have htr : Traced f args base (fun _ => none) ⟨fun _ => none, rs₀⟩ :=
    ⟨fun j q hj => (by cases hj), Nat.le_of_eq hbase.symm, fun r i hri => (by cases hri)⟩
  have hm : Matched f inner args base (fun _ => none) none none e ⟨fun _ => none, rs₀⟩
      ⟨fun _ => none, rs₀⟩ :=
    ⟨hr, fun hin => hout (h.subset e hin), .inl rfl, htr, fun j d hj => (by cases hj),
      fun j d hj => (by cases hj), fun j _ => rfl⟩
  exact h.simulated hal hsep hty hdom n (.outside hm hout rfl) hex

end Nest

/-- Moving an inner loop that every iteration of the outer loop enters preserves every run that
succeeds, within the same limit: the result and all regions stay the same. -/
theorem run_apply {P : Program} {k : FuncId} {o i : LoopId} {m : Memory} {limit : Nat} {d : Datum}
    (hv : f.verify P.types = .ok ())
    (hcall : f.CallFree)
    (ho : o ∈ (LoopForest.ofFunc f).ids) (hi : i ∈ (LoopForest.ofFunc f).ids) (hne : i ≠ o)
    (hmem : ((LoopForest.ofFunc f).loop i).header ∈ ((LoopForest.ofFunc f).loop o).blocks)
    (hp : plan P.types f (.ofFunc f) (.ofFunc f) ((LoopForest.ofFunc f).loop o)
      ((LoopForest.ofFunc f).loop i) = .ok p)
    (hal : ∀ b ∈ ((LoopForest.ofFunc f).loop o).blocks, f.SlotFree (f.body b))
    (hdom : (DomTree.ofFunc f).dominates p.inner.preheader p.outer.latch = true)
    (hsep : Separate f args m.regions.size)
    (hrun : (P.run f args m limit).result = .ok d) :
    ((P.setFunc k (apply f p)).run (apply f p) args m limit).result = .ok d ∧
    ((P.setFunc k (apply f p)).run (apply f p) args m limit).memory.regions =
      (P.run f args m limit).memory.regions := by
  have h := nest_of_plan hv ho hi hne hmem hp
  have hd := Func.isDeclaration_of_live
    (CountedLoop.live_of_mem h.outer_loop h.outer_loop.header_mem)
  have hty := Func.wellTyped_of_verify hd hv
  rcases hhalt : P.run f args m limit with ⟨result, m', n⟩
  rw [hhalt] at hrun
  change result = .ok d at hrun
  subst hrun
  obtain ⟨e, he, hargs, hle, hex⟩ :=
    (Program.run_ok_iff (h.wellFormed.orderly hcall)).mp ⟨m', hhalt, rfl⟩
  obtain ⟨n', hle', hex'⟩ := h.executes_apply
    (fun b hb k hk => hal b hb k (Func.mem_body_of_code hk)) hsep hty
    (DomTree.dominates_ofGraph.mp hdom) he rfl hex
  obtain ⟨m'', hrun', hrs⟩ := (Program.run_ok_iff (p := P.setFunc k (apply f p))
    (h.orderly_apply hcall)).mpr ⟨e, h.entry_apply.trans he,
      (congrArg Array.size (relinked_apply f p).params_eq).trans hargs, Nat.le_trans hle' hle, hex'⟩
  rw [hrun']
  exact ⟨rfl, hrs⟩

/-- The inner loop runs once instead of twice. -/
theorem run_apply_straightNest :
    ((⟨fillTypes, #[apply straightNest fillPlan]⟩ : Program).run (apply straightNest fillPlan)
      [.ptr ⟨0, 0⟩, .bool true] ⟨#[#[0, 0, 0, 0, 0, 0, 0, 0]], 0, 0⟩ 100).result = .ok .void ∧
    ((⟨fillTypes, #[apply straightNest fillPlan]⟩ : Program).run (apply straightNest fillPlan)
      [.ptr ⟨0, 0⟩, .bool true] ⟨#[#[0, 0, 0, 0, 0, 0, 0, 0]], 0, 0⟩ 100).memory.regions =
    ((⟨fillTypes, #[straightNest]⟩ : Program).run straightNest [.ptr ⟨0, 0⟩, .bool true]
      ⟨#[#[0, 0, 0, 0, 0, 0, 0, 0]], 0, 0⟩ 100).memory.regions := by
  have hsep : Separate straightNest [.ptr ⟨0, 0⟩, .bool true] 1 := by
    refine ⟨fun k q hq => ?_, fun k l pk pl qk ql hkl _ _ _ _ hk hl => ?_⟩
    · rcases k with _ | _ | k <;> simp at hq
      subst hq
      decide
    · rcases k with _ | _ | k <;> simp at hk
      rcases l with _ | _ | l <;> simp at hl
      exact absurd rfl hkl
  exact run_apply (P := ⟨fillTypes, #[straightNest]⟩) (k := 0) (o := 0) (i := 1) (p := fillPlan)
    (by cbv) (by decide) (by decide) (by decide) (by decide) (by decide +kernel) (by cbv)
    (by decide +kernel) (by decide +kernel) hsep (by cbv)

end Fusion

end LoopNest
