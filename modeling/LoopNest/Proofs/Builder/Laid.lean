import LoopNest.Proofs.Builder.Calls
import LoopNest.Proofs.Graph.Nesting
import LoopNest.Proofs.Loop.Counted

/-!
# The flow graph of a tree of loops

Since the blocks of a call are numbered in a row, the loops of the calls are intervals of block
numbers, and two of them are nested or apart (`LoopCall.Apart`).  An interval is entered at its
header and left from there (`Laid.enters`, `Laid.leaves`), and every other branch but the one from a
latch goes up.  So a block is reached through blocks with smaller numbers, the back edges are those
of the latches, and the natural loops are the intervals.
-/

namespace LoopNest

namespace LoopCall

/-- A block belongs to the loop of a call. -/
def Covers (c : LoopCall) (b : Nat) : Prop := c.before < b ∧ b ≤ c.last

/-- A call was made while the body of another one was built. -/
def Inside (c d : LoopCall) : Prop := d.before + 2 ≤ c.before ∧ c.last + 2 ≤ d.last

/-- Two calls are the same, one inside the other, or one after the other. -/
inductive Apart (c d : LoopCall) : Prop where
  | same (h : c = d)
  | inside (h : c.Inside d)
  | around (h : d.Inside c)
  | earlier (h : c.last < d.before)
  | later (h : d.last < c.before)

/-- A branch that a call has made. -/
def Leads (c : LoopCall) (a b : Nat) : Prop :=
  a = c.before ∧ b = c.before + 1 ∨ a = c.before + 1 ∧ (b = c.before + 2 ∨ b = c.last + 1) ∨
    a + 1 = c.last ∧ b = c.last ∨ a = c.last ∧ b = c.before + 1

theorem Apart.symm {c d : LoopCall} (h : c.Apart d) : d.Apart c := by
  cases h with
  | same h => exact .same h.symm
  | inside h => exact .around h
  | around h => exact .inside h
  | earlier h => exact .later h
  | later h => exact .earlier h

end LoopCall

open LoopCall FlowGraph

namespace Laid

variable {f : Func} {calls : Calls} {here there : Nat}

/-! ## Intervals -/

theorem le (h : Laid f here calls there) : here ≤ there := by
  induction h with
  | none => exact Nat.le_refl _
  | call hc _ _ ihinner ihlater =>
    have := hc.le_last
    omega

theorem frame (h : Laid f here calls there) :
    ∀ c ∈ calls.all, c.Frame f ∧ here ≤ c.before ∧ c.last + 1 ≤ there := by
  induction h with
  | none => exact fun c hc => by cases hc
  | @call c inner later there hc hinner hlater ihinner ihlater =>
    have hle := hlater.le
    have hlast := hc.le_last
    intro d hd
    rcases Calls.mem_all_call.mp hd with rfl | hd | hd
    · exact ⟨hc, Nat.le_refl _, hle⟩
    · obtain ⟨hframe, hfirst, hend⟩ := ihinner d hd
      exact ⟨hframe, by omega, by omega⟩
    · obtain ⟨hframe, hfirst, hend⟩ := ihlater d hd
      exact ⟨hframe, by omega, by omega⟩

theorem apart (h : Laid f here calls there) :
    ∀ c ∈ calls.all, ∀ d ∈ calls.all, c.Apart d := by
  induction h with
  | none => exact fun c hc => by cases hc
  | @call c inner later there hc hinner hlater ihinner ihlater =>
    have hlast := hc.le_last
    have hin : ∀ d ∈ inner.all, d.Inside c := by
      intro d hd
      obtain ⟨-, hfirst, hend⟩ := hinner.frame d hd
      exact ⟨hfirst, by omega⟩
    have hout : ∀ d ∈ later.all, c.last < d.before := fun d hd => (hlater.frame d hd).2.1
    have hsplit : ∀ d ∈ inner.all, ∀ e ∈ later.all, d.Apart e := by
      intro d hd e he
      have := (hin d hd).2
      have := hout e he
      exact .earlier (by omega)
    intro d hd e he
    rcases Calls.mem_all_call.mp hd with rfl | hd' | hd' <;>
      rcases Calls.mem_all_call.mp he with rfl | he' | he'
    · exact .same rfl
    · exact .around (hin e he')
    · exact .earlier (hout e he')
    · exact .inside (hin d hd')
    · exact ihinner d hd' e he'
    · exact hsplit d hd' e he'
    · exact .later (hout d hd')
    · exact (hsplit e he' d hd').symm
    · exact ihlater d hd' e he'

/-- Every block but the last one was ended by a call. -/
theorem source (h : Laid f here calls there) :
    ∀ b, here ≤ b → b ≤ there → b = there ∨ ∃ c ∈ calls.all,
      b = c.before ∨ b = c.before + 1 ∨ b + 1 = c.last ∨ b = c.last := by
  induction h with
  | none => exact fun b hle hge => .inl (Nat.le_antisymm hge hle)
  | @call c inner later there hc hinner hlater ihinner ihlater =>
    have hlast := hc.le_last
    intro b hle hge
    have hcall : c ∈ (Calls.call c inner later).all := List.mem_cons_self
    by_cases hfirst : b ≤ c.before + 1
    · exact .inr ⟨c, hcall, by omega⟩
    · by_cases hbody : b + 1 ≤ c.last
      · rcases ihinner b (by omega) (by omega) with rfl | ⟨d, hd, hb⟩
        · exact .inr ⟨c, hcall, by omega⟩
        · exact .inr ⟨d, Calls.mem_all_call.mpr (.inr (.inl hd)), hb⟩
      · by_cases hlatch : b = c.last
        · exact .inr ⟨c, hcall, by omega⟩
        · rcases ihlater b (by omega) hge with rfl | ⟨d, hd, hb⟩
          · exact .inl rfl
          · exact .inr ⟨d, Calls.mem_all_call.mpr (.inr (.inr hd)), hb⟩

/-- Every block but the first one was made by a call. -/
theorem target (h : Laid f here calls there) :
    ∀ b, here < b → b ≤ there → ∃ c ∈ calls.all,
      b = c.before + 1 ∨ b = c.before + 2 ∨ b = c.last ∨ b = c.last + 1 := by
  induction h with
  | none => exact fun b hlt hge => absurd hge (Nat.not_le_of_lt hlt)
  | @call c inner later there hc hinner hlater ihinner ihlater =>
    have hlast := hc.le_last
    intro b hlt hge
    have hcall : c ∈ (Calls.call c inner later).all := List.mem_cons_self
    by_cases hfirst : b ≤ c.before + 2
    · exact ⟨c, hcall, by omega⟩
    · by_cases hbody : b + 1 ≤ c.last
      · obtain ⟨d, hd, hb⟩ := ihinner b (by omega) (by omega)
        exact ⟨d, Calls.mem_all_call.mpr (.inr (.inl hd)), hb⟩
      · by_cases hlatch : b ≤ c.last + 1
        · exact ⟨c, hcall, by omega⟩
        · obtain ⟨d, hd, hb⟩ := ihlater b (by omega) hge
          exact ⟨d, Calls.mem_all_call.mpr (.inr (.inr hd)), hb⟩

theorem nodup (h : Laid f here calls there) : (calls.all.map before).Nodup := by
  induction h with
  | none => exact List.nodup_nil
  | @call c inner later there hc hinner hlater ihinner ihlater =>
    have hlast := hc.le_last
    rw [Calls.all, List.map_cons, List.map_append, List.nodup_cons, List.nodup_append]
    refine ⟨?_, ihinner, ihlater, ?_⟩
    · simp only [List.mem_append, List.mem_map, not_or, not_exists, not_and]
      refine ⟨fun d hd => ?_, fun d hd => ?_⟩
      · have := (hinner.frame d hd).2.1
        omega
      · have := (hlater.frame d hd).2.1
        omega
    · intro a ha b hb
      obtain ⟨d, hd, rfl⟩ := List.mem_map.mp ha
      obtain ⟨e, he, rfl⟩ := List.mem_map.mp hb
      have hlt := (hinner.frame d hd).2.2
      have hge := (hlater.frame e he).2.1
      have hle := (hinner.frame d hd).1.le_last
      omega

/-- The calls around a call are those around the call in whose body it was made, and that call. -/
theorem parent (h : Laid f here calls there) (outer : Option LoopCall) :
    ∀ e ∈ calls.within outer, e.1 ∈ calls.all ∧
      ((e.2 = outer ∧ ∀ d ∈ calls.all, ¬ e.1.Inside d) ∨
      ∃ c ∈ calls.all, e.2 = some c ∧ e.1.Inside c ∧
        ∀ d ∈ calls.all, e.1.Inside d → d = c ∨ c.Inside d) := by
  induction h generalizing outer with
  | none => exact fun e he => by cases he
  | @call c inner later there hc hinner hlater ihinner ihlater =>
    have hlast := hc.le_last
    intro e he
    rcases List.mem_cons.mp he with rfl | he
    · refine ⟨List.mem_cons_self, .inl ⟨rfl, fun d hd hin => ?_⟩⟩
      obtain ⟨hlow, hhigh⟩ : c.Inside d := hin
      rcases Calls.mem_all_call.mp hd with rfl | hd | hd
      · omega
      · have := (hinner.frame d hd).2.1
        omega
      · have := (hlater.frame d hd).2.1
        omega
    rcases List.mem_append.mp he with he | he
    · obtain ⟨hmem, hcases⟩ := ihinner (some c) e he
      obtain ⟨-, hfirst, hend⟩ := hinner.frame e.1 hmem
      have hle := (hinner.frame e.1 hmem).1.le_last
      refine ⟨Calls.mem_all_call.mpr (.inr (.inl hmem)), .inr ?_⟩
      have hlater' : ∀ d ∈ later.all, ¬ e.1.Inside d := by
        rintro d hd ⟨hlow, -⟩
        have := (hlater.frame d hd).2.1
        omega
      rcases hcases with ⟨hout, hnone⟩ | ⟨d, hd, hparent, hin, hall⟩
      · refine ⟨c, List.mem_cons_self, hout, ⟨hfirst, by omega⟩, fun d hd hin => ?_⟩
        rcases Calls.mem_all_call.mp hd with rfl | hd | hd
        · exact .inl rfl
        · exact absurd hin (hnone d hd)
        · exact absurd hin (hlater' d hd)
      · refine ⟨d, Calls.mem_all_call.mpr (.inr (.inl hd)), hparent, hin, fun d' hd' hin' => ?_⟩
        rcases Calls.mem_all_call.mp hd' with rfl | hd' | hd'
        · obtain ⟨-, hdfirst, hdend⟩ := hinner.frame d hd
          exact .inr ⟨hdfirst, by omega⟩
        · exact hall d' hd' hin'
        · exact absurd hin' (hlater' d' hd')
    · obtain ⟨hmem, hcases⟩ := ihlater outer e he
      have hfirst := (hlater.frame e.1 hmem).2.1
      have hle := (hlater.frame e.1 hmem).1.le_last
      have hearlier : ∀ d, d = c ∨ d ∈ inner.all → ¬ e.1.Inside d := by
        rintro d (rfl | hd) ⟨-, hhigh⟩
        · omega
        · have := (hinner.frame d hd).2.2
          omega
      refine ⟨Calls.mem_all_call.mpr (.inr (.inr hmem)), ?_⟩
      rcases hcases with ⟨hout, hnone⟩ | ⟨d, hd, hparent, hin, hall⟩
      · refine .inl ⟨hout, fun d hd => ?_⟩
        rcases Calls.mem_all_call.mp hd with hd | hd | hd
        · exact hearlier d (.inl hd)
        · exact hearlier d (.inr hd)
        · exact hnone d hd
      · refine .inr
          ⟨d, Calls.mem_all_call.mpr (.inr (.inr hd)), hparent, hin, fun d' hd' hin' => ?_⟩
        rcases Calls.mem_all_call.mp hd' with hd' | hd' | hd'
        · exact absurd hin' (hearlier d' (.inl hd'))
        · exact absurd hin' (hearlier d' (.inr hd'))
        · exact hall d' hd' hin'

/-! ## Branches -/

section

variable (h : Laid f 0 calls there) (hlayout : f.layout = List.range (there + 1))
  (hend : f.successors there = []) {c : LoopCall} {a b : Nat}
include h hlayout hend

omit hlayout in
/-- Every branch was made by a call. -/
theorem exists_leads (ha : a ≤ there) (hs : b ∈ f.successors a) :
    ∃ c ∈ calls.all, c.Leads a b := by
  rcases h.source a (Nat.zero_le _) ha with rfl | ⟨c, hc, hac⟩
  · rw [hend] at hs
    cases hs
  · obtain ⟨hframe, -, -⟩ := h.frame c hc
    refine ⟨c, hc, ?_⟩
    rcases hac with rfl | rfl | hac | rfl
    · rw [hframe.enter, List.mem_singleton] at hs
      exact .inl ⟨rfl, hs⟩
    · rw [hframe.test, List.mem_cons, List.mem_singleton] at hs
      exact .inr (.inl ⟨rfl, hs⟩)
    · have hleave := hframe.leave
      rw [← hac, Nat.add_sub_cancel] at hleave
      rw [hleave, List.mem_singleton] at hs
      exact .inr (.inr (.inl ⟨hac, hs.trans hac⟩))
    · rw [hframe.back, List.mem_singleton] at hs
      exact .inr (.inr (.inr ⟨rfl, hs⟩))

theorem edge_iff : (ofFunc f).Edge a b ↔ ∃ c ∈ calls.all, c.Leads a b := by
  rw [edge_ofFunc, hlayout, List.mem_range, List.mem_range]
  constructor
  · rintro ⟨ha, -, hs⟩
    exact h.exists_leads hend (Nat.le_of_lt_succ ha) hs
  · rintro ⟨c, hc, hl⟩
    obtain ⟨hframe, -, hlast⟩ := h.frame c hc
    have hle := hframe.le_last
    rcases hl with ⟨rfl, rfl⟩ | ⟨rfl, hb⟩ | ⟨ha, rfl⟩ | ⟨rfl, rfl⟩
    · exact ⟨by omega, by omega, by simp [hframe.enter]⟩
    · refine ⟨by omega, by omega, ?_⟩
      rw [hframe.test, List.mem_cons, List.mem_singleton]
      exact hb
    · have hleave := hframe.leave
      rw [← ha, Nat.add_sub_cancel] at hleave
      exact ⟨by omega, by omega, by rw [hleave, ha]; exact List.mem_cons_self⟩
    · exact ⟨by omega, by omega, by simp [hframe.back]⟩

omit h hend in
theorem mem_predecessors_iff (hb : b ≤ there) :
    a ∈ f.predecessors b ↔ (ofFunc f).Edge a b := by
  rw [Func.mem_predecessors, edge_ofFunc]
  exact and_congr_right fun _ =>
    (and_iff_right (hlayout ▸ List.mem_range.mpr (Nat.lt_succ_of_le hb))).symm

omit h hend in
theorem entry_eq : FlowGraph.entry? (ofFunc f) = some 0 := by
  rw [FlowGraph.entry?, blocks_ofFunc, hlayout, List.head?_range, if_neg (Nat.succ_ne_zero _)]

/-- A loop is entered at its header, from the block before it. -/
theorem enters (hc : c ∈ calls.all) (he : (ofFunc f).Edge a b) (ha : ¬ c.Covers a)
    (hb : c.Covers b) : a = c.before ∧ b = c.before + 1 := by
  obtain ⟨d, hd, hl⟩ := (h.edge_iff hlayout hend).mp he
  have hle := (h.frame c hc).1.le_last
  have hle' := (h.frame d hd).1.le_last
  simp only [Covers, Leads] at ha hb hl
  cases h.apart c hc d hd with
  | same h =>
    subst h
    omega
  | inside h =>
    obtain ⟨hlow, hhigh⟩ := h
    omega
  | around h =>
    obtain ⟨hlow, hhigh⟩ := h
    omega
  | earlier h => omega
  | later h => omega

/-- A loop is left from its header. -/
theorem leaves (hc : c ∈ calls.all) (he : (ofFunc f).Edge a b) (ha : c.Covers a)
    (hb : ¬ c.Covers b) : a = c.before + 1 ∧ b = c.last + 1 := by
  obtain ⟨d, hd, hl⟩ := (h.edge_iff hlayout hend).mp he
  have hle := (h.frame c hc).1.le_last
  have hle' := (h.frame d hd).1.le_last
  simp only [Covers, Leads] at ha hb hl
  cases h.apart c hc d hd with
  | same h =>
    subst h
    omega
  | inside h =>
    obtain ⟨hlow, hhigh⟩ := h
    omega
  | around h =>
    obtain ⟨hlow, hhigh⟩ := h
    omega
  | earlier h => omega
  | later h => omega

/-- The header is entered from the block before the loop and from the latch. -/
theorem edge_header_iff (hc : c ∈ calls.all) :
    (ofFunc f).Edge a (c.before + 1 : Nat) ↔ a = c.before ∨ a = c.last := by
  rw [h.edge_iff hlayout hend]
  constructor
  · rintro ⟨d, hd, hl⟩
    have hle := (h.frame c hc).1.le_last
    have hle' := (h.frame d hd).1.le_last
    simp only [Leads] at hl
    cases h.apart c hc d hd with
    | same h =>
      subst h
      omega
    | inside h =>
      obtain ⟨hlow, hhigh⟩ := h
      omega
    | around h =>
      obtain ⟨hlow, hhigh⟩ := h
      omega
    | earlier h => omega
    | later h => omega
  · exact fun ha => ⟨c, hc, by unfold Leads; omega⟩

/-- The exit is entered from the header. -/
theorem edge_exit_iff (hc : c ∈ calls.all) :
    (ofFunc f).Edge a (c.last + 1 : Nat) ↔ a = c.before + 1 := by
  rw [h.edge_iff hlayout hend]
  constructor
  · rintro ⟨d, hd, hl⟩
    have hle := (h.frame c hc).1.le_last
    have hle' := (h.frame d hd).1.le_last
    simp only [Leads] at hl
    cases h.apart c hc d hd with
    | same h =>
      subst h
      omega
    | inside h =>
      obtain ⟨hlow, hhigh⟩ := h
      omega
    | around h =>
      obtain ⟨hlow, hhigh⟩ := h
      omega
    | earlier h => omega
    | later h => omega
  · exact fun ha => ⟨c, hc, by unfold Leads; omega⟩

/-! ## Dominance -/

/-- A block is reached through blocks with smaller numbers. -/
theorem via_le : ∀ b ≤ there, (ofFunc f).Via (· ≤ b) 0 b := by
  intro b
  induction b using Nat.strongRecOn with
  | ind b ih =>
    intro hle
    rcases Nat.eq_zero_or_pos b with rfl | hpos
    · refine .refl ?_ (Nat.le_refl 0)
      rw [blocks_ofFunc, hlayout]
      exact List.mem_range.mpr (Nat.succ_pos _)
    · obtain ⟨c, hc, hb⟩ := h.target b hpos hle
      have hlast := (h.frame c hc).1.le_last
      have hstep : ∃ a < b, c.Leads a b := by
        simp only [Leads]
        rcases hb with rfl | rfl | rfl | rfl
        · exact ⟨c.before, by omega, by omega⟩
        · exact ⟨c.before + 1, by omega, by omega⟩
        · exact ⟨c.last - 1, by omega, by omega⟩
        · exact ⟨c.before + 1, by omega, by omega⟩
      obtain ⟨a, hlt, hl⟩ := hstep
      have he := (h.edge_iff hlayout hend).mpr ⟨c, hc, hl⟩
      exact ((ih a hlt (by omega)).mono fun x hx => Nat.le_trans hx (Nat.le_of_lt hlt)).snoc he
        (Nat.le_refl b)

theorem reachable (hb : b ≤ there) : (ofFunc f).Reachable b :=
  ⟨0, entry_eq hlayout, (h.via_le hlayout hend b hb).mono fun _ _ => trivial⟩

/-- A back edge leads from a latch to its header. -/
theorem backEdge (he : (ofFunc f).Edge a b) (hd : (ofFunc f).Dominates b a) :
    ∃ c ∈ calls.all, a = c.last ∧ b = c.before + 1 := by
  obtain ⟨c, hc, hl⟩ := (h.edge_iff hlayout hend).mp he
  obtain ⟨hframe, -, hlast⟩ := h.frame c hc
  have hle := hframe.le_last
  simp only [Leads] at hl
  by_cases hlt : a < b
  · refine absurd hd (not_dominates_iff.mpr ⟨0, entry_eq hlayout, ?_⟩)
    exact (h.via_le hlayout hend a (by omega)).mono fun x hx =>
      Nat.ne_of_lt (Nat.lt_of_le_of_lt hx hlt)
  · exact ⟨c, hc, by omega⟩

/-- The header dominates the loop. -/
theorem header_dominates (hc : c ∈ calls.all) (hb : c.Covers b) :
    (ofFunc f).Dominates (c.before + 1 : Nat) b := by
  by_contra hnot
  obtain ⟨e, he, hvia⟩ := not_dominates_iff.mp hnot
  cases (entry_eq hlayout).symm.trans he
  refine hvia.rec_on (motive := fun x => ¬ c.Covers x) (fun h => Nat.not_lt_zero _ h.1)
    (fun x y hxy _ hy hx hcov => ?_) hb
  exact hy (h.enters hlayout hend hc hxy hx hcov).2

/-- The block before a loop dominates the header. -/
theorem before_dominates (hc : c ∈ calls.all) :
    (ofFunc f).Dominates c.before (c.before + 1 : Nat) := by
  have hle := (h.frame c hc).1.le_last
  have hheader : c.Covers (c.before + 1) := ⟨by omega, by omega⟩
  by_contra hnot
  obtain ⟨e, he, hvia⟩ := not_dominates_iff.mp hnot
  cases (entry_eq hlayout).symm.trans he
  refine hvia.rec_on (motive := fun x => ¬ c.Covers x) (fun h => Nat.not_lt_zero _ h.1)
    (fun x y hxy hx _ hout hcov => ?_) hheader
  exact hx (h.enters hlayout hend hc hxy hout hcov).1

/-- The header dominates the exit. -/
theorem header_dominates_exit (hc : c ∈ calls.all) :
    (ofFunc f).Dominates (c.before + 1 : Nat) (c.last + 1 : Nat) := by
  refine .of_edges ?_ fun a ha => ?_
  · rw [entry_eq hlayout]
    exact fun h => Nat.succ_ne_zero _ (Option.some.inj h).symm
  · rw [(h.edge_exit_iff hlayout hend hc).mp ha]
    exact .refl

/-- Every block of a loop leads to the latch around the header. -/
theorem via_last (hc : c ∈ calls.all) : ∀ n b, c.last ≤ n + b → c.Covers b → b ≠ c.before + 1 →
    (ofFunc f).Via (· ≠ c.before + 1) b c.last := by
  obtain ⟨hframe, -, hlast⟩ := h.frame c hc
  have hle := hframe.le_last
  intro n
  induction n with
  | zero =>
    rintro b hn ⟨hlow, hhigh⟩ hne
    have hb : b = c.last := by omega
    subst hb
    refine .refl ?_ hne
    rw [blocks_ofFunc, hlayout]
    exact List.mem_range.mpr (by omega)
  | succ n ih =>
    rintro b hn ⟨hlow, hhigh⟩ hne
    by_cases hb : b = c.last
    · exact ih b (by omega) ⟨hlow, hhigh⟩ hne
    have hnext : (ofFunc f).Via (· ≠ c.before + 1) (b + 1) c.last :=
      ih (b + 1) (by omega) ⟨by omega, by omega⟩ (by omega)
    rcases h.source b (Nat.zero_le _) (by omega) with heq | ⟨d, hd, hbd⟩
    · omega
    by_cases hlatch : b = d.last
    · -- The latch of a loop inside leads on through the header of that loop.
      have hle' := (h.frame d hd).1.le_last
      have hin : d.before + 1 ≠ c.before + 1 := by
        cases h.apart c hc d hd with
        | same h =>
          subst h
          exact absurd hlatch hb
        | inside h =>
          obtain ⟨h₁, h₂⟩ := h
          omega
        | around h =>
          obtain ⟨h₁, h₂⟩ := h
          omega
        | earlier h => omega
        | later h => omega
      have hback := (h.edge_iff hlayout hend (a := b) (b := d.before + 1)).mpr
        ⟨d, hd, by unfold Leads; omega⟩
      have hexit := (h.edge_iff hlayout hend (a := d.before + 1) (b := b + 1)).mpr
        ⟨d, hd, by unfold Leads; omega⟩
      exact .cons hback hne (.cons hexit hin hnext)
    · have hup := (h.edge_iff hlayout hend (a := b) (b := b + 1)).mpr
        ⟨d, hd, by unfold Leads; omega⟩
      exact .cons hup hne hnext

/-! ## Natural loops -/

section

variable {l : NaturalLoop} (hl : IsLoop (ofFunc f) l) (hc : c ∈ calls.all)
  (hheader : l.header = c.before + 1)
include hl hc hheader

theorem mem_latches_iff : b ∈ l.latches ↔ b = c.last := by
  obtain ⟨hframe, -, hlast⟩ := h.frame c hc
  have hle := hframe.le_last
  rw [hl.mem_latches, hheader, h.edge_header_iff hlayout hend hc]
  constructor
  · rintro ⟨hb, hr, hd⟩
    refine hb.resolve_left fun hb => ?_
    -- The header does not dominate the block before it, which has a smaller number.
    subst hb
    refine absurd hd (not_dominates_iff.mpr ⟨0, entry_eq hlayout, ?_⟩)
    exact (h.via_le hlayout hend c.before (by omega)).mono fun x hx =>
      Nat.ne_of_lt (Nat.lt_succ_of_le hx)
  · rintro rfl
    exact ⟨.inr rfl, h.reachable hlayout hend (by omega),
      h.header_dominates hlayout hend hc ⟨by omega, by omega⟩⟩

theorem mem_blocks_iff : b ∈ l.blocks ↔ c.Covers b := by
  obtain ⟨hframe, -, hlast⟩ := h.frame c hc
  have hle := hframe.le_last
  rw [hl.mem_blocks, hheader]
  constructor
  · rintro (rfl | ⟨hr, p, hp, hvia⟩)
    · exact ⟨by omega, by omega⟩
    · cases (h.mem_latches_iff hlayout hend hl hc hheader).mp hp
      refine hvia.rec_back ⟨by omega, by omega⟩ fun x y hxy _ hy hcov => ?_
      by_contra hx
      exact hy (h.enters hlayout hend hc hxy hx hcov).2
  · intro hb
    refine Classical.or_iff_not_imp_left.mpr fun hne => ⟨?_, c.last, ?_, ?_⟩
    · obtain ⟨-, hhigh⟩ := hb
      exact h.reachable hlayout hend (by omega)
    · exact (h.mem_latches_iff hlayout hend hl hc hheader).mpr rfl
    · exact h.via_last hlayout hend hc c.last b (Nat.le_add_right _ _) hb hne

end

end

end Laid

end LoopNest
