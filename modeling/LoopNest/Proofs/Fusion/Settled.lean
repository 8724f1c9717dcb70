import LoopNest.Proofs.Fusion.Decided
import LoopNest.Proofs.Fusion.Kept
import Mathlib.Logic.Relation

/-!
# The pass ends, and once is enough

The pass tries each header once, so it ends (`untried_lt`).  That one run is enough needs two
facts about a move.

* It makes no new candidates: a loop with one loop inside was the same before, with the same loop
  inside, and neither of them is the outer loop of the move (`Shape.exists_nesting_of_apply`).
* It does not touch the loops tried before.  Candidates are tried in the order of their headers, so
  the header of a candidate dominates no header that was tried before.  `Settled` is the invariant
  that carries this: all nests at headers that were tried are refused, and no header of a nest that
  is left to try dominates one of them.

When no candidate is left, all nests are refused, and the pass leaves such a function alone
(`sweep_of_refused`).
-/

namespace LoopNest

namespace Fusion

open FlowGraph
open LoopForest hiding ofFunc

variable {tt : TypeTable} {f : Func} {p : Plan} {tried : List BlockId} {o i : LoopId}

/-- The loop `o` of the function has exactly one loop inside, the loop `i`. -/
def Nests (f : Func) (o i : LoopId) : Prop := (LoopForest.ofFunc f).children o = [i]

theorem nests_iff : Nests f o i ↔ ∀ k, k ∈ (forest (ofFunc f)).ids ∧
    (forest (ofFunc f)).parent? k = some o ↔ k = i :=
  children_eq_singleton_iff

namespace Nests

variable (h : Nests f o i)

include h

theorem inner_mem : i ∈ (forest (ofFunc f)).ids := ((nests_iff.mp h i).mpr rfl).1

theorem parent_eq : (forest (ofFunc f)).parent? i = some o := ((nests_iff.mp h i).mpr rfl).2

theorem inside : o ∈ (forest (ofFunc f)).ids ∧ o ≠ i ∧
    ((forest (ofFunc f)).loop i).header ∈ ((forest (ofFunc f)).loop o).blocks :=
  ((parent?_eq_some_iff (coherent_ofFunc f) h.inner_mem).mp h.parent_eq).1

theorem outer_mem : o ∈ (forest (ofFunc f)).ids := h.inside.1

/-- The loops inside the outer one are the inner one and the loops inside that. -/
theorem mem_inner {k : LoopId} (hk : k ∈ (forest (ofFunc f)).ids) (hko : k ≠ o)
    (hmem : ((forest (ofFunc f)).loop k).header ∈ ((forest (ofFunc f)).loop o).blocks) :
    ((forest (ofFunc f)).loop k).header ∈ ((forest (ofFunc f)).loop i).blocks := by
  obtain ⟨c, hc, hin⟩ := mem_child (coherent_ofFunc f) hk h.outer_mem hko hmem
  have hc : c = i := List.mem_singleton.mp (h ▸ hc)
  rwa [← hc]

end Nests

/-! ## Candidates -/

/-- What the search for a candidate finds at one loop. -/
theorem found_eq_some {l : LoopId} {x : LoopId × LoopId} :
    (match (LoopForest.ofFunc f).children l with
      | [child] =>
        if tried.contains ((LoopForest.ofFunc f).loop l).header then none else some (l, child)
      | _ => none) = some x ↔
    Nests f l x.2 ∧ ((LoopForest.ofFunc f).loop l).header ∉ tried ∧ l = x.1 := by
  rw [Nests]
  split
  · rename_i child hchild
    split
    · rename_i hin
      simp_all
    · rename_i hin
      rw [hchild]
      constructor
      · intro h
        cases h
        exact ⟨rfl, by simpa using hin, rfl⟩
      · rintro ⟨hc, _, hl⟩
        cases hc
        rw [hl]
  · rename_i hno
    simp only [reduceCtorEq, false_iff]
    exact fun h => hno _ h.1

/-- The candidate is the first nest that was not tried. -/
theorem candidate?_first (h : candidate? (.ofFunc f) tried = some (o, i)) :
    Nests f o i ∧ ((LoopForest.ofFunc f).loop o).header ∉ tried ∧
    ∀ o' i', Nests f o' i' → ((LoopForest.ofFunc f).loop o').header ∉ tried → o ≤ o' := by
  obtain ⟨before, l, after, hids, hl, hnone⟩ := List.findSome?_eq_some_iff.mp h
  obtain ⟨hnest, hout, rfl⟩ := found_eq_some.mp hl
  refine ⟨hnest, hout, fun o' i' hnest' hout' => ?_⟩
  have hmem : o' ∈ (LoopForest.ofFunc f).ids := hnest'.outer_mem
  have hpair : (LoopForest.ofFunc f).ids.Pairwise (· < ·) := List.pairwise_lt_range
  rw [hids] at hmem hpair
  rcases List.mem_append.mp hmem with hb | ha
  · -- The search went past the loops before.
    have hsome := (found_eq_some (x := (o', i'))).mpr ⟨hnest', hout', rfl⟩
    have hfalse : none = some (o', i') := (hnone o' hb).symm.trans hsome
    cases hfalse
  · rcases List.mem_cons.mp ha with rfl | ha
    · exact Nat.le_refl _
    · exact Nat.le_of_lt ((List.pairwise_cons.mp (List.pairwise_append.mp hpair).2.1).1 o' ha)

theorem tried_of_candidate?_none (h : candidate? (.ofFunc f) tried = none) (hn : Nests f o i) :
    ((LoopForest.ofFunc f).loop o).header ∈ tried := by
  by_contra hout
  have hsome := (found_eq_some (x := (o, i))).mpr ⟨hn, hout, rfl⟩
  have hfalse : none = some (o, i) :=
    (List.findSome?_eq_none_iff.mp h o hn.outer_mem).symm.trans hsome
  cases hfalse

/-- The shape of an accepted candidate. -/
theorem shape_of_candidate (hf : f.Framed) (hn : Nests f o i)
    (hp : plan tt f (.ofFunc f) (.ofFunc f) ((LoopForest.ofFunc f).loop o)
      ((LoopForest.ofFunc f).loop i) = .ok p) :
    Shape f ((LoopForest.ofFunc f).loop o) ((LoopForest.ofFunc f).loop i) p := by
  obtain ⟨ho, hne, hmem⟩ := hn.inside
  exact shape_of_plan hf ho hn.inner_mem (Ne.symm hne) hmem hp

/-! ## Nests after a move -/

namespace Shape

variable (hn : Nests f o i)
  (h : Shape f ((forest (ofFunc f)).loop o) ((forest (ofFunc f)).loop i) p)

include hn h

/-- Other loops than the outer one keep their blocks. -/
theorem mem_iff_of_ne {l l' : LoopId} (hl : l ∈ (forest (ofFunc f)).ids)
    (hl' : l' ∈ (forest (ofFunc (apply f p))).ids)
    (hh : ((forest (ofFunc (apply f p))).loop l').header = ((forest (ofFunc f)).loop l).header)
    (hlo : l ≠ o) (b : BlockId) : b ∈ ((forest (ofFunc (apply f p))).loop l').blocks ↔
      b ∈ ((forest (ofFunc f)).loop l).blocks := by
  rw [mem_loop_iff hn.inner_mem hn.parent_eq h hl hl' hh]
  exact and_iff_left fun heq => absurd heq hlo

/-- A child of another loop than the outer one stays its child. -/
theorem parent_apply_of_ne {k k' l l' : LoopId} (hk : k ∈ (forest (ofFunc f)).ids)
    (hk' : k' ∈ (forest (ofFunc (apply f p))).ids)
    (hkh : ((forest (ofFunc (apply f p))).loop k').header = ((forest (ofFunc f)).loop k).header)
    (hl' : l' ∈ (forest (ofFunc (apply f p))).ids)
    (hlh : ((forest (ofFunc (apply f p))).loop l').header = ((forest (ofFunc f)).loop l).header)
    (hlo : l ≠ o) (hp : (forest (ofFunc f)).parent? k = some l) :
    (forest (ofFunc (apply f p))).parent? k' = some l' := by
  have hg := coherent_ofFunc f
  obtain ⟨⟨hl, hlk, hmem⟩, hleast⟩ := (parent?_eq_some_iff hg hk).mp hp
  have hblocks := mem_iff_of_ne hn h hl hl' hlh hlo
  refine (parent?_eq_some_iff (coherent_ofFunc _) hk').mpr ⟨⟨hl', ?_, ?_⟩, ?_⟩
  · rintro rfl
    exact hlk (header_injective hl hk (hlh.symm.trans hkh))
  · rw [hkh, hblocks]
    exact hmem
  · intro m' hm' hmk' hmem' b hb
    obtain ⟨m, hm, hmh⟩ := h.exists_loop_of_apply hm'
    rw [hkh, mem_loop_iff hn.inner_mem hn.parent_eq h hm hm' hmh.symm] at hmem'
    rw [mem_loop_iff hn.inner_mem hn.parent_eq h hm hm' hmh.symm]
    have hmk : m ≠ k := by
      rintro rfl
      exact hmk' (header_injective hm' hk' (hmh.symm.trans hkh.symm))
    refine ⟨hleast m hm hmk hmem'.1 b ((hblocks b).mp hb), ?_⟩
    -- Were it the outer loop, the parent would lie in it, so in the inner loop.
    rintro rfl
    have hlin := hleast m hm hmk hmem'.1 _ (isLoop_loop hg hl).header_mem
    have hli := hn.mem_inner hl hlo hlin
    refine absurd ?_ (hmem'.2 rfl)
    by_cases heq : l = i
    · rwa [← heq]
    · exact (surrounds_of_header_mem hg hl hn.inner_mem heq hli).2 _ hmem

/-- A child of another loop than the outer one was its child, or is the moved loop and the outer one
was its child. -/
theorem parent_of_apply {k k' l l' : LoopId} (hk : k ∈ (forest (ofFunc f)).ids)
    (hk' : k' ∈ (forest (ofFunc (apply f p))).ids)
    (hkh : ((forest (ofFunc f)).loop k).header = ((forest (ofFunc (apply f p))).loop k').header)
    (hl : l ∈ (forest (ofFunc f)).ids)
    (hlh : ((forest (ofFunc f)).loop l).header = ((forest (ofFunc (apply f p))).loop l').header)
    (hlo : l ≠ o) (hp : (forest (ofFunc (apply f p))).parent? k' = some l') :
    (forest (ofFunc f)).parent? k = some l ∨ k = i ∧ (forest (ofFunc f)).parent? o = some l := by
  have hg := coherent_ofFunc f
  obtain ⟨⟨hl', hlk', hmem'⟩, hleast'⟩ := (parent?_eq_some_iff (coherent_ofFunc _) hk').mp hp
  have hblocks := mem_iff_of_ne hn h hl hl' hlh.symm hlo
  have hmem : ((forest (ofFunc f)).loop k).header ∈ ((forest (ofFunc f)).loop l).blocks := by
    rwa [hkh, ← hblocks]
  have hlk : l ≠ k := by
    rintro rfl
    exact hlk' (header_injective hl' hk' (hlh.symm.trans hkh))
  cases hq : (forest (ofFunc f)).parent? k with
  | none => exact absurd hmem ((parent?_eq_none_iff hg hk).mp hq l hl hlk)
  | some q =>
    obtain ⟨⟨hqid, hqk, hqmem⟩, hleast⟩ := (parent?_eq_some_iff hg hk).mp hq
    by_cases hqo : q = o
    · subst hqo
      have hki : k = i := (nests_iff.mp hn k).mp ⟨hk, hq⟩
      subst hki
      have hpar := parent_apply hn.inner_mem hn.parent_eq h hk' hkh.symm
      rw [hp, Option.map_some] at hpar
      obtain ⟨m, hm, hmh⟩ := Option.map_eq_some_iff.mp hpar.symm
      have hmid := ((parent?_eq_some_iff hg hqid).mp hm).1.1
      have hml : m = l := header_injective hmid hl (hmh.trans hlh.symm)
      exact .inr ⟨rfl, hml ▸ hm⟩
    · -- The parent still holds the loop, so the two parents lie in one another.
      obtain ⟨q', hq', hqh⟩ := h.exists_loop_apply hqid
      have hqblocks := mem_iff_of_ne hn h hqid hq' hqh hqo
      have hqk' : q' ≠ k' := by
        rintro rfl
        exact hqk (header_injective hqid hk (hqh.symm.trans hkh.symm))
      have hqmem' : ((forest (ofFunc (apply f p))).loop k').header ∈
          ((forest (ofFunc (apply f p))).loop q').blocks := by
        rw [hqblocks, ← hkh]
        exact hqmem
      have hlq (b : BlockId) (hb : b ∈ ((forest (ofFunc f)).loop l).blocks) :
          b ∈ ((forest (ofFunc f)).loop q).blocks :=
        (hqblocks b).mp (hleast' q' hq' hqk' hqmem' b ((hblocks b).mpr hb))
      rw [eq_of_subset hg hl hqid hlq (hleast l hl hlk hmem)]
      exact .inl rfl

/-- A loop with one loop inside was the same before the move, and neither of the two is the outer
loop of the move. -/
theorem exists_nesting_of_apply {l' c' : LoopId} (hn' : Nests (apply f p) l' c') :
    ∃ l c, Nests f l c ∧ l ≠ o ∧ c ≠ o ∧
      ((forest (ofFunc f)).loop l).header = ((forest (ofFunc (apply f p))).loop l').header ∧
      ((forest (ofFunc f)).loop c).header = ((forest (ofFunc (apply f p))).loop c').header := by
  have hc' := hn'.inner_mem
  have hl' := hn'.outer_mem
  obtain ⟨_, hlc', hmem'⟩ := hn'.inside
  obtain ⟨l, hl, hlh⟩ := h.exists_loop_of_apply hl'
  obtain ⟨c, hc, hch⟩ := h.exists_loop_of_apply hc'
  have hlc : l ≠ c := by
    rintro rfl
    exact hlc' (header_injective hl' hc' (hlh.symm.trans hch))
  have hlo : l ≠ o := by
    rintro rfl
    rw [← hch, mem_loop_iff hn.inner_mem hn.parent_eq h hl hl' hlh.symm] at hmem'
    exact hmem'.2 rfl (hn.mem_inner hc (Ne.symm hlc) hmem'.1)
  -- A child of the loop is the child after the move.
  have hchild {k : LoopId} (hk : k ∈ (forest (ofFunc f)).ids)
      (hp : (forest (ofFunc f)).parent? k = some l) : k = c := by
    obtain ⟨k', hk', hkh⟩ := h.exists_loop_apply hk
    have hp' := parent_apply_of_ne hn h hk hk' hkh hl' hlh.symm hlo hp
    have heq := (nests_iff.mp hn' k').mp ⟨hk', hp'⟩
    exact header_injective hk hc (by rw [← hkh, heq, hch])
  have hoi := hn.inside.2.1
  have hpar : (forest (ofFunc f)).parent? c = some l := by
    rcases parent_of_apply hn h hc hc' hch hl hlh hlo hn'.parent_eq with hp | ⟨hci, hp⟩
    · exact hp
    · exact absurd ((hchild hn.outer_mem hp).trans hci) hoi
  refine ⟨l, c, nests_iff.mpr fun k => ⟨fun hk => hchild hk.1 hk.2, ?_⟩, hlo, ?_, hlh, hch⟩
  · rintro rfl
    exact ⟨hc, hpar⟩
  · -- Were the child the outer loop, the moved loop would be a second child.
    rintro rfl
    obtain ⟨i', hi', hih⟩ := h.exists_loop_apply hn.inner_mem
    have hpi := parent_apply hn.inner_mem hn.parent_eq h hi' hih
    rw [hpar, Option.map_some] at hpi
    obtain ⟨m', hm', hmh⟩ := Option.map_eq_some_iff.mp hpi
    have hmid := ((parent?_eq_some_iff (coherent_ofFunc _) hi').mp hm').1.1
    have hml : m' = l' := header_injective hmid hl' (hmh.trans hlh)
    have heq := (nests_iff.mp hn' i').mp ⟨hi', hml ▸ hm'⟩
    exact hoi (header_injective hc hn.inner_mem (by rw [hch, ← heq, hih]))

end Shape

/-! ## What was tried stays refused -/

/-- The pass does not move the loop `i` out of the loop `o`. -/
def Refused (tt : TypeTable) (f : Func) (o i : LoopId) : Prop :=
  ∃ e, plan tt f (.ofFunc f) (.ofFunc f) ((LoopForest.ofFunc f).loop o)
    ((LoopForest.ofFunc f).loop i) = .error e

/-- What the pass can rely on between two tries. -/
structure Settled (tt : TypeTable) (tried : List BlockId) (f : Func) : Prop where
  framed : f.Framed
  /-- The nests at headers that were tried are refused. -/
  refused : ∀ o i, Nests f o i → ((LoopForest.ofFunc f).loop o).header ∈ tried → Refused tt f o i
  /-- The header of a nest that is left to try dominates no header that was tried. -/
  apart : ∀ o i, Nests f o i → ((LoopForest.ofFunc f).loop o).header ∉ tried → ∀ b ∈ tried,
    ¬ (ofFunc f).Dominates ((LoopForest.ofFunc f).loop o).header b

/-- A header that does not dominate the outer loop of a nest does not dominate the inner one. -/
theorem Nests.not_dominates_inner {l c : LoopId} (hn : Nests f l c)
    (ho : o ∈ (forest (ofFunc f)).ids) (hco : c ≠ o)
    (hdom : ¬ (ofFunc f).Dominates ((forest (ofFunc f)).loop o).header
      ((forest (ofFunc f)).loop l).header) :
    ¬ (ofFunc f).Dominates ((forest (ofFunc f)).loop o).header
      ((forest (ofFunc f)).loop c).header := by
  intro hd
  have hg := coherent_ofFunc f
  obtain ⟨hl, _, hmem⟩ := hn.inside
  have hil := isLoop_loop hg hl
  have hic := isLoop_loop hg hn.inner_mem
  rcases hd.total (hil.dominates hmem) hic.reachable with hol | hlo
  · exact hdom hol
  · -- The header lies between the two, so its loop lies in the inner one.
    have hol : o ≠ l := by
      rintro rfl
      exact hdom .refl
    have hin := hn.mem_inner ho hol (hil.mem_of_between hmem hlo hd)
    have heq := hd.antisymm (hic.dominates hin) hic.reachable
    exact hco (header_injective hn.inner_mem ho heq.symm)

namespace Settled

variable (h : Settled tt tried f) (hc : candidate? (.ofFunc f) tried = some (o, i))

include h hc

/-- The header of a candidate is apart from what was tried, and the other headers are apart from
it. -/
theorem apart_cons {l c : LoopId} (hn : Nests f l c)
    (hl : ((LoopForest.ofFunc f).loop l).header ∉ ((LoopForest.ofFunc f).loop o).header :: tried) :
    ∀ b ∈ ((LoopForest.ofFunc f).loop o).header :: tried,
      ¬ (ofFunc f).Dominates ((LoopForest.ofFunc f).loop l).header b := by
  obtain ⟨_, _, hfirst⟩ := candidate?_first hc
  obtain ⟨hlo, hlt⟩ := not_or.mp (mt List.mem_cons.mpr hl)
  intro b hb
  rcases List.mem_cons.mp hb with rfl | hb
  · have hle := hfirst l c hn hlt
    have hne : o ≠ l := fun heq => hlo (by rw [heq])
    exact not_dominates_of_lt (coherent_ofFunc f) hn.outer_mem (Nat.lt_of_le_of_ne hle hne)
  · exact h.apart l c hn hlt b hb

/-- A candidate that is refused is settled. -/
theorem skip (hr : Refused tt f o i) :
    Settled tt (((LoopForest.ofFunc f).loop o).header :: tried) f where
  framed := h.framed
  refused l c hn hl := by
    obtain ⟨hno, _, _⟩ := candidate?_first hc
    rcases List.mem_cons.mp hl with heq | hl
    · obtain rfl : l = o := header_injective hn.outer_mem hno.outer_mem heq
      obtain rfl : c = i := (nests_iff.mp hno c).mp ((nests_iff.mp hn c).mpr rfl)
      exact hr
    · exact h.refused l c hn hl
  apart _ _ hn hl := h.apart_cons hc hn hl

/-- A candidate that is moved is settled, and what was tried before stays refused. -/
theorem move (hp : plan tt f (.ofFunc f) (.ofFunc f) ((LoopForest.ofFunc f).loop o)
      ((LoopForest.ofFunc f).loop i) = .ok p) :
    Settled tt (((LoopForest.ofFunc f).loop o).header :: tried) (apply f p) := by
  obtain ⟨hno, hout, hfirst⟩ := candidate?_first hc
  have hs := shape_of_candidate h.framed hno hp
  have hrel := relinked_apply f p
  refine ⟨hs.framed_apply, fun l' c' hn' hl' => ?_, fun l' c' hn' hl' b hb hd => ?_⟩
  · obtain ⟨l, c, hn, hlo, hco, hlh, hch⟩ := Shape.exists_nesting_of_apply hno hs hn'
    have hl : ((LoopForest.ofFunc f).loop l).header ∈ tried := by
      rcases List.mem_cons.mp hl' with heq | hmem
      · exact absurd (header_injective hn.outer_mem hno.outer_mem (hlh.trans heq)) hlo
      · exact hlh ▸ hmem
    have hdoml := h.apart o i hno hout _ hl
    have hdomc := hn.not_dominates_inner hno.outer_mem hco hdoml
    have hkl := hs.kept_apply hn.outer_mem hn'.outer_mem hdoml
      (Shape.mem_iff_of_ne hno hs hn.outer_mem hn'.outer_mem hlh.symm hlo) hlh.symm
    have hkc := hs.kept_apply hn.inner_mem hn'.inner_mem hdomc
      (Shape.mem_iff_of_ne hno hs hn.inner_mem hn'.inner_mem hch.symm hco) hch.symm
    obtain ⟨e, he⟩ := h.refused l c hn hl
    cases hq : plan tt (apply f p) (.ofFunc (apply f p)) (.ofFunc (apply f p))
        ((LoopForest.ofFunc (apply f p)).loop l') ((LoopForest.ofFunc (apply f p)).loop c') with
    | error e' => exact ⟨e', hq⟩
    | ok q =>
      have hg := coherent_ofFunc f
      obtain ⟨q', hq'⟩ := exists_plan_of_kept hrel (operands_apply f p) hs.mem_layout_apply hkl hkc
        (isLoop_loop hg hn.outer_mem) (isLoop_loop hg hn.inner_mem) hq
      cases he.symm.trans hq'
  · obtain ⟨l, c, hn, _, _, hlh, _⟩ := Shape.exists_nesting_of_apply hno hs hn'
    have hlh : ((LoopForest.ofFunc f).loop l).header =
      ((LoopForest.ofFunc (apply f p)).loop l').header := hlh
    rw [← hlh] at hl' hd
    refine h.apart_cons hc hn hl' b hb (hs.dominates_of_apply (fun hob => ?_) hd)
    rcases List.mem_cons.mp hb with heq | hb
    · exact heq
    · exact absurd hob (h.apart o i hno hout b hb)

end Settled

theorem settled_nil (hf : f.Framed) : Settled tt [] f where
  framed := hf
  refused _ _ _ hmem := absurd hmem List.not_mem_nil
  apart _ _ _ _ _ hb := absurd hb List.not_mem_nil

/-! ## Tries -/

/-- One try: the header of the candidate is remembered, and an accepted candidate is moved. -/
inductive Try (tt : TypeTable) : List BlockId × Func → List BlockId × Func → Prop where
  | move {tried : List BlockId} {f : Func} {o i : LoopId} {p : Plan} :
    candidate? (.ofFunc f) tried = some (o, i) →
    plan tt f (.ofFunc f) (.ofFunc f) ((LoopForest.ofFunc f).loop o)
      ((LoopForest.ofFunc f).loop i) = .ok p →
    Try tt (tried, f) (((LoopForest.ofFunc f).loop o).header :: tried, apply f p)
  | skip {tried : List BlockId} {f : Func} {o i : LoopId} :
    candidate? (.ofFunc f) tried = some (o, i) → Refused tt f o i →
    Try tt (tried, f) (((LoopForest.ofFunc f).loop o).header :: tried, f)

variable {s s' : List BlockId × Func}

theorem Settled.step (h : Settled tt s.1 s.2) (ht : Try tt s s') : Settled tt s'.1 s'.2 := by
  cases ht with
  | move hc hp => exact h.move hc hp
  | skip hc hr => exact h.skip hc hr

theorem Settled.run (h : Settled tt s.1 s.2) (hr : Relation.ReflTransGen (Try tt) s s') :
    Settled tt s'.1 s'.2 := by
  induction hr with
  | refl => exact h
  | tail _ ht ih => exact ih.step ht

/-- A loop with one loop inside was the same at the start of the run. -/
theorem exists_nesting_of_run (h : Settled tt s.1 s.2) (hr : Relation.ReflTransGen (Try tt) s s')
    {l' c' : LoopId} (hn' : Nests s'.2 l' c') : ∃ l c, Nests s.2 l c ∧
      ((LoopForest.ofFunc s.2).loop l).header = ((LoopForest.ofFunc s'.2).loop l').header ∧
      ((LoopForest.ofFunc s.2).loop c).header = ((LoopForest.ofFunc s'.2).loop c').header := by
  induction hr generalizing l' c' with
  | refl => exact ⟨l', c', hn', rfl, rfl⟩
  | tail hr ht ih =>
    have hs := h.run hr
    cases ht with
    | skip _ _ => exact ih hn'
    | move hc hp =>
      obtain ⟨hno, _, _⟩ := candidate?_first hc
      obtain ⟨l, c, hn, _, _, hlh, hch⟩ :=
        Shape.exists_nesting_of_apply hno (shape_of_candidate hs.framed hno hp) hn'
      obtain ⟨l₀, c₀, hn₀, hlh₀, hch₀⟩ := ih hn
      exact ⟨l₀, c₀, hn₀, hlh₀.trans hlh, hch₀.trans hch⟩

/-! ## The end of a run -/

/-- The headers that are left to try. -/
def untried (tried : List BlockId) (f : Func) : List BlockId :=
  ((LoopForest.ofFunc f).loops.toList.map NaturalLoop.header).filter fun b => b ∉ tried

theorem mem_untried {b : BlockId} : b ∈ untried tried f ↔
    (∃ l ∈ (LoopForest.ofFunc f).ids, ((LoopForest.ofFunc f).loop l).header = b) ∧ b ∉ tried := by
  rw [untried, List.mem_filter, mem_headers_iff, decide_eq_true_iff]

theorem nodup_untried (tried : List BlockId) (f : Func) : (untried tried f).Nodup :=
  (nodup_headers (ofFunc f)).filter _

/-- A try uses up a header. -/
theorem untried_lt (h : Settled tt s.1 s.2) (ht : Try tt s s') :
    (untried s'.1 s'.2).length < (untried s.1 s.2).length := by
  have hlt {tried tried' : List BlockId} {f f' : Func} {b : BlockId} (hb : b ∈ untried tried f)
      (hb' : b ∉ untried tried' f') (hsub : ∀ c ∈ untried tried' f', c ∈ untried tried f) :
      (untried tried' f').length < (untried tried f).length := by
    have hnodup : (b :: untried tried' f').Nodup := List.nodup_cons.mpr ⟨hb', nodup_untried _ _⟩
    exact (hnodup.subperm fun c hc => (List.mem_cons.mp hc).elim (· ▸ hb) (hsub c)).length_le
  cases ht with
  | move hc hp =>
    obtain ⟨hno, hout, _⟩ := candidate?_first hc
    have hs := shape_of_candidate h.framed hno hp
    refine hlt (mem_untried.mpr ⟨⟨_, hno.outer_mem, rfl⟩, hout⟩)
      (fun hmem => (mem_untried.mp hmem).2 List.mem_cons_self) fun c hcm => ?_
    obtain ⟨⟨l', hl', hlh⟩, hct⟩ := mem_untried.mp hcm
    obtain ⟨l, hl, heq⟩ := hs.exists_loop_of_apply hl'
    exact mem_untried.mpr ⟨⟨l, hl, heq.trans hlh⟩, (not_or.mp (mt List.mem_cons.mpr hct)).2⟩
  | skip hc _ =>
    obtain ⟨hno, hout, _⟩ := candidate?_first hc
    refine hlt (mem_untried.mpr ⟨⟨_, hno.outer_mem, rfl⟩, hout⟩)
      (fun hmem => (mem_untried.mp hmem).2 List.mem_cons_self) fun c hcm => ?_
    obtain ⟨hex, hct⟩ := mem_untried.mp hcm
    exact mem_untried.mpr ⟨hex, (not_or.mp (mt List.mem_cons.mpr hct)).2⟩

/-- There are no more headers than blocks. -/
theorem untried_le (hf : f.Framed) : (untried tried f).length ≤ f.blocks.size := by
  have hsub : ∀ b ∈ untried tried f, b ∈ List.range f.blocks.size := by
    intro b hb
    obtain ⟨⟨l, hl, rfl⟩, _⟩ := mem_untried.mp hb
    have hil := isLoop_loop (coherent_ofFunc f) hl
    obtain ⟨t, ht⟩ := hf.ends _ (CountedLoop.live_of_mem hil hil.header_mem)
    rw [List.mem_range]
    by_contra hge
    have hnone : f.blocks[((forest (ofFunc f)).loop l).header]? = none :=
      Array.getElem?_eq_none (Nat.le_of_not_lt hge)
    have hbody := (Func.mem_body_of_terminator ht).1
    simp [Func.body, Func.block, hnone, Block.fresh] at hbody
  simpa using ((nodup_untried tried f).subperm hsub).length_le

/-! ## The sweep as a run -/

theorem sweep_of_none (hc : candidate? (.ofFunc f) tried = none) (fuel : Nat) :
    sweep tt fuel tried f = (f, false, []) := by
  cases fuel with
  | zero => rfl
  | succ fuel =>
    have hc : candidate? (LoopForest.ofGraph (ofFunc f) (.ofGraph (ofFunc f))) tried = none := hc
    simp only [sweep, hc]

/-- A sweep with a candidate tries it and goes on. -/
theorem sweep_of_some (hc : candidate? (.ofFunc f) tried = some (o, i)) :
    ∃ s : List BlockId × Func, Try tt (tried, f) s ∧ ∀ fuel,
      (sweep tt (fuel + 1) tried f).1 = (sweep tt fuel s.1 s.2).1 ∧
      ∀ fuel', sweep tt fuel' s.1 s.2 = sweep tt fuel s.1 s.2 →
        sweep tt (fuel' + 1) tried f = sweep tt (fuel + 1) tried f := by
  have hc' : candidate? (LoopForest.ofGraph (ofFunc f) (.ofGraph (ofFunc f))) tried = some (o, i) :=
    hc
  cases hp : plan tt f (ofFunc f) (.ofFunc f) ((LoopForest.ofFunc f).loop o)
      ((LoopForest.ofFunc f).loop i) with
  | ok p =>
    have hp' : plan tt f (ofFunc f) (.ofGraph (ofFunc f))
        ((LoopForest.ofGraph (ofFunc f) (.ofGraph (ofFunc f))).loop o)
        ((LoopForest.ofGraph (ofFunc f) (.ofGraph (ofFunc f))).loop i) = .ok p := hp
    refine ⟨_, .move hc hp, fun fuel => ⟨?_, fun fuel' heq => ?_⟩⟩
    · simp only [sweep, hc', hp']
      rfl
    · simp only [LoopForest.ofFunc] at heq
      simp only [sweep, hc', hp', heq]
  | error e =>
    have hp' : plan tt f (ofFunc f) (.ofGraph (ofFunc f))
        ((LoopForest.ofGraph (ofFunc f) (.ofGraph (ofFunc f))).loop o)
        ((LoopForest.ofGraph (ofFunc f) (.ofGraph (ofFunc f))).loop i) = .error e := hp
    refine ⟨_, .skip hc ⟨e, hp⟩, fun fuel => ⟨?_, fun fuel' heq => ?_⟩⟩
    · simp only [sweep, hc', hp']
      rfl
    · simp only [LoopForest.ofFunc] at heq
      simp only [sweep, hc', hp', heq]

/-- A sweep with more fuel than headers are left runs to the end. -/
theorem sweep_runs : ∀ (n : Nat) {tried : List BlockId} {f : Func}, Settled tt tried f →
    (untried tried f).length ≤ n →
    (∃ tried', Relation.ReflTransGen (Try tt) (tried, f) (tried', (sweep tt (n + 1) tried f).1) ∧
      candidate? (.ofFunc (sweep tt (n + 1) tried f).1) tried' = none) ∧
    ∀ fuel, n < fuel → sweep tt fuel tried f = sweep tt (n + 1) tried f := by
  intro n
  induction n with
  | zero =>
    intro tried f _ hle
    have hc : candidate? (.ofFunc f) tried = none := by
      cases hc : candidate? (.ofFunc f) tried with
      | none => rfl
      | some x =>
        have hc : candidate? (.ofFunc f) tried = some (x.1, x.2) := hc
        obtain ⟨hno, hout, _⟩ := candidate?_first hc
        have hmem := mem_untried.mpr ⟨⟨_, hno.outer_mem, rfl⟩, hout⟩
        rw [List.length_eq_zero_iff.mp (Nat.le_zero.mp hle)] at hmem
        exact absurd hmem List.not_mem_nil
    simp only [sweep_of_none hc]
    exact ⟨⟨tried, .refl, hc⟩, fun _ _ => trivial⟩
  | succ n ih =>
    intro tried f h hle
    cases hc : candidate? (.ofFunc f) tried with
    | none =>
      simp only [sweep_of_none hc]
      exact ⟨⟨tried, .refl, hc⟩, fun _ _ => trivial⟩
    | some x =>
      have hc : candidate? (.ofFunc f) tried = some (x.1, x.2) := hc
      obtain ⟨s, ht, hstep⟩ := sweep_of_some hc
      have hs : Settled tt s.1 s.2 := h.step (s := (tried, f)) ht
      have hlt : (untried s.1 s.2).length < (untried tried f).length :=
        untried_lt (s := (tried, f)) h ht
      obtain ⟨⟨tried', hrun, hnone⟩, hfuel⟩ := ih hs (by omega)
      rw [(hstep (n + 1)).1]
      refine ⟨⟨tried', .head ht hrun, hnone⟩, fun fuel hn => ?_⟩
      obtain ⟨k, rfl⟩ : ∃ k, fuel = k + 1 := ⟨fuel - 1, by omega⟩
      exact (hstep (n + 1)).2 k (hfuel k (by omega))

/-- If all nests are refused, the pass leaves the function alone. -/
theorem sweep_of_refused (h : ∀ o i, Nests f o i → Refused tt f o i) : ∀ (fuel : Nat)
    (tried : List BlockId), (sweep tt fuel tried f).1 = f ∧ (sweep tt fuel tried f).2.1 = false := by
  intro fuel
  induction fuel with
  | zero => exact fun _ => ⟨rfl, rfl⟩
  | succ fuel ih =>
    intro tried
    rw [sweep]
    split
    · exact ⟨rfl, rfl⟩
    · rename_i o i hc
      obtain ⟨hno, _, _⟩ := candidate?_first hc
      obtain ⟨e, he⟩ := h o i hno
      simp only
      split
      · rename_i p hp
        cases he.symm.trans hp
      · exact ih _

theorem fuseLoops_eq (tt : TypeTable) (f : Func) :
    (f.fuseLoops tt).func = (sweep tt (f.blocks.size + 1) [] f).1 ∧
    (f.fuseLoops tt).changed = (sweep tt (f.blocks.size + 1) [] f).2.1 := by
  rw [Func.fuseLoops]
  exact ⟨rfl, rfl⟩

/-- The pass ends, and a second run changes nothing.

The tries of a run come to a state without a candidate, the function of that state is the result,
and more fuel gives the same.  All the while, a nest that is not refused is one whose header was
not tried yet, and it was a nest of the same two loops in every state before.  No decision gets
stuck in either run if the function lists what it uses. -/
theorem fuseLoops_idempotent (hv : f.verify tt = .ok ()) :
    (f.UsesListed → f.fuseStuck tt = false ∧ (f.fuseLoops tt).func.fuseStuck tt = false) ∧
    (∃ tried, Relation.ReflTransGen (Try tt) ([], f) (tried, (f.fuseLoops tt).func) ∧
      candidate? (.ofFunc (f.fuseLoops tt).func) tried = none) ∧
    (∀ fuel, f.blocks.size < fuel → sweep tt fuel [] f = sweep tt (f.blocks.size + 1) [] f) ∧
    ((f.fuseLoops tt).func.fuseLoops tt).func = (f.fuseLoops tt).func ∧
    ((f.fuseLoops tt).func.fuseLoops tt).changed = false ∧
    ∀ tried g tried' g', Relation.ReflTransGen (Try tt) ([], f) (tried, g) →
      Relation.ReflTransGen (Try tt) (tried, g) (tried', g') →
      ∀ o' i', Nests g' o' i' → ¬ Refused tt g' o' i' →
        ((LoopForest.ofFunc g').loop o').header ∉ tried' ∧ ∃ o i, Nests g o i ∧
          ((LoopForest.ofFunc g).loop o).header = ((LoopForest.ofFunc g').loop o').header ∧
          ((LoopForest.ofFunc g).loop i).header = ((LoopForest.ofFunc g').loop i').header := by
  have hf := Func.framed_of_verify hv
  have hs : Settled tt [] f := settled_nil hf
  obtain ⟨⟨tried, hrun, hnone⟩, hfuel⟩ := sweep_runs f.blocks.size hs (untried_le hf)
  rw [← (fuseLoops_eq tt f).1] at hrun hnone
  have hr : Settled tt tried (f.fuseLoops tt).func := hs.run (s := ([], f)) hrun
  have hagain := sweep_of_refused (fun o i hn => hr.refused o i hn (tried_of_candidate?_none hnone hn))
    ((f.fuseLoops tt).func.blocks.size + 1) []
  rw [← (fuseLoops_eq _ _).1, ← (fuseLoops_eq _ _).2] at hagain
  refine ⟨fun hu => ?_, ⟨tried, hrun, hnone⟩, hfuel, hagain.1, hagain.2, ?_⟩
  · obtain ⟨hv', hu'⟩ := verify_sweep (f.blocks.size + 1) [] hv hu
    rw [← (fuseLoops_eq tt f).1] at hv' hu'
    exact ⟨Func.fuseStuck_eq_false hv hu, Func.fuseStuck_eq_false hv' hu'⟩
  intro tried g tried' g' hr hr' o' i' hn' hnot
  have hg : Settled tt tried g := hs.run (s := ([], f)) hr
  have hg' : Settled tt tried' g' := hg.run (s := (tried, g)) hr'
  exact ⟨fun hmem => hnot (hg'.refused o' i' hn' hmem),
    exists_nesting_of_run (s := (tried, g)) hg hr' hn'⟩

/-- The nest of `straightNest` is moved by the first run and left alone by the second. -/
theorem fuseLoops_idempotent_straightNest :
    (straightNest.fuseStuck fillTypes = false ∧
      (straightNest.fuseLoops fillTypes).func.fuseStuck fillTypes = false) ∧
    ((straightNest.fuseLoops fillTypes).func.fuseLoops fillTypes).func =
      (straightNest.fuseLoops fillTypes).func ∧
    ((straightNest.fuseLoops fillTypes).func.fuseLoops fillTypes).changed = false ∧
    (straightNest.fuseLoops fillTypes).changed = true := by
  have h := fuseLoops_idempotent (f := straightNest) (by cbv : straightNest.verify fillTypes = .ok ())
  exact ⟨h.1 (by decide), h.2.2.2.1, h.2.2.2.2.1, by cbv⟩

/-- A nest whose inner loop stores to a cast of an instruction that does not exist.  The cast records
the entry as its block, but it is listed nowhere. -/
def strayFill : Func where
  __ := straightNest
  insts := straightNest.insts.set! 10 ⟨.store (.const 3) (.inst 17), 0, none, some 5⟩ ++
    #[⟨.bitcast (.inst 999), 4, none, some 0⟩]

/-- The verifier accepts the function, and the pass gets stuck on the way from the pointer. -/
theorem fuseStuck_strayFill :
    strayFill.verify fillTypes = .ok () ∧ ¬ strayFill.UsesListed ∧
    strayFill.fuseStuck fillTypes = true :=
  ⟨by cbv, by decide +kernel, by decide +kernel⟩

end Fusion

end LoopNest
