import LoopNest.Proofs.Graph.Loops

/-!
# The parent of a loop

The loops around a loop form a chain, and the parent is the innermost of them.  `LoopForest.parent?`
compares sizes; here its answer is described by inclusion alone (`parent?_eq_some_iff`).
-/

namespace LoopNest

namespace LoopForest

variable {g : FlowGraph} (hg : g.Coherent) {i j k : LoopId}

include hg

/-- Of two loops that contain one header, one lies in the other. -/
theorem subset_or_subset (hi : i ∈ (forest g).ids) (hj : j ∈ (forest g).ids)
    (hk : k ∈ (forest g).ids)
    (hij : ((forest g).loop i).header ∈ ((forest g).loop j).blocks)
    (hik : ((forest g).loop i).header ∈ ((forest g).loop k).blocks) :
    (∀ b ∈ ((forest g).loop j).blocks, b ∈ ((forest g).loop k).blocks) ∨
    (∀ b ∈ ((forest g).loop k).blocks, b ∈ ((forest g).loop j).blocks) := by
  have hlj := isLoop_loop hg hj
  have hlk := isLoop_loop hg hk
  by_cases hjk : j = k
  · exact .inl fun b hb => hjk ▸ hb
  · have hne : ((forest g).loop j).header ≠ ((forest g).loop k).header :=
      fun h => hjk (header_injective hj hk h)
    rcases (hlj.dominates hij).total (hlk.dominates hik) (isLoop_loop hg hi).reachable with hd | hd
    · exact .inr (hlj.subset_of_dominates hlk hne hd hij hik).2
    · exact .inl (hlk.subset_of_dominates hlj (Ne.symm hne) hd hik hij).2

/-- A loop that contains the header of another one is larger. -/
theorem size_lt_of_header_mem (hi : i ∈ (forest g).ids) (hj : j ∈ (forest g).ids) (hne : i ≠ j)
    (hmem : ((forest g).loop i).header ∈ ((forest g).loop j).blocks) :
    (forest g).size i < (forest g).size j := by
  obtain ⟨hout, hsub⟩ := surrounds_of_header_mem hg hi hj hne hmem
  exact size_lt hi hj hsub (isLoop_loop hg hj).header_mem hout

/-- Loops with the same blocks are the same. -/
theorem eq_of_subset (hj : j ∈ (forest g).ids) (hk : k ∈ (forest g).ids)
    (hjk : ∀ b ∈ ((forest g).loop j).blocks, b ∈ ((forest g).loop k).blocks)
    (hkj : ∀ b ∈ ((forest g).loop k).blocks, b ∈ ((forest g).loop j).blocks) : j = k := by
  by_contra hne
  have hout := (surrounds_of_header_mem hg hj hk hne (hjk _ (isLoop_loop hg hj).header_mem)).1
  exact hout (hkj _ (isLoop_loop hg hk).header_mem)

theorem mem_parentCandidates_iff (hi : i ∈ (forest g).ids) :
    j ∈ ((forest g).ids.filter fun o => o != i && (forest g).size i < (forest g).size o &&
      ((forest g).loop o).contains ((forest g).loop i).header) ↔
    j ∈ (forest g).ids ∧ j ≠ i ∧ ((forest g).loop i).header ∈ ((forest g).loop j).blocks := by
  rw [mem_parentCandidates]
  exact ⟨fun ⟨hj, hne, _, hmem⟩ => ⟨hj, hne, hmem⟩, fun ⟨hj, hne, hmem⟩ =>
    ⟨hj, hne, size_lt_of_header_mem hg hi hj (Ne.symm hne) hmem, hmem⟩⟩

/-- The parent is the loop that lies in all others around the loop. -/
theorem parent?_eq_some_iff (hi : i ∈ (forest g).ids) : (forest g).parent? i = some j ↔
    (j ∈ (forest g).ids ∧ j ≠ i ∧ ((forest g).loop i).header ∈ ((forest g).loop j).blocks) ∧
    ∀ k ∈ (forest g).ids, k ≠ i → ((forest g).loop i).header ∈ ((forest g).loop k).blocks →
      ∀ b ∈ ((forest g).loop j).blocks, b ∈ ((forest g).loop k).blocks := by
  have hsmall := isSmallest_smallest (forest g) ((forest g).ids.filter fun o =>
    o != i && (forest g).size i < (forest g).size o &&
      ((forest g).loop o).contains ((forest g).loop i).header)
  -- The smallest loop around another one lies in all of them.
  have hleast {p : LoopId} (hp : (forest g).parent? i = some p) :
      (p ∈ (forest g).ids ∧ p ≠ i ∧ ((forest g).loop i).header ∈ ((forest g).loop p).blocks) ∧
      ∀ k ∈ (forest g).ids, k ≠ i → ((forest g).loop i).header ∈ ((forest g).loop k).blocks →
        ∀ b ∈ ((forest g).loop p).blocks, b ∈ ((forest g).loop k).blocks := by
    rw [show (forest g).smallest _ = some p from hp] at hsmall
    obtain ⟨hpids, hpne, hpmem⟩ := (mem_parentCandidates_iff hg hi).mp hsmall.1
    refine ⟨⟨hpids, hpne, hpmem⟩, fun k hk hkne hkmem => ?_⟩
    have hle := hsmall.2 k ((mem_parentCandidates_iff hg hi).mpr ⟨hk, hkne, hkmem⟩)
    rcases subset_or_subset hg hi hpids hk hpmem hkmem with hsub | hsub
    · exact hsub
    · by_cases hpk : p = k
      · exact fun b hb => hpk ▸ hb
      · have hlt := size_lt_of_header_mem hg hk hpids (Ne.symm hpk)
          (hsub _ (isLoop_loop hg hk).header_mem)
        omega
  refine ⟨hleast, fun ⟨⟨hj, hne, hmem⟩, hin⟩ => ?_⟩
  cases hp : (forest g).parent? i with
  | none =>
    rw [show (forest g).smallest _ = none from hp] at hsmall
    have := (mem_parentCandidates_iff hg hi).mpr ⟨hj, hne, hmem⟩
    rw [show ((forest g).ids.filter _) = [] from hsmall] at this
    exact absurd this List.not_mem_nil
  | some p =>
    obtain ⟨⟨hpids, hpne, hpmem⟩, hpin⟩ := hleast hp
    rw [eq_of_subset hg hpids hj (hpin j hj hne hmem) (hin p hpids hpne hpmem)]

theorem parent?_eq_none_iff (hi : i ∈ (forest g).ids) : (forest g).parent? i = none ↔
    ∀ k ∈ (forest g).ids, k ≠ i → ((forest g).loop i).header ∉ ((forest g).loop k).blocks := by
  have hsmall := isSmallest_smallest (forest g) ((forest g).ids.filter fun o =>
    o != i && (forest g).size i < (forest g).size o &&
      ((forest g).loop o).contains ((forest g).loop i).header)
  constructor
  · intro hp k hk hne hmem
    rw [show (forest g).smallest _ = none from hp] at hsmall
    have := (mem_parentCandidates_iff hg hi).mpr ⟨hk, hne, hmem⟩
    rw [show ((forest g).ids.filter _) = [] from hsmall] at this
    exact absurd this List.not_mem_nil
  · intro hnone
    cases hp : (forest g).parent? i with
    | none => rfl
    | some p =>
      obtain ⟨⟨hpids, hpne, hpmem⟩, _⟩ := (parent?_eq_some_iff hg hi).mp hp
      exact absurd hpmem (hnone p hpids hpne)

/-- A loop in another one lies in a child of it. -/
theorem mem_child {i j : LoopId} (hi : i ∈ (forest g).ids) (hj : j ∈ (forest g).ids) (hne : i ≠ j)
    (hmem : ((forest g).loop i).header ∈ ((forest g).loop j).blocks) :
    ∃ c ∈ (forest g).children j, ((forest g).loop i).header ∈ ((forest g).loop c).blocks := by
  cases hp : (forest g).parent? i with
  | none => exact absurd hmem ((parent?_eq_none_iff hg hi).mp hp j hj (Ne.symm hne))
  | some k =>
    obtain ⟨⟨hk, hki, hkmem⟩, hleast⟩ := (parent?_eq_some_iff hg hi).mp hp
    by_cases hkj : k = j
    · subst hkj
      exact ⟨i, List.mem_filter.mpr ⟨hi, by simp [hp]⟩, (isLoop_loop hg hi).header_mem⟩
    · have hkin := hleast j hj (Ne.symm hne) hmem _ (isLoop_loop hg hk).header_mem
      obtain ⟨c, hc, hin⟩ := mem_child hk hj hkj hkin
      refine ⟨c, hc, ?_⟩
      by_cases hkc : k = c
      · rwa [← hkc]
      · have hcid := (List.mem_filter.mp hc).1
        exact (surrounds_of_header_mem hg hk hcid hkc hin).2 _ hkmem
termination_by (forest g).size j - (forest g).size i
decreasing_by
  have h₁ := size_lt_of_header_mem hg hi hk (Ne.symm hki) hkmem
  have h₂ := size_lt_of_header_mem hg hk hj hkj hkin
  omega

omit hg in
/-- A loop has one child if one loop, and no other, has it for parent. -/
theorem children_eq_singleton_iff : (forest g).children j = [i] ↔
    ∀ k, k ∈ (forest g).ids ∧ (forest g).parent? k = some j ↔ k = i := by
  have hmem (k : LoopId) : k ∈ (forest g).children j ↔
      k ∈ (forest g).ids ∧ (forest g).parent? k = some j := by
    simp [children]
  constructor
  · intro h k
    rw [← hmem, h, List.mem_singleton]
  · intro h
    have hnodup : ((forest g).children j).Nodup := List.nodup_range.filter _
    refine List.perm_singleton.mp ((List.perm_ext_iff_of_nodup hnodup (List.nodup_singleton _)).mpr
      fun k => ?_)
    rw [hmem, h, List.mem_singleton]

end LoopForest

end LoopNest
