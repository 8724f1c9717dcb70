import LoopNest.Proofs.Graph.Paths
import Mathlib.Data.List.Basic

/-!
# What a search finds

A depth-first search enters exactly the blocks that a path leads to around the blocks it
has to avoid (`visited_searchFrom`).  The fuel is never used up: a call needs at most one
more unit than there are live blocks left to enter (`unvisited`), and every nested call has
one block less to enter.

What one call of `visit` does is said once, in `VisitSpec`: it enters only blocks that a
path leads to around those entered before, it enters its own block, and it enters every
live successor of what it enters.  The list of finished blocks grows by exactly the blocks
that were entered.
-/

namespace LoopNest

namespace FlowGraph

variable {g : FlowGraph}

/-! ## Rows -/

theorem get?_index (g : FlowGraph) (b : BlockId) : g.index.get? b = g.edges.lookup b :=
  BlockMap.get?_ofList g.edges b

/-- A live block has a row. -/
theorem exists_row {b : BlockId} (hb : b ∈ g.blocks) : ∃ next, g.edges.lookup b = some next := by
  have h : (g.edges.lookup b).isSome = true := by
    rw [List.lookup_isSome_iff]
    obtain ⟨e, he, heq⟩ := List.mem_map.mp hb
    exact ⟨e, he, beq_iff_eq.mpr heq.symm⟩
  exact Option.isSome_iff_exists.mp h

/-- A block with a row is live. -/
theorem live_of_row {b : BlockId} {next : List BlockId} (h : g.edges.lookup b = some next) :
    b ∈ g.blocks := by
  obtain ⟨l₁, l₂, heq, _⟩ := List.lookup_eq_some_iff.mp h
  simp [blocks, heq]

theorem successors_of_row {b : BlockId} {next : List BlockId} (h : g.edges.lookup b = some next) :
    g.successors b = next := by
  simp [successors, h]

/-- An edge leads from a live block to a live one of its row. -/
theorem edge_iff_row {a b : BlockId} :
    g.Edge a b ↔ ∃ next, g.edges.lookup a = some next ∧ b ∈ next ∧ b ∈ g.blocks := by
  constructor
  · rintro ⟨ha, hb, hs⟩
    obtain ⟨next, hn⟩ := exists_row ha
    rw [successors_of_row hn] at hs
    exact ⟨next, hn, hs, hb⟩
  · rintro ⟨next, hn, hs, hb⟩
    exact ⟨live_of_row hn, hb, by rw [successors_of_row hn]; exact hs⟩

/-! ## One call -/

/-- The live blocks that a search has not entered. -/
def unvisited (g : FlowGraph) (s : Search) : List BlockId :=
  g.blocks.filter fun b => !s.visited.contains b

/-- Whether a search has entered a block. -/
def Search.Entered (s : Search) (b : BlockId) : Prop := s.visited.contains b = true

theorem Search.entered_insert (s : Search) (b c : BlockId) :
    Search.Entered { s with visited := s.visited.insert b () } c ↔ b = c ∨ s.Entered c := by
  simp [Search.Entered, BlockMap.contains_insert]

/-- What a piece of a search does that starts in some of the blocks `starts`: `s` is the
progress before and `s'` the progress after it. -/
structure VisitSpec (g : FlowGraph) (starts : List BlockId) (s s' : Search) : Prop where
  /-- Nothing is forgotten. -/
  mono : ∀ c, s.Entered c → s'.Entered c
  /-- A path leads to what is entered. -/
  sound : ∀ c, s'.Entered c → ¬ s.Entered c →
    ∃ b ∈ starts, g.Via (fun x => ¬ s.Entered x) b c
  /-- The live starts are entered. -/
  starts : ∀ b ∈ starts, b ∈ g.blocks → s'.Entered b
  /-- What is entered is followed. -/
  closed : ∀ c d, s'.Entered c → ¬ s.Entered c → g.Edge c d → s'.Entered d
  /-- What is entered is finished. -/
  finished : ∀ c, c ∈ s'.finished ↔ c ∈ s.finished ∨ (s'.Entered c ∧ ¬ s.Entered c)
  /-- Nothing is finished twice. -/
  nodup : (∀ c ∈ s.finished, s.Entered c) → s.finished.Nodup → s'.finished.Nodup

theorem VisitSpec.nil (g : FlowGraph) (s : Search) : VisitSpec g [] s s where
  mono _ h := h
  sound _ h hn := absurd h hn
  starts b hb := absurd hb List.not_mem_nil
  closed _ _ h hn := absurd h hn
  finished c := by
    constructor
    · exact .inl
    · rintro (h | ⟨h, hn⟩)
      · exact h
      · exact absurd h hn
  nodup _ h := h

/-- What was finished before or after a piece of a search was entered. -/
theorem VisitSpec.entered_of_finished {bs : List BlockId} {s s' : Search}
    (h : VisitSpec g bs s s') (hs : ∀ c ∈ s.finished, s.Entered c) :
    ∀ c ∈ s'.finished, s'.Entered c := by
  intro c hc
  rcases (h.finished c).mp hc with hc | ⟨hc, _⟩
  · exact h.mono c (hs c hc)
  · exact hc

/-- Two pieces of a search one after the other. -/
theorem VisitSpec.append {bs cs : List BlockId} {s₁ s₂ s₃ : Search}
    (h₁ : VisitSpec g bs s₁ s₂) (h₂ : VisitSpec g cs s₂ s₃) :
    VisitSpec g (bs ++ cs) s₁ s₃ where
  mono c h := h₂.mono c (h₁.mono c h)
  sound c hc hn := by
    by_cases h : s₂.Entered c
    · obtain ⟨b, hb, hv⟩ := h₁.sound c h hn
      exact ⟨b, List.mem_append_left _ hb, hv⟩
    · obtain ⟨b, hb, hv⟩ := h₂.sound c hc h
      exact ⟨b, List.mem_append_right _ hb, hv.mono fun x hx h => hx (h₁.mono x h)⟩
  starts b hb hl := by
    rcases List.mem_append.mp hb with hb | hb
    · exact h₂.mono b (h₁.starts b hb hl)
    · exact h₂.starts b hb hl
  closed c d hc hn he := by
    by_cases h : s₂.Entered c
    · exact h₂.mono d (h₁.closed c d h hn he)
    · exact h₂.closed c d hc h he
  finished c := by
    rw [h₂.finished, h₁.finished]
    constructor
    · rintro ((h | ⟨h, hn⟩) | ⟨h, hn⟩)
      · exact .inl h
      · exact .inr ⟨h₂.mono c h, hn⟩
      · exact .inr ⟨h, fun h' => hn (h₁.mono c h')⟩
    · rintro (h | ⟨h, hn⟩)
      · exact .inl (.inl h)
      · by_cases h' : s₂.Entered c
        · exact .inl (.inr ⟨h', hn⟩)
        · exact .inr ⟨h, h'⟩
  nodup hs hn := h₂.nodup (h₁.entered_of_finished hs) (h₁.nodup hs hn)

/-- A search that enters more has less left to enter. -/
theorem length_unvisited_le {s s' : Search} (h : ∀ c, s.Entered c → s'.Entered c) :
    (g.unvisited s').length ≤ (g.unvisited s).length := by
  refine (List.Sublist.length_le ?_)
  refine List.monotone_filter_right g.blocks fun c hc => ?_
  simp only [Bool.not_eq_true'] at hc ⊢
  cases hv : s.visited.contains c with
  | false => rfl
  | true => rw [h c hv] at hc; exact hc

/-- Entering a new live block leaves less to enter. -/
theorem length_unvisited_insert {s : Search} {b : BlockId} (hb : b ∈ g.blocks)
    (hn : ¬ s.Entered b) :
    (g.unvisited { s with visited := s.visited.insert b () }).length
      < (g.unvisited s).length := by
  have hsub : (g.unvisited { s with visited := s.visited.insert b () }).Sublist
      ((g.unvisited s).filter (· ≠ b)) := by
    unfold unvisited
    rw [List.filter_filter]
    refine List.monotone_filter_right g.blocks fun c hc => ?_
    simp only [BlockMap.contains_insert, Bool.not_eq_true', Bool.or_eq_false_iff] at hc
    have hbc : c ≠ b := fun h => by simp [h] at hc
    simp [hc.2, hbc]
  refine Nat.lt_of_le_of_lt hsub.length_le ?_
  rw [List.length_filter_lt_length_iff_exists]
  refine ⟨b, ?_, by simp⟩
  rw [unvisited, List.mem_filter]
  exact ⟨hb, by simpa [Search.Entered] using hn⟩

/-- Visits in a row keep to the specification when each single one does. -/
theorem VisitSpec.foldl {fuel : Nat}
    (ih : ∀ b s, (g.unvisited s).length < fuel → VisitSpec g [b] s (visit g.index fuel b s)) :
    ∀ (bs : List BlockId) (s : Search), (g.unvisited s).length < fuel →
      VisitSpec g bs s (bs.foldl (fun s c => visit g.index fuel c s) s)
  | [], s, _ => .nil g s
  | b :: bs, s, hlt => by
    have h₁ := ih b s hlt
    have hlt' := Nat.lt_of_le_of_lt (length_unvisited_le (g := g) h₁.mono) hlt
    exact h₁.append (VisitSpec.foldl ih bs _ hlt')

/-- A call does what it should as long as its fuel exceeds what is left to enter. -/
theorem visit_spec : ∀ (fuel : Nat) (b : BlockId) (s : Search),
    (g.unvisited s).length < fuel → VisitSpec g [b] s (visit g.index fuel b s)
  | 0, _, _, h => absurd h (Nat.not_lt_zero _)
  | fuel + 1, b, s, hlt => by
    unfold visit
    by_cases hb : s.Entered b
    · rw [if_pos (show s.visited.contains b = true from hb)]
      refine { VisitSpec.nil g s with starts := ?_, sound := fun c h hn => absurd h hn }
      intro c hc _
      rw [List.mem_singleton.mp hc]
      exact hb
    · rw [if_neg (show ¬ s.visited.contains b = true from hb), get?_index]
      cases hrow : g.edges.lookup b with
      | none =>
        refine { VisitSpec.nil g s with starts := ?_, sound := fun c h hn => absurd h hn }
        intro c hc hl
        rw [List.mem_singleton.mp hc] at hl
        obtain ⟨next, hn⟩ := exists_row hl
        rw [hrow] at hn
        exact absurd hn (Option.some_ne_none next).symm
      | some next =>
        have hlive := live_of_row hrow
        have hlt' : (g.unvisited { s with visited := s.visited.insert b () }).length < fuel := by
          have := length_unvisited_insert hlive hb
          omega
        have h := VisitSpec.foldl (visit_spec fuel) next _ hlt'
        have hmem : ∀ c, Search.Entered { s with visited := s.visited.insert b () } c ↔
            b = c ∨ s.Entered c := s.entered_insert b
        refine ⟨?_, ?_, ?_, ?_, ?_, ?_⟩
        · exact fun c hc => h.mono c ((hmem c).mpr (.inr hc))
        · intro c hc hn
          refine ⟨b, List.mem_singleton.mpr rfl, ?_⟩
          by_cases hbc : b = c
          · subst hbc
            exact .refl hlive hb
          · obtain ⟨d, hd, hv⟩ := h.sound c hc fun h => (((hmem c).mp h).elim hbc hn)
            refine .cons (edge_iff_row.mpr ⟨next, hrow, hd, hv.live_start⟩) hb ?_
            exact hv.mono fun x hx h => hx ((hmem x).mpr (.inr h))
        · intro c hc _
          rw [List.mem_singleton.mp hc]
          exact h.mono b ((hmem b).mpr (.inl rfl))
        · intro c d hc hn he
          by_cases hbc : b = c
          · subst hbc
            obtain ⟨next', hn', hd, hl⟩ := edge_iff_row.mp he
            rw [hrow] at hn'
            cases hn'
            exact h.starts d hd hl
          · exact h.closed c d hc (fun h => (((hmem c).mp h).elim hbc hn)) he
        · intro c
          simp only [List.mem_cons, h.finished, hmem, not_or]
          constructor
          · rintro (rfl | hc | ⟨hc, -, hn⟩)
            · exact .inr ⟨h.mono _ ((hmem _).mpr (.inl rfl)), hb⟩
            · exact .inl hc
            · exact .inr ⟨hc, hn⟩
          · rintro (hc | ⟨hc, hn⟩)
            · exact .inr (.inl hc)
            · by_cases hbc : b = c
              · exact .inl hbc.symm
              · exact .inr (.inr ⟨hc, hbc, hn⟩)
        · intro hs hn
          refine List.nodup_cons.mpr ⟨fun hc => ?_, h.nodup (fun c hc => ?_) hn⟩
          · rcases (h.finished b).mp hc with hc | ⟨_, hc⟩
            · exact hb (hs b hc)
            · exact hc ((hmem b).mpr (.inl rfl))
          · exact (hmem c).mpr (.inr (hs c hc))

/-! ## Whole searches -/

/-- The fuel of a whole search is enough. -/
theorem length_unvisited_lt (g : FlowGraph) (s : Search) :
    (g.unvisited s).length < g.edges.length + 1 := by
  have h := List.length_filter_le (fun b => !s.visited.contains b) g.blocks
  have h' : g.blocks.length = g.edges.length := List.length_map ..
  unfold unvisited
  omega

theorem searchFrom_spec (g : FlowGraph) (starts : List BlockId) (s : Search) :
    VisitSpec g starts s (g.searchFrom starts s) :=
  VisitSpec.foldl (visit_spec _) starts s (length_unvisited_lt g s)

theorem entered_avoiding (avoided : List BlockId) (b : BlockId) :
    (Search.avoiding avoided).Entered b ↔ b ∈ avoided := by
  unfold Search.Entered Search.avoiding BlockMap.contains
  rw [BlockMap.get?_ofList]
  induction avoided with
  | nil => simp
  | cons a as ih =>
    rw [List.map_cons, List.lookup_cons, List.mem_cons]
    cases hba : b == a with
    | true => simp [beq_iff_eq.mp hba]
    | false => simp [beq_eq_false_iff_ne.mp hba, ih]

/-- A search enters what it has to avoid, and the blocks that a path leads to around that. -/
theorem visited_searchFrom (g : FlowGraph) (starts avoided : List BlockId) (c : BlockId) :
    (g.searchFrom starts (.avoiding avoided)).Entered c ↔
      c ∈ avoided ∨ ∃ b ∈ starts, g.Via (· ∉ avoided) b c := by
  have h := searchFrom_spec g starts (.avoiding avoided)
  simp only [← entered_avoiding avoided] at *
  constructor
  · intro hc
    by_cases ha : (Search.avoiding avoided).Entered c
    · exact .inl ha
    · exact .inr (h.sound c hc ha)
  · rintro (hc | ⟨b, hb, hv⟩)
    · exact h.mono c hc
    · exact hv.rec_on (motive := fun x => (g.searchFrom starts (.avoiding avoided)).Entered x)
        (h.starts b hb hv.live_start) fun x y he hx _ hm => h.closed x y hm hx he

theorem finished_searchFrom (g : FlowGraph) (starts avoided : List BlockId) (c : BlockId) :
    c ∈ (g.searchFrom starts (.avoiding avoided)).finished ↔
      ∃ b ∈ starts, g.Via (· ∉ avoided) b c := by
  have h := (searchFrom_spec g starts (.avoiding avoided)).finished c
  rw [h, visited_searchFrom, entered_avoiding]
  constructor
  · rintro (hc | ⟨hc | hc, hn⟩)
    · exact absurd hc List.not_mem_nil
    · exact absurd hc hn
    · exact hc
  · rintro ⟨b, hb, hv⟩
    exact .inr ⟨.inr ⟨b, hb, hv⟩, hv.stop⟩

/-- The reverse post-order lists the reachable blocks. -/
theorem mem_reversePostOrder {b : BlockId} : b ∈ g.reversePostOrder ↔ g.Reachable b := by
  unfold reversePostOrder searchAvoiding
  rw [finished_searchFrom]
  constructor
  · rintro ⟨e, he, hv⟩
    exact ⟨e, Option.mem_toList.mp he, hv.mono fun _ _ => trivial⟩
  · rintro ⟨e, he, hv⟩
    exact ⟨e, Option.mem_toList.mpr he, hv.mono fun _ _ => List.not_mem_nil⟩

theorem nodup_reversePostOrder (g : FlowGraph) : g.reversePostOrder.Nodup :=
  (searchFrom_spec g g.entry?.toList (.avoiding [])).nodup (fun _ h => absurd h List.not_mem_nil)
    List.nodup_nil

/-! ## Rows of predecessors -/

/-- A list of rows made from keys finds the row of each key. -/
theorem lookup_map_self {β : Type} (f : BlockId → β) :
    ∀ (keys : List BlockId) (b : BlockId),
      (keys.map fun k => (k, f k)).lookup b = if b ∈ keys then some (f b) else none
  | [], _ => rfl
  | k :: ks, b => by
    rw [List.map_cons, List.lookup_cons, lookup_map_self f ks b]
    cases hbk : b == k with
    | true =>
      cases beq_iff_eq.mp hbk
      simp
    | false => simp [beq_eq_false_iff_ne.mp hbk]

/-- The predecessors of a block are read off the same rows as the successors. -/
def Coherent (g : FlowGraph) : Prop :=
  ∀ a b, a ∈ g.predecessors b ↔ a ∈ g.blocks ∧ b ∈ g.successors a

theorem Coherent.edge (hg : g.Coherent) {a b : BlockId} (hb : b ∈ g.blocks) :
    a ∈ g.predecessors b ↔ g.Edge a b := by
  rw [hg a b]
  exact ⟨fun h => ⟨h.1, hb, h.2⟩, fun h => ⟨h.1, h.2.2⟩⟩

theorem successors_ofFunc (f : Func) (b : BlockId) :
    (ofFunc f).successors b = if b ∈ f.layout then f.successors b else [] := by
  unfold successors ofFunc
  rw [lookup_map_self]
  split <;> rfl

theorem coherent_ofFunc (f : Func) : (ofFunc f).Coherent := by
  intro a b
  rw [predecessors_ofFunc, blocks_ofFunc, successors_ofFunc, Func.mem_predecessors]
  constructor
  · rintro ⟨ha, hb⟩
    exact ⟨ha, by rw [if_pos ha]; exact hb⟩
  · rintro ⟨ha, hb⟩
    rw [if_pos ha] at hb
    exact ⟨ha, hb⟩

/-- An edge in the snapshot is a branch between live blocks. -/
theorem edge_ofFunc (f : Func) (a b : BlockId) :
    (ofFunc f).Edge a b ↔ a ∈ f.layout ∧ b ∈ f.layout ∧ b ∈ f.successors a := by
  unfold Edge
  rw [blocks_ofFunc, successors_ofFunc]
  constructor
  · rintro ⟨ha, hb, hs⟩
    rw [if_pos ha] at hs
    exact ⟨ha, hb, hs⟩
  · rintro ⟨ha, hb, hs⟩
    exact ⟨ha, hb, by rw [if_pos ha]; exact hs⟩

end FlowGraph

/-- The entry in the snapshot is that of the function. -/
theorem Func.entry?_ofFunc (f : Func) : FlowGraph.entry? (FlowGraph.ofFunc f) = f.entry? :=
  congrArg List.head? (FlowGraph.blocks_ofFunc f)

end LoopNest
