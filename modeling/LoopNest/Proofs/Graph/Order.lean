import LoopNest.Proofs.Graph.Search

/-!
# Reverse post-order

A search finishes a block after everything that it entered from there, and puts it in front.
So the list of a search from the entry starts with the entry (`head?_reversePostOrder`), and
every other block of it comes after one of its predecessors (`exists_edge_of_pos`).  An edge
between two of its blocks points forwards or closes a cycle (`pos_lt_or_via_of_edge`).

`pos` is the place of a block in this order.
-/

namespace LoopNest

namespace FlowGraph

variable {g : FlowGraph}

/-! ## What a search puts in front -/

/-- New blocks of a search that started in some blocks: they are live, and each of them is a
start or comes after a block with an edge to it. -/
structure Ordered (g : FlowGraph) (starts new : List BlockId) : Prop where
  live : ∀ c ∈ new, c ∈ g.blocks
  entered : ∀ c ∈ new, c ∈ starts ∨ ∃ p l₁ l₂, g.Edge p c ∧ new = l₁ ++ c :: l₂ ∧ p ∈ l₁

theorem Ordered.nil (g : FlowGraph) (starts : List BlockId) : Ordered g starts [] :=
  ⟨fun _ h => absurd h List.not_mem_nil, fun _ h => absurd h List.not_mem_nil⟩

/-- Two pieces of a search one after the other. -/
theorem Ordered.append {bs cs new₁ new₂ : List BlockId} (h₁ : Ordered g bs new₁)
    (h₂ : Ordered g cs new₂) : Ordered g (bs ++ cs) (new₂ ++ new₁) where
  live c hc := (List.mem_append.mp hc).elim (h₂.live c) (h₁.live c)
  entered c hc := by
    rcases List.mem_append.mp hc with hc | hc
    · rcases h₂.entered c hc with hs | ⟨p, l₁, l₂, he, rfl, hp⟩
      · exact .inl (List.mem_append_right _ hs)
      · exact .inr ⟨p, l₁, l₂ ++ new₁, he, by simp, hp⟩
    · rcases h₁.entered c hc with hs | ⟨p, l₁, l₂, he, rfl, hp⟩
      · exact .inl (List.mem_append_left _ hs)
      · exact .inr ⟨p, new₂ ++ l₁, l₂, he, by simp, List.mem_append_right _ hp⟩

/-- A block in front of what was entered from it. -/
theorem Ordered.cons {b : BlockId} {next new : List BlockId} (hrow : g.edges.lookup b = some next)
    (h : Ordered g next new) : Ordered g [b] (b :: new) where
  live c hc := by
    rcases List.mem_cons.mp hc with rfl | hc
    · exact live_of_row hrow
    · exact h.live c hc
  entered c hc := by
    rcases List.mem_cons.mp hc with rfl | hc
    · exact .inl (List.mem_singleton.mpr rfl)
    · right
      rcases h.entered c hc with hs | ⟨p, l₁, l₂, he, rfl, hp⟩
      · obtain ⟨l₁, l₂, rfl⟩ := List.append_of_mem hc
        refine ⟨b, b :: l₁, l₂, ?_, rfl, List.mem_cons_self⟩
        exact edge_iff_row.mpr ⟨next, hrow, hs, h.live c hc⟩
      · exact ⟨p, b :: l₁, l₂, he, rfl, List.mem_cons_of_mem _ hp⟩

theorem Ordered.foldl {fuel : Nat}
    (ih : ∀ b s, ∃ new, (visit g.index fuel b s).finished = new ++ s.finished ∧ Ordered g [b] new) :
    ∀ (bs : List BlockId) (s : Search), ∃ new,
      (bs.foldl (fun s c => visit g.index fuel c s) s).finished = new ++ s.finished ∧
      Ordered g bs new
  | [], s => ⟨[], rfl, .nil g []⟩
  | b :: bs, s => by
    obtain ⟨new₁, hfin₁, h₁⟩ := ih b s
    obtain ⟨new₂, hfin₂, h₂⟩ := Ordered.foldl ih bs (visit g.index fuel b s)
    refine ⟨new₂ ++ new₁, ?_, h₁.append h₂⟩
    rw [List.foldl_cons, hfin₂, hfin₁, List.append_assoc]

theorem ordered_visit : ∀ (fuel : Nat) (b : BlockId) (s : Search), ∃ new,
    (visit g.index fuel b s).finished = new ++ s.finished ∧ Ordered g [b] new
  | 0, b, s => ⟨[], rfl, .nil g [b]⟩
  | fuel + 1, b, s => by
    unfold visit
    split
    · exact ⟨[], rfl, .nil g [b]⟩
    · rw [get?_index]
      cases hrow : g.edges.lookup b with
      | none => exact ⟨[], rfl, .nil g [b]⟩
      | some next =>
        obtain ⟨new, hfin, h⟩ := Ordered.foldl (ordered_visit fuel) next
          { s with visited := s.visited.insert b () }
        exact ⟨b :: new, congrArg (b :: ·) hfin, h.cons hrow⟩

/-! ## Places -/

/-- The place of a block in reverse post-order. -/
def pos (g : FlowGraph) (b : BlockId) : Nat := g.reversePostOrder.idxOf b

theorem pos_lt {b : BlockId} (hb : b ∈ g.reversePostOrder) : g.pos b < g.reversePostOrder.length :=
  List.idxOf_lt_length_iff.mpr hb

/-- Two blocks have different places. -/
theorem eq_of_pos_eq {a b : BlockId} (ha : a ∈ g.reversePostOrder) (h : g.pos a = g.pos b) :
    a = b :=
  (List.idxOf_inj ha).mp h

/-- The place of a block is the number of blocks before it. -/
theorem pos_eq_length {l₁ l₂ : List BlockId} {b : BlockId}
    (h : g.reversePostOrder = l₁ ++ b :: l₂) : g.pos b = l₁.length := by
  have hb : b ∉ l₁ := by
    intro hb
    have hn := h ▸ g.nodup_reversePostOrder
    exact (List.nodup_append.mp hn).2.2 b hb b List.mem_cons_self rfl
  rw [pos, h, List.idxOf_append_of_notMem hb, List.idxOf_cons_self, Nat.add_zero]

theorem pos_lt_of_mem {l₁ l₂ : List BlockId} {p b : BlockId}
    (h : g.reversePostOrder = l₁ ++ b :: l₂) (hp : p ∈ l₁) : g.pos p < g.pos b := by
  rw [pos_eq_length h, pos, h, List.idxOf_append_of_mem hp]
  exact List.idxOf_lt_length_iff.mpr hp

/-- The order starts with the entry. -/
theorem head?_reversePostOrder (g : FlowGraph) : g.reversePostOrder.head? = g.entry? := by
  cases he : g.entry? with
  | none => simp [reversePostOrder, searchAvoiding, he, searchFrom, Search.avoiding]
  | some e =>
    obtain ⟨next, hrow⟩ := exists_row (List.mem_of_head? he)
    have hnew : (Search.avoiding []).visited.contains e = false := by
      simpa [Search.Entered] using mt (entered_avoiding [] e).mp List.not_mem_nil
    simp [reversePostOrder, searchAvoiding, he, searchFrom, visit, hnew, get?_index, hrow]

theorem pos_entry {e : BlockId} (he : g.entry? = some e) : g.pos e = 0 := by
  obtain ⟨l, hl⟩ := List.head?_eq_some_iff.mp ((head?_reversePostOrder g).trans he)
  exact pos_eq_length (show g.reversePostOrder = [] ++ e :: l from hl)

theorem entry_mem_reversePostOrder {e : BlockId} (he : g.entry? = some e) :
    e ∈ g.reversePostOrder :=
  List.mem_of_head? ((head?_reversePostOrder g).trans he)

/-- Every block but the entry comes after one of its predecessors. -/
theorem exists_edge_of_pos {b : BlockId} (hb : b ∈ g.reversePostOrder) (hne : g.entry? ≠ some b) :
    ∃ p, g.Edge p b ∧ p ∈ g.reversePostOrder ∧ g.pos p < g.pos b := by
  obtain ⟨new, hfin, h⟩ := Ordered.foldl (ordered_visit (g.edges.length + 1)) g.entry?.toList
    (.avoiding [])
  have hnew : g.reversePostOrder = new := hfin.trans (List.append_nil new)
  rcases h.entered b (hnew ▸ hb) with hs | ⟨p, l₁, l₂, he, hl, hp⟩
  · exact absurd (Option.mem_toList.mp hs) hne
  · refine ⟨p, he, ?_, pos_lt_of_mem (hnew.trans hl) hp⟩
    rw [hnew, hl]
    exact List.mem_append_left _ hp

/-- Places grow along the order. -/
theorem pairwise_pos (g : FlowGraph) : g.reversePostOrder.Pairwise fun a b => g.pos a < g.pos b := by
  rw [List.pairwise_iff_forall_sublist]
  intro a b hab
  obtain ⟨l₁, l₂, hl, ha, hb⟩ := List.cons_sublist_iff.mp hab
  obtain ⟨m₁, m₂, rfl⟩ := List.append_of_mem (List.singleton_sublist.mp hb)
  have hsplit : g.reversePostOrder = (l₁ ++ m₁) ++ b :: m₂ := by
    rw [hl, List.append_assoc]
  exact pos_lt_of_mem hsplit (List.mem_append_left _ ha)

/-- A block comes after the blocks that dominate it. -/
theorem Dominates.pos_le {a b : BlockId} (hd : g.Dominates a b) (hb : b ∈ g.reversePostOrder) :
    g.pos a ≤ g.pos b := by
  by_cases hab : a = b
  · exact Nat.le_of_eq (congrArg g.pos hab)
  · by_cases hent : g.entry? = some b
    · have hlive := (mem_reversePostOrder.mp hb).live
      exact absurd (List.mem_singleton.mp (hd b [b] hent (.here hlive))) hab
    · obtain ⟨c, he, hc, hlt⟩ := exists_edge_of_pos hb hent
      have hle := (hd.of_edge he hab).pos_le hc
      omega
termination_by g.pos b

/-! ## Edges that point backwards

While a search runs, a block is open from when it is entered until it is finished.  The open
blocks lie on the path that the search follows, so an edge to an open block closes a cycle. -/

/-- A search has entered a block and not finished it. -/
def Search.Open (s : Search) (b : BlockId) : Prop := s.Entered b ∧ b ∉ s.finished

/-- A block stands behind another one in a list. -/
def Behind (order : List BlockId) (c d : BlockId) : Prop :=
  ∃ l₁ l₂, order = l₁ ++ c :: l₂ ∧ d ∈ l₂

theorem Behind.append {order : List BlockId} {c d : BlockId} (h : Behind order c d)
    (front : List BlockId) : Behind (front ++ order) c d := by
  obtain ⟨l₁, l₂, rfl, hd⟩ := h
  exact ⟨front ++ l₁, l₂, by simp, hd⟩

/-- Where the edges lead that leave the blocks `new` of a piece of a search: `s` is the
progress before and `s'` the progress after it. -/
structure Descends (g : FlowGraph) (s s' : Search) (new : List BlockId) : Prop where
  /-- The new blocks are put in front. -/
  finished : s'.finished = new ++ s.finished
  /-- The new blocks were entered in this piece. -/
  fresh : ∀ c ∈ new, s'.Entered c ∧ ¬ s.Entered c
  /-- An edge leads further back, to a block that was open before, or closes a cycle. -/
  edge : ∀ c ∈ new, ∀ d, g.Edge c d →
    Behind s'.finished c d ∨ s.Open d ∨ g.Via (fun _ => True) d c

theorem Descends.nil (g : FlowGraph) (s : Search) : Descends g s s [] :=
  ⟨rfl, fun _ h => absurd h List.not_mem_nil, fun _ h => absurd h List.not_mem_nil⟩

/-- What is open after a piece of a search was open before it. -/
theorem VisitSpec.open_of_open {bs : List BlockId} {s s' : Search} (h : VisitSpec g bs s s')
    {d : BlockId} (hd : s'.Open d) : s.Open d := by
  have hnot := mt (h.finished d).mpr hd.2
  rw [not_or] at hnot
  exact ⟨by_contra fun hn => hnot.2 ⟨hd.1, hn⟩, hnot.1⟩

/-- Two pieces of a search one after the other. -/
theorem Descends.append {bs cs new₁ new₂ : List BlockId} {s₁ s₂ s₃ : Search}
    (hs₁ : VisitSpec g bs s₁ s₂) (hs₂ : VisitSpec g cs s₂ s₃)
    (h₁ : Descends g s₁ s₂ new₁) (h₂ : Descends g s₂ s₃ new₂) :
    Descends g s₁ s₃ (new₂ ++ new₁) where
  finished := by rw [h₂.finished, h₁.finished, List.append_assoc]
  fresh c hc := by
    rcases List.mem_append.mp hc with hc | hc
    · exact ⟨(h₂.fresh c hc).1, fun h => (h₂.fresh c hc).2 (hs₁.mono c h)⟩
    · exact ⟨hs₂.mono c (h₁.fresh c hc).1, (h₁.fresh c hc).2⟩
  edge c hc d he := by
    rcases List.mem_append.mp hc with hc | hc
    · rcases h₂.edge c hc d he with hb | ho | hv
      · exact .inl hb
      · exact .inr (.inl (hs₁.open_of_open ho))
      · exact .inr (.inr hv)
    · rcases h₁.edge c hc d he with hb | ho
      · exact .inl (h₂.finished ▸ hb.append new₂)
      · exact .inr ho

/-- A block in front of what was entered from it. -/
theorem Descends.cons {b : BlockId} {next new : List BlockId} {s s' : Search}
    (hrow : g.edges.lookup b = some next) (hb : ¬ s.Entered b)
    (hs : VisitSpec g next { s with visited := s.visited.insert b () } s')
    (h : Descends g { s with visited := s.visited.insert b () } s' new) :
    Descends g s { s' with finished := b :: s'.finished } (b :: new) where
  finished := congrArg (b :: ·) h.finished
  fresh c hc := by
    rcases List.mem_cons.mp hc with rfl | hc
    · exact ⟨hs.mono c ((s.entered_insert c c).mpr (.inl rfl)), hb⟩
    · exact ⟨(h.fresh c hc).1, fun hn => (h.fresh c hc).2 ((s.entered_insert b c).mpr (.inr hn))⟩
  edge c hc d he := by
    -- What is open after `b` is entered is `b` itself or was open before.
    have hopen : Search.Open { s with visited := s.visited.insert b () } d → b = d ∨ s.Open d :=
      fun ho => ((s.entered_insert b d).mp ho.1).imp_right fun h => ⟨h, ho.2⟩
    rcases List.mem_cons.mp hc with rfl | hc
    · obtain ⟨next', hrow', hd, hl⟩ := edge_iff_row.mp he
      obtain rfl := Option.some.inj (hrow.symm.trans hrow')
      by_cases hfin : d ∈ s'.finished
      · exact .inl ⟨[], s'.finished, rfl, hfin⟩
      · rcases hopen (hs.open_of_open ⟨hs.starts d hd hl, hfin⟩) with rfl | ho
        · exact .inr (.inr (.refl hl trivial))
        · exact .inr (.inl ho)
    · rcases h.edge c hc d he with hb | ho | hv
      · exact .inl (hb.append [b])
      · rcases hopen ho with rfl | ho
        · obtain ⟨x, hx, hv⟩ := hs.sound c (h.fresh c hc).1 (h.fresh c hc).2
          have hbx : g.Edge b x := edge_iff_row.mpr ⟨next, hrow, hx, hv.live_start⟩
          exact .inr (.inr (.cons hbx trivial (hv.mono fun _ _ => trivial)))
        · exact .inr (.inl ho)
      · exact .inr (.inr hv)

theorem Descends.foldl {fuel : Nat}
    (ih : ∀ b s, (g.unvisited s).length < fuel →
      ∃ new, Descends g s (visit g.index fuel b s) new) :
    ∀ (bs : List BlockId) (s : Search), (g.unvisited s).length < fuel →
      ∃ new, Descends g s (bs.foldl (fun s c => visit g.index fuel c s) s) new
  | [], s, _ => ⟨[], .nil g s⟩
  | b :: bs, s, hlt => by
    have hs₁ := visit_spec fuel b s hlt
    have hlt' := Nat.lt_of_le_of_lt (length_unvisited_le (g := g) hs₁.mono) hlt
    obtain ⟨new₁, h₁⟩ := ih b s hlt
    obtain ⟨new₂, h₂⟩ := Descends.foldl ih bs (visit g.index fuel b s) hlt'
    exact ⟨new₂ ++ new₁, .append hs₁ (.foldl (visit_spec fuel) bs _ hlt') h₁ h₂⟩

theorem descends_visit : ∀ (fuel : Nat) (b : BlockId) (s : Search),
    (g.unvisited s).length < fuel → ∃ new, Descends g s (visit g.index fuel b s) new
  | 0, _, _, h => absurd h (Nat.not_lt_zero _)
  | fuel + 1, b, s, hlt => by
    unfold visit
    split
    · exact ⟨[], .nil g s⟩
    · rename_i hb
      rw [get?_index]
      cases hrow : g.edges.lookup b with
      | none => exact ⟨[], .nil g s⟩
      | some next =>
        have hlt' : (g.unvisited { s with visited := s.visited.insert b () }).length < fuel := by
          have := length_unvisited_insert (live_of_row hrow) hb
          omega
        obtain ⟨new, h⟩ := Descends.foldl (descends_visit fuel) next _ hlt'
        exact ⟨b :: new, .cons hrow hb (.foldl (visit_spec fuel) next _ hlt') h⟩

/-- An edge between reachable blocks points forwards in reverse post-order, or its end leads
back to its start. -/
theorem pos_lt_or_via_of_edge {u v : BlockId} (hu : u ∈ g.reversePostOrder) (he : g.Edge u v) :
    g.pos u < g.pos v ∨ g.Via (fun _ => True) v u := by
  obtain ⟨new, h⟩ := Descends.foldl (descends_visit (g.edges.length + 1)) g.entry?.toList
    (.avoiding []) (length_unvisited_lt g _)
  have hnew : g.reversePostOrder = new := h.finished.trans (List.append_nil new)
  rcases h.edge u (hnew ▸ hu) v he with hb | ho | hv
  · obtain ⟨l₁, l₂, hl, hv⟩ := hb
    obtain ⟨m₁, m₂, rfl⟩ := List.append_of_mem hv
    have hsplit : g.reversePostOrder = (l₁ ++ u :: m₁) ++ v :: m₂ := by
      rw [List.append_assoc, List.cons_append]
      exact hl
    exact .inl (pos_lt_of_mem hsplit (List.mem_append_right _ List.mem_cons_self))
  · exact absurd ((entered_avoiding [] v).mp ho.1) List.not_mem_nil
  · exact .inr hv

end FlowGraph

end LoopNest
