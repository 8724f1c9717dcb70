import LoopNest.Proofs.Graph.Order

/-!
# The search as a loop

A depth-first search can keep its open blocks on a stack, each with the number of its successors
that are done.  One step of the loop looks at the block on top: it enters the next successor, passes
over it, or finishes the block.

The loop follows the recursion.  From the moment a block is pushed, the loop needs one step for the
block and one for each of its branches, and the same for each block that it enters from there, until
the block is gone from the stack and the search is where the call of `visit` leaves it
(`runs_visit`).  So the walk of a whole graph ends, and it ends in the reverse post-order
(`runs_start`).
-/

namespace LoopNest

namespace FlowGraph

variable {g : FlowGraph} {rows : BlockMap (List BlockId)}

/-- The progress of a search that keeps its open blocks on a stack. -/
structure Walk where
  /-- The open blocks, the last entered first, each with the number of its successors that are
  done. -/
  stack : List (BlockId × Nat)
  /-- What has been entered and finished. -/
  search : Search
deriving DecidableEq, Inhabited

namespace Walk

/-- The walk before its first step: the entry has been entered. -/
def start : Option BlockId → Walk
  | none => ⟨[], .avoiding []⟩
  | some e => ⟨[(e, 0)], ⟨BlockMap.empty.insert e (), []⟩⟩

/-- One step of a walk.  There is none when the stack is empty, and none when the block on top has
no row. -/
def step (rows : BlockMap (List BlockId)) (w : Walk) : Option Walk :=
  match w.stack with
  | [] => none
  | (b, k) :: rest =>
    match rows.get? b with
    | none => none
    | some next =>
      match next[k]? with
      | none => some ⟨rest, { w.search with finished := b :: w.search.finished }⟩
      | some c =>
        if rows.contains c && !w.search.visited.contains c then
          some ⟨(c, 0) :: (b, k + 1) :: rest,
            { w.search with visited := w.search.visited.insert c () }⟩
        else some ⟨(b, k + 1) :: rest, w.search⟩

/-- `Runs rows n w w'` says that the walk gets from `w` to `w'` in `n` steps. -/
inductive Runs (rows : BlockMap (List BlockId)) : Nat → Walk → Walk → Prop where
  /-- No step. -/
  | done (w : Walk) : Runs rows 0 w w
  /-- A step and what follows it. -/
  | more {n : Nat} {w₁ w₂ w₃ : Walk} :
      step rows w₁ = some w₂ → Runs rows n w₂ w₃ → Runs rows (n + 1) w₁ w₃

theorem Runs.trans {m n : Nat} {w₁ w₂ w₃ : Walk} (h₁ : Runs rows m w₁ w₂)
    (h₂ : Runs rows n w₂ w₃) : Runs rows (m + n) w₁ w₃ := by
  induction h₁ with
  | done _ => rwa [Nat.zero_add]
  | more hs _ ih =>
    rw [Nat.add_right_comm]
    exact .more hs (ih h₂)

/-- The steps that the blocks of a list cost: one for each block and one for each branch. -/
def cost (rows : BlockMap (List BlockId)) (bs : List BlockId) : Nat :=
  (bs.map fun b => ((rows.get? b).getD []).length + 1).sum

/-- A walk reads the rows only. -/
theorem Runs.congr {rows' : BlockMap (List BlockId)} (hrows : ∀ b, rows.get? b = rows'.get? b)
    {n : Nat} {w w' : Walk} (h : Runs rows n w w') : Runs rows' n w w' := by
  induction h with
  | done w => exact .done w
  | more hs _ ih =>
    refine .more (.trans ?_ hs) ih
    simp only [step, BlockMap.contains, hrows]
    rfl

theorem cost_congr {rows' : BlockMap (List BlockId)} (hrows : ∀ b, rows.get? b = rows'.get? b)
    (bs : List BlockId) : cost rows bs = cost rows' bs := by
  simp only [cost, hrows]

/-! ## Single steps -/

variable {b c : BlockId} {k : Nat} {next : List BlockId} {rest : List (BlockId × Nat)} {s : Search}

theorem step_finish (hrow : rows.get? b = some next) :
    step rows ⟨(b, next.length) :: rest, s⟩
      = some ⟨rest, { s with finished := b :: s.finished }⟩ := by
  simp [step, hrow]

theorem step_enter (hrow : rows.get? b = some next) (hc : next[k]? = some c)
    (hlive : rows.contains c = true) (hnew : ¬ s.Entered c) :
    step rows ⟨(b, k) :: rest, s⟩
      = some ⟨(c, 0) :: (b, k + 1) :: rest, { s with visited := s.visited.insert c () }⟩ := by
  have hn : s.visited.contains c = false := Bool.eq_false_iff.mpr hnew
  simp [step, hrow, hc, hlive, hn]

theorem step_pass (hrow : rows.get? b = some next) (hc : next[k]? = some c)
    (h : rows.contains c = true → s.Entered c) :
    step rows ⟨(b, k) :: rest, s⟩ = some ⟨(b, k + 1) :: rest, s⟩ := by
  have hn : ¬ (rows.contains c && !s.visited.contains c) = true := by
    rw [Bool.and_eq_true, Bool.not_eq_true', ← Bool.not_eq_true]
    exact fun ⟨hl, hv⟩ => hv (h hl)
  simp only [step, hrow, hc]
  rw [if_neg hn]

end Walk

/-! ## Calls that do nothing -/

/-- A visit of a block that was entered before does nothing. -/
theorem visit_of_entered {fuel : Nat} {c : BlockId} {s : Search} (h : s.Entered c) :
    visit rows fuel c s = s := by
  cases fuel with
  | zero => rfl
  | succ fuel => exact if_pos h

/-- A visit of a block without a row does nothing. -/
theorem visit_of_no_row {fuel : Nat} {c : BlockId} {s : Search} (h : rows.get? c = none) :
    visit rows fuel c s = s := by
  cases fuel with
  | zero => rfl
  | succ fuel =>
    unfold visit
    rw [h]
    split <;> rfl

/-- A visit of a new block visits its successors and finishes the block. -/
theorem visit_of_row {fuel : Nat} {c : BlockId} {s : Search} {next : List BlockId}
    (h : rows.get? c = some next) (hn : ¬ s.Entered c) :
    visit rows (fuel + 1) c s =
      let s' := next.foldl (fun s d => visit rows fuel d s)
        { s with visited := s.visited.insert c () }
      { s' with finished := c :: s'.finished } := by
  have hn' : ¬ s.visited.contains c = true := hn
  simp only [visit, if_neg hn', h]

namespace Walk

/-! ## Following the recursion -/

/-- The walk treats the rest of a row as the recursion does, when it does so with each block of it
that it enters. -/
theorem runs_foldl {fuel : Nat} {b : BlockId} {next : List BlockId} {rest : List (BlockId × Nat)}
    (hrow : g.index.get? b = some next)
    (ih : ∀ (c : BlockId) (s : Search) (rest : List (BlockId × Nat)),
      (g.unvisited s).length < fuel → g.index.contains c = true → ¬ s.Entered c →
      ∃ n, Runs g.index n ⟨(c, 0) :: rest, { s with visited := s.visited.insert c () }⟩
          ⟨rest, visit g.index fuel c s⟩ ∧
        n + cost g.index s.finished = cost g.index (visit g.index fuel c s).finished) :
    ∀ (done todo : List BlockId) (s : Search), next = done ++ todo →
      (g.unvisited s).length < fuel →
      ∃ n, Runs g.index n ⟨(b, done.length) :: rest, s⟩
          ⟨(b, next.length) :: rest, todo.foldl (fun s c => visit g.index fuel c s) s⟩ ∧
        n + cost g.index s.finished = todo.length
          + cost g.index (todo.foldl (fun s c => visit g.index fuel c s) s).finished
  | done, [], s, hnext, _ => by
    rw [hnext, List.append_nil]
    exact ⟨0, .done _, rfl⟩
  | done, c :: todo, s, hnext, hlt => by
    have hc : next[done.length]? = some c := by simp [hnext]
    have hlt' : (g.unvisited (visit g.index fuel c s)).length < fuel :=
      Nat.lt_of_le_of_lt (length_unvisited_le (visit_spec fuel c s hlt).mono) hlt
    obtain ⟨n, hruns, hcost⟩ := runs_foldl hrow ih (done ++ [c]) todo (visit g.index fuel c s)
      (by rw [hnext, List.append_assoc, List.singleton_append]) hlt'
    rw [List.length_append, List.length_singleton] at hruns
    rw [List.foldl_cons, List.length_cons]
    by_cases hnew : g.index.contains c = true ∧ ¬ s.Entered c
    · obtain ⟨m, hvisit, hm⟩ := ih c s ((b, done.length + 1) :: rest) hlt hnew.1 hnew.2
      refine ⟨m + n + 1, .more (step_enter hrow hc hnew.1 hnew.2) (hvisit.trans hruns), ?_⟩
      omega
    · have hstay : visit g.index fuel c s = s := by
        rw [not_and_not_right] at hnew
        cases hlive : g.index.get? c with
        | none => exact visit_of_no_row hlive
        | some _ => exact visit_of_entered (hnew (by simp [BlockMap.contains, hlive]))
      rw [hstay] at hruns hcost ⊢
      refine ⟨n + 1, .more (step_pass hrow hc (not_and_not_right.mp hnew)) hruns, ?_⟩
      omega

/-- From the moment a block is pushed until it is gone from the stack, the walk does what a visit
of the block does. -/
theorem runs_visit : ∀ (fuel : Nat) (b : BlockId) (s : Search) (rest : List (BlockId × Nat)),
    (g.unvisited s).length < fuel → g.index.contains b = true → ¬ s.Entered b →
    ∃ n, Runs g.index n ⟨(b, 0) :: rest, { s with visited := s.visited.insert b () }⟩
        ⟨rest, visit g.index fuel b s⟩ ∧
      n + cost g.index s.finished = cost g.index (visit g.index fuel b s).finished
  | 0, _, _, _, hlt, _, _ => absurd hlt (Nat.not_lt_zero _)
  | fuel + 1, b, s, rest, hlt, hlive, hnew => by
    obtain ⟨next, hrow⟩ := Option.isSome_iff_exists.mp hlive
    have hb : b ∈ g.blocks := live_of_row ((get?_index g b).symm.trans hrow)
    have hlt' : (g.unvisited { s with visited := s.visited.insert b () }).length < fuel := by
      have := length_unvisited_insert hb hnew
      omega
    obtain ⟨n, hruns, hcost⟩ := runs_foldl hrow (runs_visit fuel) [] next _ rfl hlt'
    rw [visit_of_row hrow hnew]
    refine ⟨n + 1, hruns.trans (.more (step_finish hrow) (.done _)), ?_⟩
    simp only [cost, List.map_cons, List.sum_cons, hrow, Option.getD_some] at hcost ⊢
    omega

/-- The walk from the entry ends, after one step for each block that it lists and one for each
branch of such a block, and has then searched the graph. -/
theorem runs_start (g : FlowGraph) :
    Runs g.index (cost g.index g.reversePostOrder) (start g.entry?) ⟨[], g.searchAvoiding []⟩ := by
  cases he : g.entry? with
  | none =>
    have hs : g.searchAvoiding [] = .avoiding [] := by simp [searchAvoiding, searchFrom, he]
    rw [reversePostOrder, hs]
    exact .done _
  | some e =>
    have hs : g.searchAvoiding [] = visit g.index (g.edges.length + 1) e (.avoiding []) := by
      simp [searchAvoiding, searchFrom, he]
    obtain ⟨next, hrow⟩ := exists_row (List.mem_of_head? he)
    have hlive : g.index.contains e = true := by simp [BlockMap.contains, get?_index, hrow]
    have hnew : ¬ (Search.avoiding []).Entered e := mt (entered_avoiding [] e).mp List.not_mem_nil
    obtain ⟨n, hruns, hcost⟩ := runs_visit _ e _ [] (length_unvisited_lt g _) hlive hnew
    rw [← hs] at hruns hcost
    have hn : n = cost g.index g.reversePostOrder := hcost
    rw [← hn]
    exact hruns

end Walk

end FlowGraph

end LoopNest
