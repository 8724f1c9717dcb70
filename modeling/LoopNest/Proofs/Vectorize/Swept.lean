import LoopNest.Pass.Vectorize.Apply
import LoopNest.Proofs.Loop.Counted
import LoopNest.Proofs.Vectorize.Lowered

/-!
# Going through the loops

The pass decides about one innermost loop after the other, and a decision may intern types also
when it rejects the loop.  `Grows` says that a decision loses no types, and `grows_plan` says so of
the decision about a loop.  `firstPlan_spec` says what comes out of a round of decisions: a loop that
was accepted, if there is one, and a table that still has all types.

The types that are interned have no components, so in the table every type still comes after its
components (`TypeTable.Accrues`).
-/

namespace LoopNest

/-- The table has more types, and still each after its components. -/
structure TypeTable.Accrues (tt tt' : TypeTable) : Prop where
  ext : tt.Extends tt'
  closed : tt.Closed → tt'.Closed

theorem TypeTable.Accrues.refl (tt : TypeTable) : tt.Accrues tt := ⟨.refl tt, id⟩

theorem TypeTable.Accrues.trans {tt tt' tt'' : TypeTable} (h : tt.Accrues tt') (h' : tt'.Accrues tt'') :
    tt.Accrues tt'' := ⟨h.ext.trans h'.ext, fun hc => h'.closed (h.closed hc)⟩

theorem TypeTable.accrues_intern (tt : TypeTable) {s : Shape} (hs : ∀ c ∈ s.components, c < tt.size) :
    tt.Accrues (tt.intern s).2 :=
  ⟨tt.extends_intern s, fun hc => closed_intern hc hs⟩

namespace Vectorize

variable {c : Context} {tt tt' : TypeTable} {shapes : LaneShapes} {i : InstId}

section

variable {α β : Type} {x : Planning α} {k : α → Planning β} {a : α}

theorem bind_of_ok (h : x tt = (.ok a, tt')) : (x >>= k) tt = k a tt' := by
  change (match x tt with | (r, tt₁) => ExceptT.bindCont k r tt₁) = _
  rw [h]
  rfl

theorem bind_of_error {r : VectorRejection} (h : x tt = (.error r, tt')) :
    (x >>= k) tt = (.error r, tt') := by
  change (match x tt with | (r, tt₁) => ExceptT.bindCont k r tt₁) = _
  rw [h]
  rfl

/-! ## Decisions keep types -/

/-- A decision that keeps the types of the table, whether it rejects the loop or not. -/
def Grows (x : Planning α) : Prop := ∀ tt : TypeTable, tt.Accrues (x tt).2

theorem grows_pure (a : α) : Grows (pure a : Planning α) := .refl

theorem grows_reject (r : VectorRejection) : Grows (reject r : Planning α) := .refl

theorem grows_ofExcept (r : Except VectorRejection α) : Grows (ofExcept r) := .refl

theorem grows_types : Grows types := .refl

theorem grows_intern {s : Shape} (hs : s.components = []) : Grows (intern s) := fun tt =>
  tt.accrues_intern fun t ht => by
    rw [hs] at ht
    cases ht

theorem Grows.bind (hx : Grows x) (hk : ∀ a, Grows (k a)) : Grows (x >>= k) := by
  intro tt
  have h := hx tt
  cases hr : x tt with
  | mk r tt₁ =>
    rw [hr] at h
    cases r with
    | ok a =>
      rw [bind_of_ok hr]
      exact h.trans (hk a tt₁)
    | error e =>
      rw [bind_of_error hr]
      exact h

end

theorem grows_vectorTy (t : TyId) (user : InstId) : Grows (vectorTy c t user) := by
  refine grows_types.bind fun tt => ?_
  split
  · exact grows_reject _
  · split
    · exact grows_reject _
    · split
      · exact grows_reject _
      · exact grows_intern rfl

theorem grows_splatsFor (user : InstId) : ∀ (ops : List (Operand × LaneShape))
    (done : List (Operand × TyId)), Grows (splatsFor c user ops done)
  | [], done => grows_pure done
  | (v, s) :: rest, done => by
    unfold splatsFor
    split
    · exact (grows_vectorTy _ user).bind fun t => grows_splatsFor user rest _
    · exact grows_splatsFor user rest done

theorem grows_lowerGep : ∀ ops : List LaneShape, Grows (lowerGep c i ops) := by
  intro ops
  unfold lowerGep
  split
  · exact grows_pure _
  · exact grows_pure _
  · exact grows_reject _

theorem grows_lowerLoad (ops : List LaneShape) : Grows (lowerLoad c i ops) := by
  unfold lowerLoad
  split
  · exact grows_pure _
  · split
    · exact (grows_vectorTy _ i).bind fun _ => grows_pure _
    · exact grows_reject _
  · exact grows_reject _

theorem grows_lowerStore (v : Operand) (ops : List LaneShape) : Grows (lowerStore c i v ops) := by
  unfold lowerStore
  split
  · split
    · exact grows_reject _
    · refine (grows_vectorTy _ i).bind fun _ => ?_
      split
      · exact grows_pure _
      · exact grows_pure _
      · exact grows_reject _
  · exact grows_reject _
  · exact grows_reject _

theorem grows_lowerIndex (ops : List LaneShape) : Grows (lowerIndex c i ops) := by
  unfold lowerIndex
  split
  · exact grows_reject _
  · split
    · split
      · exact grows_pure _
      · exact grows_pure _
    · exact grows_reject _

theorem grows_lowerCompare (ops : List LaneShape) : Grows (lowerCompare c i ops) := by
  unfold lowerCompare
  split
  · exact grows_pure _
  · exact grows_reject _

theorem grows_lowerLanewise (operands : List Operand) (ops : List LaneShape) :
    Grows (lowerLanewise c i operands ops) := by
  unfold lowerLanewise
  split
  · exact grows_reject _
  · split
    · exact (grows_vectorTy _ i).bind fun _ => (grows_splatsFor i _ _).bind fun _ => grows_pure _
    · exact grows_pure _

theorem grows_lowerInst : Grows (lowerInst c shapes i) := by
  refine (grows_ofExcept _).bind fun ops => ?_
  split
  · exact grows_lowerGep ops
  · split
    · exact grows_pure _
    · exact grows_reject _
  · exact grows_lowerLoad ops
  · exact grows_lowerStore _ ops
  · refine grows_types.bind fun tt => ?_
    split
    · exact grows_lowerIndex ops
    · exact grows_lowerLanewise _ ops
  · exact grows_lowerCompare ops
  · exact grows_lowerLanewise _ ops
  · exact grows_lowerLanewise _ ops
  · exact grows_reject _

theorem grows_lowerBody : ∀ (is : List InstId) (shapes : LaneShapes), Grows (lowerBody c shapes is)
  | [], _ => grows_pure _
  | _ :: is, _ => grows_lowerInst.bind fun _ => (grows_lowerBody is _).bind fun _ => grows_pure _

theorem grows_plan (config : VectorConfig) (f : Func) (g : FlowGraph) (dom : DomTree)
    (l : NaturalLoop) : Grows (plan config f g dom l) := by
  unfold plan
  split
  · exact grows_reject _
  · split
    · exact grows_reject _
    · refine (grows_ofExcept _).bind fun _ => grows_types.bind fun _ =>
        (grows_ofExcept _).bind fun _ => (grows_ofExcept _).bind fun _ =>
        (grows_lowerBody _ _).bind fun _ => (grows_intern rfl).bind fun _ =>
        (grows_intern rfl).bind fun _ => grows_pure _

/-- A loop that is accepted is a counted loop. -/
theorem recognize_of_plan {config : VectorConfig} {f : Func} {g : FlowGraph} {dom : DomTree}
    {l : NaturalLoop} {p : VectorPlan} (h : plan config f g dom l tt = (.ok p, tt')) :
    CountedLoop.recognize f g dom l = .ok p.loop := by
  unfold plan at h
  split at h
  · exact (reject_eq_ok.mp h).elim
  · cases hrec : CountedLoop.recognize f g dom l with
    | error e => simp only [hrec, reject_eq_ok] at h
    | ok loop =>
      simp only [hrec] at h
      obtain ⟨_, _, _, h⟩ := bind_eq_ok.mp h
      obtain ⟨_, _, _, h⟩ := bind_eq_ok.mp h
      obtain ⟨_, _, _, h⟩ := bind_eq_ok.mp h
      obtain ⟨_, _, _, h⟩ := bind_eq_ok.mp h
      obtain ⟨_, _, _, h⟩ := bind_eq_ok.mp h
      obtain ⟨_, _, _, h⟩ := bind_eq_ok.mp h
      obtain ⟨_, _, _, h⟩ := bind_eq_ok.mp h
      obtain ⟨rfl, _⟩ := pure_eq_ok.mp h
      rfl

/-! ## Rounds of decisions -/

/-- The outcome of a round: the table keeps its types, and a plan is one for a loop of the round. -/
theorem firstPlan_spec (config : VectorConfig) (f : Func) (g : FlowGraph) (dom : DomTree) :
    ∀ (ls : List NaturalLoop) (rejected : List BlockId) (tt : TypeTable),
      tt.Accrues (firstPlan config f g dom ls rejected tt).2.2.1 ∧
      ∀ p, (firstPlan config f g dom ls rejected tt).1 = some p →
        ∃ l ∈ ls, ∃ tt₁, tt.Accrues tt₁ ∧
          plan config f g dom l tt₁ = (.ok p, (firstPlan config f g dom ls rejected tt).2.2.1)
  | [], rejected, tt => ⟨.refl tt, nofun⟩
  | l :: ls, rejected, tt => by
    have hlater : ∀ (rejected : List BlockId) (tt₁ : TypeTable), tt.Accrues tt₁ →
        tt.Accrues (firstPlan config f g dom ls rejected tt₁).2.2.1 ∧
        ∀ p, (firstPlan config f g dom ls rejected tt₁).1 = some p →
          ∃ m ∈ l :: ls, ∃ tt₂, tt.Accrues tt₂ ∧
            plan config f g dom m tt₂ = (.ok p, (firstPlan config f g dom ls rejected tt₁).2.2.1) :=
      fun rejected tt₁ he => by
        obtain ⟨hext, hplan⟩ := firstPlan_spec config f g dom ls rejected tt₁
        refine ⟨he.trans hext, fun p hp => ?_⟩
        obtain ⟨m, hm, tt₂, he₂, hok⟩ := hplan p hp
        exact ⟨m, List.mem_cons_of_mem l hm, tt₂, he.trans he₂, hok⟩
    have hgrows := grows_plan config f g dom l tt
    unfold firstPlan
    split
    · exact hlater rejected tt (.refl tt)
    · split
      · rename_i p tt₁ hok
        rw [hok] at hgrows
        refine ⟨hgrows, fun q hq => ?_⟩
        cases hq
        exact ⟨l, List.mem_cons_self, tt, .refl tt, hok⟩
      · rename_i tt₁ hno
        rw [hno] at hgrows
        exact hlater _ tt₁ hgrows
      · rename_i reason tt₁ _ hno
        rw [hno] at hgrows
        exact hlater _ tt₁ hgrows

/-- The innermost loops of a graph, in the order of the forest. -/
def innermostLoops (g : FlowGraph) : List NaturalLoop :=
  let t := LoopForest.ofGraph g (.ofGraph g)
  t.innermost.map t.loop

theorem isLoop_of_innermost {f : Func} {l : NaturalLoop} (hl : l ∈ innermostLoops (.ofFunc f)) :
    IsLoop (.ofFunc f) l := by
  obtain ⟨i, hi, rfl⟩ := List.mem_map.mp hl
  exact LoopForest.isLoop_loop (FlowGraph.coherent_ofFunc f) (List.mem_filter.mp hi).1

/-- No back edge leads to a block of an innermost loop other than its header. -/
theorem not_dominates_of_innermost {f : Func} {l : NaturalLoop}
    (hl : l ∈ innermostLoops (.ofFunc f)) {b q : BlockId} (hb : b ∈ l.blocks) (hne : b ≠ l.header)
    (he : (FlowGraph.ofFunc f).Edge q b) (hq : (FlowGraph.ofFunc f).Reachable q) :
    ¬ (FlowGraph.ofFunc f).Dominates b q := by
  obtain ⟨i, hi, rfl⟩ := List.mem_map.mp hl
  exact LoopForest.innermost_backEdge (FlowGraph.coherent_ofFunc f) hi hb hne he hq

theorem sweep_succ (config : VectorConfig) (fuel : Nat) (rejected : List BlockId) (tt : TypeTable)
    (f : Func) : sweep config (fuel + 1) rejected tt f =
      match firstPlan config f (.ofFunc f) (.ofGraph (.ofFunc f)) (innermostLoops (.ofFunc f))
        rejected tt with
      | (none, _, tt, log) => ⟨tt, f, false, log⟩
      | (some p, rejected, tt, log) =>
        { sweep config fuel (p.loop.header :: rejected) tt (apply config f p) with
          changed := true
          log := log ++ report config f p ::
            (sweep config fuel (p.loop.header :: rejected) tt (apply config f p)).log } := rfl

end Vectorize

end LoopNest
