import LoopNest.Proofs.Vectorize.Settled

/-!
# The pass ends, and once is enough

A sweep is a row of tries (`sweep_of_ok`, `sweep_of_error`), and each leaves less to do, so it runs
until no loop is left to try, with no more rounds than blocks (`Settled.sweepEnds`).  Then all loops
are refused, and a second run finds nothing to do (`vectorize_idempotent`).

The condition that what is used is listed cannot be dropped.  The verifier takes the block that a
value records for the place of its definition, so it accepts a pointer that nothing computes, and
the pass gets stuck on its way to the root (`strayCopy`).
-/

namespace LoopNest

open Func FlowGraph

namespace Vectorize

variable {f : Func} {l : NaturalLoop} {p : VectorPlan} {known : Operand → Prop}
  {base tt tt' : TypeTable} {config : VectorConfig} {rejected : List BlockId} {e : VectorRejection}

/-! ## Rounds of decisions -/

section

variable {g : FlowGraph} {dom : DomTree} {ls : List NaturalLoop}

theorem firstPlan_of_none (config : VectorConfig) (f : Func) (g : FlowGraph) (dom : DomTree)
    (tt : TypeTable) (h : ls.find? (fun l => !rejected.contains l.header) = none) :
    firstPlan config f g dom ls rejected tt = (none, rejected, tt, []) ∧
      firstStuck config f g dom ls rejected tt = false := by
  induction ls with
  | nil => exact ⟨rfl, rfl⟩
  | cons x ls ih =>
    rw [List.find?_cons] at h
    split at h
    · cases h
    · rename_i hin
      rw [firstPlan, firstStuck, if_pos (by simpa using hin), if_pos (by simpa using hin)]
      exact ih h

theorem firstPlan_of_ok (h : ls.find? (fun l => !rejected.contains l.header) = some l)
    (hp : plan config f g dom l tt = (.ok p, tt')) :
    firstPlan config f g dom ls rejected tt = (some p, rejected, tt', []) ∧
      firstStuck config f g dom ls rejected tt = planStuck config f g dom l tt := by
  induction ls with
  | nil => cases h
  | cons x ls ih =>
    rw [List.find?_cons] at h
    split at h
    · rename_i hout
      cases h
      rw [firstPlan, firstStuck, if_neg (by simpa using hout), if_neg (by simpa using hout), hp]
      exact ⟨rfl, Bool.or_false _⟩
    · rename_i hin
      rw [firstPlan, firstStuck, if_pos (by simpa using hin), if_pos (by simpa using hin)]
      exact ih h

/-- After a loop that is refused the round goes on as if its header had been tried before. -/
theorem firstPlan_of_error (h : ls.find? (fun l => !rejected.contains l.header) = some l)
    (hp : plan config f g dom l tt = (.error e, tt')) :
    (∃ log, firstPlan config f g dom ls rejected tt =
      let r := firstPlan config f g dom ls (l.header :: rejected) tt'
      (r.1, r.2.1, r.2.2.1, log ++ r.2.2.2)) ∧
    firstStuck config f g dom ls rejected tt = (planStuck config f g dom l tt ||
      firstStuck config f g dom ls (l.header :: rejected) tt') := by
  induction ls with
  | nil => cases h
  | cons x ls ih =>
    rw [List.find?_cons] at h
    split at h
    · rename_i hout
      cases h
      have hout : ¬ rejected.contains l.header = true := by simpa using hout
      have hself : (l.header :: rejected).contains l.header = true := by simp
      rw [firstPlan, firstPlan, firstStuck, firstStuck, if_neg hout, if_neg hout, if_pos hself,
        if_pos hself, hp]
      refine ⟨?_, rfl⟩
      cases e with
      | alreadyVectorized => exact ⟨[], rfl⟩
      | _ =>
        dsimp only
        generalize firstPlan config f g dom ls (l.header :: rejected) tt' = r
        exact ⟨[_], rfl⟩
    · rename_i hin
      have hin : rejected.contains x.header = true := by simpa using hin
      have hmore : (l.header :: rejected).contains x.header = true := by
        simp only [List.contains_cons, hin, Bool.or_true]
      rw [firstPlan, firstPlan, firstStuck, firstStuck, if_pos hin, if_pos hin, if_pos hmore,
        if_pos hmore]
      exact ih h

end

/-! ## Sweeps -/

theorem sweepStuck_succ (config : VectorConfig) (fuel : Nat) (rejected : List BlockId)
    (tt : TypeTable) (f : Func) : sweepStuck config (fuel + 1) rejected tt f =
      (firstStuck config f (.ofFunc f) (.ofGraph (.ofFunc f)) (innermostLoops (.ofFunc f))
        rejected tt ||
      match firstPlan config f (.ofFunc f) (.ofGraph (.ofFunc f)) (innermostLoops (.ofFunc f))
        rejected tt with
      | (none, _) => false
      | (some p, rejected, tt, _) =>
        sweepStuck config fuel (p.loop.header :: rejected) tt (apply config f p)) := rfl

theorem sweep_of_none (hc : candidate? rejected f = none) (fuel : Nat) :
    sweep config fuel rejected tt f = ⟨tt, f, false, []⟩ ∧
      sweepStuck config fuel rejected tt f = false := by
  cases fuel with
  | zero => exact ⟨rfl, rfl⟩
  | succ fuel =>
    obtain ⟨hfirst, hstuck⟩ := firstPlan_of_none config f (.ofFunc f) (.ofGraph (.ofFunc f)) tt hc
    rw [sweep_succ, sweepStuck_succ, hfirst, hstuck]
    exact ⟨rfl, rfl⟩

/-- A sweep vectorizes a candidate that is accepted, and goes on. -/
theorem sweep_of_ok (hc : candidate? rejected f = some l) (hl : p.loop.header = l.header)
    (hp : plan config f (.ofFunc f) (.ofGraph (.ofFunc f)) l tt = (.ok p, tt')) (fuel : Nat) :
    sweep config (fuel + 1) rejected tt f =
      { sweep config fuel (l.header :: rejected) tt' (apply config f p) with
        changed := true
        log := report config f p ::
          (sweep config fuel (l.header :: rejected) tt' (apply config f p)).log } ∧
    sweepStuck config (fuel + 1) rejected tt f =
      (planStuck config f (.ofFunc f) (.ofGraph (.ofFunc f)) l tt ||
        sweepStuck config fuel (l.header :: rejected) tt' (apply config f p)) := by
  obtain ⟨hfirst, hstuck⟩ := firstPlan_of_ok hc hp
  rw [sweep_succ, sweepStuck_succ, hfirst, hstuck, ← hl]
  exact ⟨rfl, rfl⟩

/-- A sweep goes on after a candidate that is refused as if its header had been tried before. -/
theorem sweep_of_error (hc : candidate? rejected f = some l)
    (hp : plan config f (.ofFunc f) (.ofGraph (.ofFunc f)) l tt = (.error e, tt')) :
    ∃ log, ∀ fuel, sweep config (fuel + 1) rejected tt f =
      { sweep config (fuel + 1) (l.header :: rejected) tt' f with
        log := log ++ (sweep config (fuel + 1) (l.header :: rejected) tt' f).log } ∧
    sweepStuck config (fuel + 1) rejected tt f =
      (planStuck config f (.ofFunc f) (.ofGraph (.ofFunc f)) l tt ||
        sweepStuck config (fuel + 1) (l.header :: rejected) tt' f) := by
  obtain ⟨⟨log, hfirst⟩, hstuck⟩ := firstPlan_of_error hc hp
  refine ⟨log, fun fuel => ?_⟩
  rw [sweep_succ, sweep_succ, sweepStuck_succ, sweepStuck_succ, hfirst, hstuck, Bool.or_assoc]
  generalize firstPlan config f (.ofFunc f) (.ofGraph (.ofFunc f)) (innermostLoops (.ofFunc f))
    (l.header :: rejected) tt' = r
  obtain ⟨found, rejected', tt₁, log'⟩ := r
  cases found with
  | none => exact ⟨rfl, rfl⟩
  | some p => exact ⟨by simp, rfl⟩

/-- A sweep with that much fuel tries loops until none is left, and no decision gets stuck. -/
structure SweepEnds (config : VectorConfig) (fuel : Nat) (rejected : List BlockId) (tt : TypeTable)
    (f : Func) : Prop where
  ended : ∃ tried, Relation.ReflTransGen (Try config) (rejected, tt, f)
    (tried, (sweep config fuel rejected tt f).types, (sweep config fuel rejected tt f).func) ∧
    candidate? tried (sweep config fuel rejected tt f).func = none
  not_stuck : sweepStuck config fuel rejected tt f = false

theorem sweepEnds_of_none (hc : candidate? rejected f = none) (fuel : Nat) :
    SweepEnds config fuel rejected tt f := by
  obtain ⟨hsweep, hstuck⟩ := sweep_of_none hc fuel
  refine ⟨⟨rejected, ?_⟩, hstuck⟩
  rw [hsweep]
  exact ⟨.refl, hc⟩

/-- A refused candidate is skipped. -/
theorem SweepEnds.skip {fuel : Nat} (hc : candidate? rejected f = some l)
    (hp : plan config f (.ofFunc f) (.ofGraph (.ofFunc f)) l tt = (.error e, tt'))
    (hstuck : planStuck config f (.ofFunc f) (.ofGraph (.ofFunc f)) l tt = false)
    (h : SweepEnds config (fuel + 1) (l.header :: rejected) tt' f) :
    SweepEnds config (fuel + 1) rejected tt f := by
  obtain ⟨log, hsweep⟩ := sweep_of_error hc hp
  obtain ⟨tried, hrun, hnone⟩ := h.ended
  constructor
  · rw [(hsweep fuel).1]
    exact ⟨tried, .head (.skip hc hp) hrun, hnone⟩
  · rw [(hsweep fuel).2, hstuck, h.not_stuck, Bool.or_false]

/-- An accepted candidate costs one round. -/
theorem SweepEnds.move {fuel : Nat} (hc : candidate? rejected f = some l)
    (hl : p.loop.header = l.header)
    (hp : plan config f (.ofFunc f) (.ofGraph (.ofFunc f)) l tt = (.ok p, tt'))
    (hstuck : planStuck config f (.ofFunc f) (.ofGraph (.ofFunc f)) l tt = false)
    (h : SweepEnds config fuel (l.header :: rejected) tt' (apply config f p)) :
    SweepEnds config (fuel + 1) rejected tt f := by
  obtain ⟨hsweep, hsweepStuck⟩ := sweep_of_ok hc hl hp fuel
  obtain ⟨tried, hrun, hnone⟩ := h.ended
  constructor
  · rw [hsweep]
    exact ⟨tried, .head (.move hc hp) hrun, hnone⟩
  · rw [hsweepStuck, hstuck, h.not_stuck, Bool.or_false]

/-- Fuel for more rounds than unmarked loops are left is enough.  A try that is no move leaves fewer
headers, and a move leaves fewer unmarked ones and no more headers. -/
theorem Settled.sweepEnds : ∀ (n : Nat) {rejected : List BlockId} {tt : TypeTable} {f : Func},
    Settled known base config rejected f → base.Extends tt →
    (untried rejected f).length + (pending rejected f).length ≤ n →
    ∀ {fuel : Nat}, (pending rejected f).length < fuel → SweepEnds config fuel rejected tt f := by
  intro n
  induction n with
  | zero =>
    intro rejected tt f _ _ hle fuel _
    cases hc : candidate? rejected f with
    | none => exact sweepEnds_of_none hc fuel
    | some l =>
      have hpos := List.length_pos_of_mem (mem_untried_of_candidate hc)
      exact absurd hle (by omega)
  | succ n ih =>
    intro rejected tt f h ht hle fuel hfuel
    cases hc : candidate? rejected f with
    | none => exact sweepEnds_of_none hc fuel
    | some l =>
      have hl := (candidate?_first hc).1
      have hstuck := h.planStuck_eq_false hl tt
      obtain ⟨fuel, rfl⟩ : ∃ k, fuel = k + 1 := ⟨fuel - 1, by omega⟩
      cases hp : plan config f (.ofFunc f) (.ofGraph (.ofFunc f)) l tt with
      | mk r tt' =>
      cases r with
      | error e =>
        obtain ⟨hs, ht'⟩ := h.step ht (.skip hc hp)
        obtain ⟨hlt, hpend⟩ := length_skip hc
        exact .skip hc hp hstuck <|
          ih hs ht' (by dsimp only; omega) (Nat.lt_of_le_of_lt hpend hfuel)
      | ok p =>
        obtain ⟨hs, ht'⟩ := h.step ht (.move hc hp)
        obtain ⟨hle', hpend⟩ := h.length_move hc hp
        have hhead := (shape_of_plan (isLoop_of_innermost hl) hp).counted.header_eq
        exact .move hc hhead hp hstuck <|
          ih hs ht' (by dsimp only; omega) (by dsimp only; omega)

/-! ## The second run -/

/-- If all innermost loops are refused, a round accepts none. -/
theorem firstPlan_of_refused : ∀ {ls : List NaturalLoop} {rejected : List BlockId} {tt : TypeTable},
    (∀ l ∈ ls, Refused base config f l) → base.Extends tt →
    (firstPlan config f (.ofFunc f) (.ofGraph (.ofFunc f)) ls rejected tt).1 = none
  | [], _, _, _, _ => rfl
  | l :: ls, rejected, tt, h, ht => by
    have hls : ∀ k ∈ ls, Refused base config f k := fun k hk => h k (List.mem_cons_of_mem _ hk)
    obtain ⟨e, tt', hp⟩ := h l List.mem_cons_self tt ht
    have hgrows := grows_plan config f (.ofFunc f) (.ofGraph (.ofFunc f)) l tt
    rw [hp] at hgrows
    rw [firstPlan]
    split
    · exact firstPlan_of_refused hls ht
    · rw [hp]
      cases e with
      | alreadyVectorized => exact firstPlan_of_refused hls (ht.trans hgrows.ext)
      | _ => exact firstPlan_of_refused hls (ht.trans hgrows.ext)

theorem sweep_of_refused (h : ∀ l ∈ innermostLoops (.ofFunc f), Refused base config f l)
    (ht : base.Extends tt) (fuel : Nat) : (sweep config fuel rejected tt f).func = f ∧
      (sweep config fuel rejected tt f).changed = false := by
  cases fuel with
  | zero => exact ⟨rfl, rfl⟩
  | succ fuel =>
    have hnone : (firstPlan config f (.ofFunc f) (.ofGraph (.ofFunc f)) (innermostLoops (.ofFunc f))
      rejected tt).1 = none := firstPlan_of_refused h ht
    rw [sweep_succ]
    generalize firstPlan config f (.ofFunc f) (.ofGraph (.ofFunc f)) (innermostLoops (.ofFunc f))
      rejected tt = r at hnone
    obtain ⟨found, rejected', tt', log⟩ := r
    cases hnone
    exact ⟨rfl, rfl⟩

/-- No decision gets stuck on the way to the first loop that is accepted. -/
theorem firstStuck_eq_false {graph : FlowGraph} {dom : DomTree} : ∀ (ls : List NaturalLoop)
    (rejected : List BlockId) (tt : TypeTable),
    (∀ l ∈ ls, ∀ tt, planStuck config f graph dom l tt = false) →
    firstStuck config f graph dom ls rejected tt = false
  | [], _, _, _ => rfl
  | l :: ls, rejected, tt, h => by
    have hrest : ∀ k ∈ ls, ∀ tt, planStuck config f graph dom k tt = false :=
      fun k hk => h k (List.mem_cons_of_mem _ hk)
    unfold firstStuck
    rw [h l List.mem_cons_self tt, Bool.false_or]
    split
    · exact firstStuck_eq_false ls _ tt hrest
    · split
      · rfl
      · exact firstStuck_eq_false ls _ _ hrest

/-- If all innermost loops are refused by decisions that do not get stuck, neither does the pass. -/
theorem vectorizeStuck_of_refused
    (hs : ∀ l ∈ innermostLoops (.ofFunc f), ∀ tt,
      planStuck config f (.ofFunc f) (.ofGraph (.ofFunc f)) l tt = false)
    (h : ∀ l ∈ innermostLoops (.ofFunc f), Refused base config f l) (ht : base.Extends tt) :
    f.vectorizeStuck config tt = false := by
  unfold Func.vectorizeStuck
  split
  · rfl
  · have hnone : (firstPlan config f (.ofFunc f) (.ofGraph (.ofFunc f))
      (innermostLoops (.ofFunc f)) [] tt).1 = none := firstPlan_of_refused h ht
    rw [sweepStuck_succ, firstStuck_eq_false _ _ _ hs, Bool.false_or]
    split
    · rfl
    · rename_i heq
      rw [heq] at hnone
      cases hnone

/-- A later run starts from what holds after the last try. -/
theorem Settled.restart (h : Settled known base config rejected f) :
    Settled known base config [] f :=
  { h with
    refused := fun _ _ hmem => absurd hmem List.not_mem_nil
    apart := fun _ _ _ _ _ _ _ hmem => absurd hmem List.not_mem_nil }

/-- A run of the pass has fuel to the end. -/
theorem Settled.sweepEnds_blocks (h : Settled known base config rejected f) (ht : base.Extends tt) :
    SweepEnds config (f.blocks.size + 1) rejected tt f :=
  h.sweepEnds _ ht (Nat.le_refl _) (Nat.lt_succ_of_le (length_pending_le h.framed))

theorem Settled.vectorizeStuck_eq_false (h : Settled known base config rejected f)
    (ht : base.Extends tt) : f.vectorizeStuck config tt = false := by
  unfold Func.vectorizeStuck
  split
  · rfl
  · exact (h.restart.sweepEnds_blocks ht).not_stuck

/-- The pass ends, and a second run changes nothing.

A run tries loops until none is left, the searches that a try starts end, and no decision gets
stuck.  The same holds of a second run, also when types were added in between. -/
theorem vectorize_idempotent (config : VectorConfig) (hv : f.verify tt = .ok ()) (hu : f.UsesListed)
    (htys : ∀ t ∈ f.tys, t < tt.size) (hr : ∀ b ∈ f.layout, (ofFunc f).Reachable b)
    (hd : f.DistinctTargets) :
    (2 ≤ config.width → ∃ tried, Relation.ReflTransGen (Try config) ([], tt, f)
      (tried, (f.vectorize config tt).types, (f.vectorize config tt).func) ∧
      candidate? tried (f.vectorize config tt).func = none) ∧
    (∀ rejected tt' g l, Relation.ReflTransGen (Try config) ([], tt, f) (rejected, tt', g) →
      candidate? rejected g = some l → Unmarked g l → SearchesEnd g l) ∧
    f.vectorizeStuck config tt = false ∧
    ∀ tt', (f.vectorize config tt).types.Extends tt' →
      (f.vectorize config tt).func.vectorizeStuck config tt' = false ∧
      ((f.vectorize config tt).func.vectorize config tt').func = (f.vectorize config tt).func ∧
      ((f.vectorize config tt).func.vectorize config tt').changed = false := by
  have hf := (Func.sound_of_verify hv hu htys).wellFormed
  have hs : Settled f.Present tt config [] f := settled_nil hf hu htys hr hd
  have hend := hs.sweepEnds_blocks (.refl tt)
  have hsearch : ∀ rejected tt' g l,
      Relation.ReflTransGen (Try config) ([], tt, f) (rejected, tt', g) →
      candidate? rejected g = some l → Unmarked g l → SearchesEnd g l :=
    fun rejected tt' g l hrun hc hmark =>
      (hs.run (s := ([], tt, f)) (.refl tt) hrun).1.searchesEnd (candidate?_first hc).1 hmark
  refine ⟨fun hwidth => ?_, hsearch, hs.vectorizeStuck_eq_false (.refl tt), fun tt' ht' => ?_⟩
  · rw [Func.vectorize, if_neg (Nat.not_lt.mpr hwidth)]
    exact hend.ended
  by_cases hwidth : config.width < 2
  · simp only [Func.vectorize, Func.vectorizeStuck, if_pos hwidth, and_self]
  -- What is left of the first run is settled, and all its loops are refused.
  rw [Func.vectorize, if_neg hwidth] at ht' ⊢
  obtain ⟨tried, hrun, hnone⟩ := hend.ended
  generalize sweep config (f.blocks.size + 1) [] tt f = r at ht' hrun hnone
  obtain ⟨hs', ht⟩ := hs.run (s := ([], tt, f)) (.refl tt) hrun
  have hall : ∀ l ∈ innermostLoops (.ofFunc r.func), Refused tt config r.func l := fun l hl =>
    hs'.refused l hl (mem_of_candidate?_none hnone hl)
  refine ⟨hs'.vectorizeStuck_eq_false (ht.trans ht'), ?_⟩
  rw [Func.vectorize, if_neg hwidth]
  exact sweep_of_refused hall (ht.trans ht') _

/-- The loop of `fill` is vectorized by the first run and left alone by the second. -/
theorem vectorize_idempotent_fill :
    ((fill (.const 3) 10 false).verify fillTypes = .ok () ∧ (fill (.const 3) 10 false).UsesListed ∧
      (∀ t ∈ (fill (.const 3) 10 false).tys, t < fillTypes.size) ∧
      (∀ b ∈ (fill (.const 3) 10 false).layout, (ofFunc (fill (.const 3) 10 false)).Reachable b) ∧
      (fill (.const 3) 10 false).DistinctTargets) ∧
    let r := (fill (.const 3) 10 false).vectorize .standard fillTypes
    r.changed = true ∧ r.func.vectorizeStuck .standard r.types = false ∧
      (r.func.vectorize .standard r.types).func = r.func ∧
      (r.func.vectorize .standard r.types).changed = false := by
  have hr : ∀ b ∈ (fill (.const 3) 10 false).layout,
      (ofFunc (fill (.const 3) 10 false)).Reachable b := by
    simp only [← DomTree.isReachable_ofGraph]
    decide +kernel
  have h : (fill (.const 3) 10 false).verify fillTypes = .ok () ∧
      (fill (.const 3) 10 false).UsesListed ∧
      (∀ t ∈ (fill (.const 3) 10 false).tys, t < fillTypes.size) ∧
      (fill (.const 3) 10 false).DistinctTargets := by decide +kernel
  have hidem := vectorize_idempotent .standard h.1 h.2.1 h.2.2.1 hr h.2.2.2
  exact ⟨⟨h.1, h.2.1, h.2.2.1, hr, h.2.2.2⟩, by decide +kernel, hidem.2.2.2 _ (.refl _)⟩

/-- Copies elements through a pointer that nothing computes.  The pointer is a cast of an
instruction that does not exist, and it records the entry as its block but is listed nowhere. -/
def strayCopy : Func where
  name := "copy"
  params := #[⟨"y", 4, true⟩]
  ret := 0
  blocks := #[⟨"entry", [1], false⟩, ⟨"header", [2, 3, 4], false⟩, ⟨"body", [5, 6, 7, 8], false⟩,
    ⟨"latch", [9, 10], false⟩, ⟨"exit", [11], false⟩]
  insts := #[⟨.bitcast (.inst 999), 4, none, some 0⟩, ⟨.br 1, 0, none, some 0⟩,
    ⟨.phi [(.const 0, 0), (.inst 9, 3)], 2, none, some 1⟩,
    ⟨.icmp .ult (.inst 2) (.const 2), 1, none, some 1⟩, ⟨.condBr (.inst 3) 2 4, 0, none, some 1⟩,
    ⟨.load (.inst 0), 3, none, some 2⟩, ⟨.gep (.param 0) (.inst 2), 4, none, some 2⟩,
    ⟨.load (.inst 6), 3, none, some 2⟩, ⟨.br 3, 0, none, some 2⟩,
    ⟨.binary .add (.inst 2) (.const 1), 2, none, some 3⟩, ⟨.br 1, 0, none, some 3⟩,
    ⟨.ret none, 0, none, some 4⟩]
  constants := #[⟨2, .int 0⟩, ⟨2, .int 1⟩, ⟨2, .int 8⟩]
  layout := [0, 1, 2, 3, 4]

/-- The verifier accepts the function, and the pass gets stuck on the way from the pointer. -/
theorem vectorizeStuck_strayCopy :
    strayCopy.verify fillTypes = .ok () ∧ (∀ t ∈ strayCopy.tys, t < fillTypes.size) ∧
    (∀ b ∈ strayCopy.layout, (ofFunc strayCopy).Reachable b) ∧ strayCopy.DistinctTargets ∧
    ¬ strayCopy.UsesListed ∧ strayCopy.vectorizeStuck .standard fillTypes = true := by
  simp only [← DomTree.isReachable_ofGraph]
  decide +kernel

end Vectorize

end LoopNest
