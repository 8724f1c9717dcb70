import LoopNest.Proofs.Loop.Tours
import LoopNest.Proofs.Loop.Trips
import LoopNest.Proofs.Vectorize.Lanes
import LoopNest.Proofs.Vectorize.Split

/-!
# Turns of the old loop

`Ends` is what the vector loop needs of its end: it gets there in whole vectors, without going past
the bound (`Ends.step`).  The end is a constant or is computed in the preheader, and in both cases
the run finds such an end there (`straight_emitEnd`).

In a run, the old loop tests its induction value in the header (`Laned.visit_header`), does the body
(`Laned.visit_body`) and counts up in the latch (`Laned.visit_latch`).  A *turn* is all three, from a
test that holds to the next test (`Laned.turn`).  Consecutive turns are the lanes of one iteration of
the vector loop (`Laned.turns`).
-/

namespace LoopNest

/-! ## Where the vector loop stops -/

theorem Int64.eq_of_toNat {x y : Int64} (h : x.toUInt64.toNat = y.toUInt64.toNat) : x = y :=
  congrArg UInt64.toInt64 (UInt64.toNat_inj.mp h)

/-- Below the end of the 64 bits, adding a number does not wrap around. -/
theorem toNat_add_ofNat {x : Int64} {n : Nat} (h : x.toUInt64.toNat + n < 2 ^ 64) :
    (x + .ofNat n).toUInt64.toNat = x.toUInt64.toNat + n := by
  rw [toNat_add, toNat_ofNat, Nat.mod_eq_of_lt (a := n) (by omega), Nat.mod_eq_of_lt h]

namespace Vectorize

/-- A loop over vectors of some width can end at `e`, from `x` on and below the bound `y`.  If it is
the `whole` loop, nothing is left over. -/
structure Ends (width : Nat) (whole : Bool) (x y e : Int64) : Prop where
  le : x.toUInt64.toNat ≤ e.toUInt64.toNat
  dvd : width ∣ e.toUInt64.toNat - x.toUInt64.toNat
  below : x.toUInt64.toNat < e.toUInt64.toNat → e.toUInt64.toNat ≤ y.toUInt64.toNat
  eq_bound : whole = true → e = y

section

variable {width : Nat} {whole : Bool} {x y e : Int64} {s : Scalar}

/-- Before the end there is room for a whole vector. -/
theorem Ends.step (h : Ends width whole x y e) (hlt : x.toUInt64.toNat < e.toUInt64.toNat) :
    x.toUInt64.toNat + width ≤ y.toUInt64.toNat ∧ Ends width whole (x + .ofNat width) y e := by
  have hle := Nat.le_of_dvd (Nat.sub_pos_of_lt hlt) h.dvd
  have hbelow := h.below hlt
  have hx := toNat_add_ofNat (x := x) (n := width)
    (Nat.lt_of_le_of_lt (by omega) e.toUInt64.toNat_lt)
  refine ⟨by omega, ?_, ?_, fun _ => hbelow, h.eq_bound⟩
  · rw [hx]
    omega
  · rw [hx, ← Nat.sub_sub]
    exact Nat.dvd_sub h.dvd (Nat.dvd_refl width)

theorem Ends.eq_end (h : Ends width whole x y e) (hlt : ¬ x.toUInt64.toNat < e.toUInt64.toNat) :
    x = e := Int64.eq_of_toNat (Nat.le_antisymm h.le (Nat.le_of_not_lt hlt))

/-- The end that the code in the preheader computes. -/
theorem Splits.ends (h : Splits s width x y e) (hi : s.isInteger = true) (hw : s.width = 8) :
    Ends width false x y e := by
  obtain ⟨-, hle, hlt, hwithin, -⟩ := h
  simp only [Scalar.lowBits_of_width hi hw] at hle hlt hwithin
  rcases Nat.lt_or_ge x.toUInt64.toNat y.toUInt64.toNat with hxy | hxy
  · obtain ⟨hxe, hey, -⟩ := hwithin hxy
    refine ⟨hxe, ?_, fun _ => hey, nofun⟩
    rw [hlt hxy, Nat.add_sub_cancel_left]
    exact Nat.dvd_sub_mod _
  · have heq := hle hxy
    exact ⟨Nat.le_of_eq heq.symm, by simp [heq], fun hlt => by omega, nofun⟩

/-- The end that is found in advance. -/
theorem ends_of_literals {n : Nat} (hn : n = y.toUInt64.toNat - x.toUInt64.toNat) (hle : width ≤ n)
    (hw : 0 < width) : Ends width (decide (n % width = 0)) x y (x + .ofNat (n - n % width)) := by
  have hmod := Nat.mod_le n width
  have hy := y.toUInt64.toNat_lt
  have hx := toNat_add_ofNat (x := x) (n := n - n % width) (by omega)
  refine ⟨by omega, ?_, fun _ => by omega, fun hwhole => Int64.eq_of_toNat ?_⟩
  · rw [hx, Nat.add_sub_cancel_left]
    exact Nat.dvd_sub_mod _
  · have := of_decide_eq_true hwhole
    omega

end

variable {tt : TypeTable} {f : Func} {p : VectorPlan} {s : Scalar} {dom : DomTree}
  {l : NaturalLoop} {config : VectorConfig} {front : List InstId} {t : InstId}

/-- A constant end is an end. -/
theorem ends_of_vectorEnd {args : List Datum} {ρ : Values} {x y k : Int64} {left : Bool}
    (hiv : tt.elementScalar? p.ivTy = some s) (hi : s.isInteger = true) (hs : s.width = 8)
    (hw : 0 < config.width) (hstep : p.loop.step = 1)
    (hstart : f.operandTy p.loop.start = .ok p.ivTy)
    (hbound : f.operandTy p.loop.bound = .ok p.ivTy)
    (h : vectorEnd ⟨f, dom, l, p.loop, config⟩ tt = .ok (.constant k, left))
    (hx : f.value tt args ρ p.loop.start = some (.int x))
    (hy : f.value tt args ρ p.loop.bound = some (.int y)) :
    Ends config.width (!left) x y k := by
  unfold vectorEnd at h
  dsimp only at h
  split at h
  · rename_i n hn
    split at h
    · cases h
    rename_i hle
    cases h
    obtain ⟨a, b, ha, hb, hsteps⟩ := CountedLoop.tripCount_eq_constant hn
    have literal {v : Operand} {z m : Int64} (hv : f.operandTy v = .ok p.ivTy)
        (hz : f.value tt args ρ v = some (.int z)) (hm : f.intLiteral? v = some m) : z = m := by
      rw [Func.value_of_intLiteral hm, Typing.tyOf_of_operandTy hv, hiv] at hz
      cases hz
      exact Scalar.normalize_of_width hi hs m
    obtain rfl := literal hstart hx ha
    obtain rfl := literal hbound hy hb
    have hcount : n = y.toUInt64.toNat - x.toUInt64.toNat := by
      have hone : (1 : Int64).toUInt64.toNat = 1 := rfl
      rw [Typing.tyOf_of_operandTy hstart, hiv, Option.getD_some, hstep, hone,
        Scalar.lowBits_of_width hi hs, Scalar.lowBits_of_width hi hs] at hsteps
      rw [← hsteps, stepsBetween, Nat.div_one]
      rfl
    have hends := ends_of_literals hcount (Nat.le_of_not_lt hle) hw
    rw [ha, Option.getD_some]
    simpa using hends
  · cases h
  · cases h

theorem le_of_mem_endInsts {n i : InstId} (h : i ∈ endInsts n) : n ≤ i := by
  simp only [endInsts, List.mem_cons, List.not_mem_nil, or_false] at h
  rcases h with rfl | rfl | rfl | rfl | rfl | rfl <;> simp

/-- The code for the end stands before the terminator of the preheader, and a run finds an end of
the vector loop there. -/
theorem straight_emitEnd (hiv : tt.elementScalar? p.ivTy = some s) (hi : s.isInteger = true)
    (hs : s.width = 8) (hw : 0 < config.width) (hlt : config.width < 2 ^ 64)
    (hstep : p.loop.step = 1) (hstart : f.operandTy p.loop.start = .ok p.ivTy)
    (hbound : f.operandTy p.loop.bound = .ok p.ivTy)
    (hend : EndsIn f p.loop.preheader front t)
    (h : vectorEnd ⟨f, dom, l, p.loop, config⟩ tt = .ok (p.stop, p.epilogue)) :
    ∃ new, (emitEnd f p (.ofNat config.width)).2.body p.loop.preheader = front ++ new ++ [t] ∧
      ∀ (args : List Datum) (ρ : Values) (rs : Array Region) (x y : Int64),
        f.value tt args ρ p.loop.start = some (.int x) →
        f.value tt args ρ p.loop.bound = some (.int y) →
        ∃ σ e, Straight tt (emitEnd f p (.ofNat config.width)).2 args new ⟨ρ, rs⟩ [] ⟨σ, rs⟩ ∧
          (∀ j < f.insts.size, σ j = ρ j) ∧
          (emitEnd f p (.ofNat config.width)).2.value tt args σ
            (emitEnd f p (.ofNat config.width)).1 = some (.int e) ∧
          Ends config.width (!p.epilogue) x y e := by
  have hbits : s.bits = 64 := by
    unfold Scalar.bits
    cases hk : s.kind <;> simp_all [Scalar.isInteger]
  have hlow : s.lowBits (s.normalize (.ofNat config.width)) = config.width := by
    rw [Scalar.lowBits_normalize, Scalar.lowBits_ofNat (Nat.le_of_eq hbits) (hbits ▸ hlt)]
  unfold emitEnd
  cases hp : p.stop with
  | constant k =>
    refine ⟨[], by rw [List.append_nil]; exact hend.body_eq, fun args ρ rs x y hx hy =>
      ⟨ρ, k, .nil, fun _ _ => rfl, ?_, ?_⟩⟩
    · simp [Func.addConstant, Func.value, Func.constantValue, hiv, Scalar.normalize_of_width hi hs]
    · exact ends_of_vectorEnd hiv hi hs hw hstep hstart hbound (hp ▸ h) hx hy
  | computed =>
    have hleft : p.epilogue = true := by
      rw [hp] at h
      unfold vectorEnd at h
      dsimp only at h
      split at h
      · split at h <;> cases h
      · exact (congrArg Prod.snd (Except.ok.inj h)).symm
      · cases h
    refine ⟨endInsts f.insts.size, body_computeEnd hend, fun args ρ rs x y hx hy => ?_⟩
    have hne : s.lowBits (s.normalize (.ofNat config.width)) ≠ 0 := by omega
    obtain ⟨σ, e, hrun, he, hsplits⟩ : ∃ σ e,
        Straight tt (computeEnd f p (.ofNat config.width)).2 args (endInsts f.insts.size) ⟨ρ, rs⟩ []
          ⟨σ, rs⟩ ∧ σ (f.insts.size + 5) = some (.int e) ∧ Splits s config.width x y e := by
      obtain ⟨σ, hrun, he⟩ := (hasEnd_computeEnd f p (.ofNat config.width)).straight hiv hstart
        hbound hx hy rs rfl rfl (if_neg hne) rfl rfl
      exact ⟨σ, _, hrun, he, splits_of_code (Nat.le_of_eq hbits) hw (hbits ▸ hlt) rfl rfl
        (if_neg hne) rfl rfl⟩
    refine ⟨σ, e, hrun, fun j hj => hrun.values_of_not_mem fun hmem => ?_, ?_,
      hleft ▸ hsplits.ends hi hs⟩
    · exact absurd hj (Nat.not_lt.mpr (le_of_mem_endInsts hmem))
    · rw [fst_computeEnd]
      exact he

end Vectorize

/-! ## Turns of the old loop -/

/-- A loop does not compute an instruction. -/
def NaturalLoop.Spares (l : NaturalLoop) (f : Func) (j : InstId) : Prop := ∀ b ∈ l.blocks, j ∉ f.body b

/-- What is known of a state depends on its values and the number of its regions. -/
theorem Traced.congr {f : Func} {args : List Datum} {base : Nat} {made : Origins} {ρ : Values}
    {rs rt : Array Region} (h : Traced f args base made ⟨ρ, rs⟩) (hsize : rt.size = rs.size) :
    Traced f args base made ⟨ρ, rt⟩ :=
  ⟨h.holds, hsize.symm ▸ h.base_le, fun r i hri => hsize.symm ▸ h.made_range r i hri⟩

theorem byLap_congr {n : Nat} {is : List InstId} {X Y : ChunkTable} (h : ∀ t < n, X t = Y t) :
    byLap n is X = byLap n is Y :=
  List.flatMap_congr fun t ht => by rw [h t (List.mem_range.mp ht)]

namespace Vectorize

/-- A run is about to test the induction value `x` of the old loop against the bound `y`. -/
structure Testing (tt : TypeTable) (c : Context) (args : List Datum) (base : Nat) (made : Origins)
    (q : Option BlockId) (s : Snapshot) (x y : Int64) : Prop where
  counts : phiValue tt c.func args q s.values c.loop.induction = some (.int x)
  bound : c.func.value tt args s.values c.loop.bound = some (.int y)
  typed : s.values.Typed tt c.func
  traced : Traced c.func args base made s

/-- What the body computes and writes in a turn, from an induction value and some regions on.  Around
the loop are the values `σ`. -/
structure Turn (tt : TypeTable) (c : Context) (args : List Datum) (base : Nat) (made : Origins)
    (σ : Values) (rs : Array Region) (x : Int64) (ρ : Values) (X : InstId → List Chunk) : Prop where
  tabled : Tabled tt c.func args c.code ρ rs X
  counts : ρ c.loop.induction = some (.int x)
  spared : ∀ j, c.natural.Spares c.func j → ρ j = σ j
  typed : ρ.Typed tt c.func
  traced : Traced c.func args base made ⟨ρ, rs⟩

/-- Consecutive turns are lanes. -/
theorem lanes_of_turns {tt : TypeTable} {c : Context} {args : List Datum} {base W : Nat}
    {made : Origins} {σ : Values} {rs : Array Region} {x : Int64} {V : Nat → Values} {X : ChunkTable}
    (h : ∀ t < W, Turn tt c args base made σ (writeChunks rs (byLap t c.code X)) (x + .ofNat t) (V t)
      (X t)) : Lanes tt c args base made rs x W V X where
  tabled := fun t ht => (h t ht).tabled
  counts := fun t ht => (h t ht).counts
  outside := fun t ht j hj =>
    ((h t ht).spared j hj).trans ((h 0 (Nat.zero_lt_of_lt ht)).spared j hj).symm
  typed := fun t ht => (h t ht).typed
  traced := fun t ht => (h t ht).traced.congr (sameExtents_writeChunks _ rs).1

namespace Laned

variable {tt : TypeTable} {c : Context} {args : List Datum} {steps : List (InstId × Lowering)}
  {T : LaneShapes} {q : Option BlockId} {s s' : Snapshot} {δ : List Chunk} {next : Next}
  {x y : Int64} {base n : Nat} {made : Origins} {d : Datum} {rs : Array Region}
  (h : Laned tt c args steps T)

include h

/-! ## The blocks -/

theorem header_live : c.natural.header ∈ c.func.layout :=
  CountedLoop.live_of_mem h.accepted.tight.isLoop h.accepted.tight.isLoop.header_mem

theorem latch_mem : c.loop.latch ∈ c.natural.blocks :=
  CountedLoop.latch_mem h.accepted.tight.isLoop h.accepted.tight.counted

theorem latch_live : c.loop.latch ∈ c.func.layout :=
  CountedLoop.live_of_mem h.accepted.tight.isLoop h.latch_mem

/-- No block of the loop makes stack slots. -/
theorem slotFree {b : BlockId} (hb : b ∈ c.natural.blocks) : c.func.SlotFree (c.func.code b) :=
  fun _ hi => Op.isSlot_eq_false.mp
    (h.accepted.tight.op_of_mem h.accepted.wellFormed hb (Func.mem_body_of_code hi)).2.1

theorem code_header : c.func.code c.natural.header = [c.loop.cond] := by
  obtain ⟨t, hbody⟩ := h.accepted.tight.header_body
  obtain ⟨t', ht'⟩ := h.accepted.wellFormed.ends _ h.header_live
  obtain ⟨⟨front, hfront⟩, hterm⟩ := Func.terminator?_eq_some.mp ht'
  obtain ⟨_, ht⟩ := List.append_inj'
    (show [c.loop.induction, c.loop.cond] ++ _ = _ from hbody.symm.trans hfront) rfl
  obtain rfl := List.singleton_inj.mp ht
  have hparts := Func.parts_of_body (show _ = [c.loop.induction] ++ ([c.loop.cond] ++ _) from hbody)
  refine (hparts ?_ ?_ hterm).2.1
  · intro i hi
    exact Func.isPhi_of_mem_phis (h.accepted.tight.counted.phis_eq ▸ hi)
  · intro i hi
    rw [List.mem_singleton.mp hi, h.accepted.tight.counted.cond_op]
    exact ⟨rfl, rfl⟩

theorem code_latch : c.func.code c.loop.latch = [c.loop.next] := by
  obtain ⟨t, hbody⟩ := h.accepted.tight.latch_body
  obtain ⟨t', ht'⟩ := h.accepted.wellFormed.ends _ h.latch_live
  obtain ⟨⟨front, hfront⟩, hterm⟩ := Func.terminator?_eq_some.mp ht'
  obtain ⟨_, ht⟩ := List.append_inj'
    (show [c.loop.next] ++ _ = _ from hbody.symm.trans hfront) rfl
  obtain rfl := List.singleton_inj.mp ht
  have hparts := Func.parts_of_body (show _ = [] ++ ([c.loop.next] ++ _) from hbody)
  refine (hparts nofun ?_ hterm).2.1
  intro i hi
  obtain ⟨a, b, hop, _⟩ := h.accepted.tight.op_next
  rw [List.mem_singleton.mp hi, hop]
  exact ⟨rfl, rfl⟩

/-- The bound and what is compared with it are not computed in the loop. -/
theorem spares_of_invariant {v : Operand} (hv : c.natural.Invariant c.func v) {j : InstId}
    (hj : v = .inst j) : c.natural.Spares c.func j := by
  subst hj
  obtain ⟨b, hown, hout, _⟩ := hv
  intro d hd hmem
  rw [h.accepted.wellFormed.owner_eq d (CountedLoop.live_of_mem h.accepted.tight.isLoop hd) j hmem]
    at hown
  cases hown
  exact hout hd

theorem value_of_spared {v : Operand} (hv : c.natural.Invariant c.func v) {ρ σ : Values}
    (hag : ∀ j, c.natural.Spares c.func j → ρ j = σ j) :
    c.func.value tt args ρ v = c.func.value tt args σ v := by
  cases v with
  | inst j => exact hag j (h.spares_of_invariant hv rfl)
  | _ => rfl

theorem induction_ne_spared {j : InstId} (hj : c.natural.Spares c.func j) :
    j ≠ c.loop.induction := fun heq =>
  hj _ h.accepted.tight.isLoop.header_mem (heq ▸ h.accepted.induction_mem)

/-! ## Visits -/

/-- The header compares the induction value with the bound. -/
theorem visit_header (hv : Visit tt c.func args q c.natural.header s δ s' next) :
    ∃ x y, phiValue tt c.func args q s.values c.loop.induction = some (.int x) ∧
      c.func.value tt args s.values c.loop.bound = some (.int y) ∧ δ = [] ∧
      s' = ⟨(s.values.set c.loop.induction (.int x)).set c.loop.cond
        (.bool (decide (x.toUInt64.toNat < y.toUInt64.toNat))), s.regions⟩ ∧
      next = .goto (if x.toUInt64.toNat < y.toUInt64.toNat then c.loop.bodyEntry else c.loop.exit) := by
  have hcounted := h.accepted.tight.counted
  obtain ⟨sc, hshape, hint, hwidth⟩ := h.scalar_iv
  obtain ⟨d, hd⟩ := Option.isSome_iff_exists.mp
    (hv.ready c.loop.induction (hcounted.phis_eq ▸ List.mem_singleton_self _))
  obtain ⟨t, ht, hl⟩ := hv.leaves
  obtain ⟨t', ht', hop⟩ := hcounted.exitBranch
  obtain rfl := Option.some.inj (ht.symm.trans ht')
  have hst := hv.straight
  rw [h.code_header, entered_of_single hcounted.phis_eq hd] at hst
  rw [hop] at hl
  have hbound : c.func.value tt args (s.values.set c.loop.induction d) c.loop.bound =
      c.func.value tt args s.values c.loop.bound :=
    h.value_of_spared hcounted.bound_inv fun j hj => Values.set_of_ne (h.induction_ne_spared hj)
  cases hst with
  | cons hc hrest =>
    cases hrest
    rw [hcounted.cond_op] at hc
    cases hc with
    | pure hp =>
      cases hl with
      | condBr htaken =>
        rename_i e taken
        obtain rfl : e = .bool taken := by
          simpa [Func.value, Values.set_self] using htaken
        simp only [pureResult, TypeTable.elementScalar_of_scalar hshape, hbound] at hp
        split at hp <;> try cases hp
        rename_i sc' a b hs ha hb
        cases hs
        obtain ⟨x, y, rfl, rfl, rfl⟩ := IntPredicate.ints_of_bool (toOption_eq_some.mp hp)
        obtain rfl : d = .int x := by
          simpa [CountedLoop.iv, Func.value, Values.set_self] using ha
        refine ⟨x, y, hd, hb, rfl, ?_, ?_⟩ <;>
          simp [IntPredicate.holds, Scalar.lowBits_of_width hint hwidth]

/-- The body does what stands in it, and leads to the latch. -/
theorem visit_body (hv : Visit tt c.func args q c.loop.bodyEntry s δ s' next) :
    next = .goto c.loop.latch ∧ (∀ j, j ∉ c.code → s'.values j = s.values j) ∧
      ∃ X, δ = c.code.flatMap X ∧ Tabled tt c.func args c.code s'.values s.regions X := by
  have hst := hv.straight
  rw [h.code_eq, entered_of_nil h.accepted.tight.phis_bodyEntry] at hst
  have hnodup : c.code.Nodup :=
    (h.accepted.listed_once _ h.accepted.live).sublist (List.dropLast_sublist _)
  refine ⟨?_, fun j hj => hst.values_of_not_mem hj, ?_⟩
  · cases next with
    | goto b => rw [h.accepted.tight.bodyEntry_successor b hv.mem_successors]
    | ret d =>
      exact absurd hv.successors_of_ret (CountedLoop.successors_ne_nil h.accepted.tight.isLoop
        h.accepted.tight.counted h.accepted.tight.counted.bodyEntry_mem)
  · -- What is used comes before, and nothing is listed twice.
    have hops : ∀ pre i post, c.code = pre ++ i :: post → ∀ j,
        Operand.inst j ∈ (c.func.op i).operands → j ∉ i :: post := by
      intro pre i post hsplit j hj hmem
      have hpre := h.mem_of_operand hsplit (hsplit ▸ List.mem_append_right _ hmem) hj
      rw [hsplit] at hnodup
      exact List.disjoint_of_nodup_append hnodup hpre hmem
    obtain ⟨X, hδ, -, htab⟩ := hst.tabled (fun i hi => Op.isSlot_eq_false.mp (h.plain hi).2.2.2)
      hnodup hops
    exact ⟨X, hδ, htab⟩

/-- The latch counts up. -/
theorem visit_latch (hx : s.values c.loop.induction = some (.int x))
    (hv : Visit tt c.func args q c.loop.latch s δ s' next) :
    s' = ⟨s.values.set c.loop.next (.int (x + 1)), s.regions⟩ ∧ next = .goto c.natural.header := by
  obtain ⟨sc, hshape, hint, hwidth⟩ := h.scalar_iv
  obtain ⟨sc', -, hel, hnext⟩ := h.accepted.tight.scalar_iv h.wellTyped
  cases (TypeTable.elementScalar_of_scalar hshape).symm.trans hel
  have hst := hv.straight
  rw [h.code_latch, entered_of_nil h.accepted.tight.phis_latch] at hst
  constructor
  · cases hst with
    | cons hc hrest =>
      cases hrest
      obtain ⟨a, b, hop, -⟩ := h.accepted.tight.op_next
      have hpure : (c.func.op c.loop.next).isPure = true := by
        rw [hop]
        rfl
      obtain ⟨z, hz, rfl⟩ := h.accepted.tight.next_result h.wellTyped hnext (hc.pureResult_eq hpure)
      cases hz.symm.trans hx
      rw [hop] at hc
      cases hc with
      | pure _ => rw [Scalar.normalize_of_width hint hwidth]
  · cases next with
    | goto b => rw [h.accepted.tight.latch_successor b hv.mem_successors]
    | ret d =>
      exact absurd hv.successors_of_ret (CountedLoop.successors_ne_nil h.accepted.tight.isLoop
        h.accepted.tight.counted h.latch_mem)

/-- A run that tests the induction value goes on after the test. -/
theorem test (ht : Testing tt c args base made q s x y)
    (hex : Executes tt c.func args q c.natural.header s d rs n) :
    ∃ n', n = c.func.cost c.natural.header + n' ∧
      Executes tt c.func args (some c.natural.header)
        (if x.toUInt64.toNat < y.toUInt64.toNat then c.loop.bodyEntry else c.loop.exit)
        ⟨(s.values.set c.loop.induction (.int x)).set c.loop.cond
          (.bool (decide (x.toUInt64.toNat < y.toUInt64.toNat))), s.regions⟩ d rs n' := by
  cases hex with
  | ret hv =>
    obtain ⟨_, _, _, _, _, _, hnext⟩ := h.visit_header hv
    cases hnext
  | goto hv hrest =>
    obtain ⟨x', y', hx, hy, -, rfl, hnext⟩ := h.visit_header hv
    cases hx.symm.trans ht.counts
    cases hy.symm.trans ht.bound
    cases hnext
    exact ⟨_, rfl, hrest⟩

/-! ## Turns -/

theorem induction_ne_cond : c.loop.induction ≠ c.loop.cond := by
  intro heq
  have hphi := Func.isPhi_of_mem_phis (CountedLoop.induction_mem h.accepted.tight.counted)
  rw [heq, h.accepted.tight.counted.cond_op] at hphi
  cases hphi

theorem induction_not_mem_code : c.loop.induction ∉ c.code := by
  intro hmem
  have hphi := Func.isPhi_of_mem_phis (CountedLoop.induction_mem h.accepted.tight.counted)
  rw [(h.plain hmem).1] at hphi
  cases hphi

/-- Below the bound, the loop takes a turn. -/
theorem turn (ht : Testing tt c args base made q s x y)
    (hlt : x.toUInt64.toNat < y.toUInt64.toNat)
    (hex : Executes tt c.func args q c.natural.header s d rs n) :
    ∃ ρ X s' n', Turn tt c args base made s.values s.regions x ρ X ∧ n' < n ∧
      Executes tt c.func args (some c.loop.latch) c.natural.header s' d rs n' ∧
      Testing tt c args base made (some c.loop.latch) s' (x + 1) y ∧
      s'.regions = writeChunks s.regions (c.code.flatMap X) ∧
      ∀ j, c.natural.Spares c.func j → s'.values j = s.values j := by
  have hf := h.accepted.wellFormed
  have hbody := h.accepted.tight.counted.bodyEntry_mem
  have hheader := h.accepted.tight.isLoop.header_mem
  obtain ⟨hhb, hhl⟩ : c.loop.bodyEntry ≠ c.natural.header ∧ c.loop.latch ≠ c.natural.header :=
    ⟨h.accepted.tight.bodyEntry_ne_header, h.accepted.tight.latch_ne_header⟩
  cases hex with
  | ret hv =>
    obtain ⟨_, _, _, _, _, _, hnext⟩ := h.visit_header hv
    cases hnext
  | @goto _ _ _ _ s₁ _ _ _ n₁ hv₁ hex₁ =>
  have htr₁ := ht.traced.visit_of_no_alloca hv₁ (h.slotFree hheader)
  have hty₁ := ht.typed.visit hf h.wellTyped h.data h.header_live hv₁
  have hsp₁ : ∀ j, c.natural.Spares c.func j → s₁.values j = s.values j :=
    fun j hj => hv₁.values_of_not_mem_body (hj _ hheader)
  obtain ⟨x', y', hx, hy, -, hs₁, hnext⟩ := h.visit_header hv₁
  cases hx.symm.trans ht.counts
  cases hy.symm.trans ht.bound
  rw [if_pos hlt] at hnext
  cases hnext
  have hrs₁ : s₁.regions = s.regions := by rw [hs₁]
  have hiv₁ : s₁.values c.loop.induction = some (.int x) := by
    rw [hs₁]
    exact (Values.set_of_ne h.induction_ne_cond).trans (Values.set_self _ _ _)
  cases hex₁ with
  | ret hv =>
    obtain ⟨hnext, _⟩ := h.visit_body hv
    cases hnext
  | @goto _ _ _ _ s₂ _ _ _ n₂ hv₂ hex₂ =>
  have htr₂ := htr₁.visit_of_no_alloca hv₂ (h.slotFree hbody)
  have hty₂ := hty₁.visit hf h.wellTyped h.data h.accepted.live hv₂
  have hrs₂ := hv₂.straight.regions_eq (h.slotFree hbody)
  obtain ⟨hnext, hval₂, X, rfl, htab⟩ := h.visit_body hv₂
  cases hnext
  have hsp₂ : ∀ j, c.natural.Spares c.func j → s₂.values j = s.values j :=
    fun j hj => (hval₂ j fun hm => hj _ hbody (List.dropLast_subset _ hm)).trans (hsp₁ j hj)
  have hiv₂ : s₂.values c.loop.induction = some (.int x) :=
    (hval₂ _ h.induction_not_mem_code).trans hiv₁
  cases hex₂ with
  | ret hv =>
    obtain ⟨_, hnext⟩ := h.visit_latch hiv₂ hv
    cases hnext
  | @goto _ _ _ _ s₃ _ _ _ n₃ hv₃ hex₃ =>
  have htr₃ := htr₂.visit_of_no_alloca hv₃ (h.slotFree h.latch_mem)
  have hty₃ := hty₂.visit hf h.wellTyped h.data h.latch_live hv₃
  have hsp₃ : ∀ j, c.natural.Spares c.func j → s₃.values j = s.values j :=
    fun j hj => (hv₃.values_of_not_mem_body (hj _ h.latch_mem)).trans (hsp₂ j hj)
  obtain ⟨hs₃, hnext⟩ := h.visit_latch hiv₂ hv₃
  cases hnext
  have hrs₃ : s₃.regions = writeChunks s.regions (c.code.flatMap X) := by
    rw [hs₃]
    exact hrs₂.trans (hrs₁ ▸ rfl)
  refine ⟨s₂.values, X, s₃, n₃, ⟨hrs₁ ▸ htab, hiv₂, hsp₂, hty₂, ?_⟩, ?_, hex₃,
    ⟨?_, ?_, hty₃, htr₃⟩, hrs₃, hsp₃⟩
  · refine htr₂.congr ?_
    rw [hrs₂, (sameExtents_writeChunks _ _).1, hrs₁]
  · unfold Func.cost
    omega
  · rw [phiValue, Option.bind_some, h.accepted.tight.counted.next_eq, Option.bind_some, hs₃]
    exact Values.set_self _ _ _
  · exact (h.value_of_spared h.accepted.tight.counted.bound_inv hsp₃).trans ht.bound

/-- As long as it is below the bound, the loop takes turns. -/
theorem turns {W : Nat} (ht : Testing tt c args base made q s x y)
    (hle : x.toUInt64.toNat + W ≤ y.toUInt64.toNat)
    (hex : Executes tt c.func args q c.natural.header s d rs n) :
    ∃ (V : Nat → Values) (X : ChunkTable) (q' : Option BlockId) (s' : Snapshot) (n' : Nat),
      (∀ t < W, Turn tt c args base made s.values
        (writeChunks s.regions (byLap t c.code X)) (x + .ofNat t) (V t) (X t)) ∧ n' + W ≤ n ∧
      Executes tt c.func args q' c.natural.header s' d rs n' ∧
      Testing tt c args base made q' s' (x + .ofNat W) y ∧
      s'.regions = writeChunks s.regions (byLap W c.code X) ∧
      ∀ j, c.natural.Spares c.func j → s'.values j = s.values j := by
  induction W with
  | zero =>
    refine ⟨fun _ => s.values, fun _ _ => [], q, s, n, nofun, Nat.le_refl _, hex, ?_, rfl, fun _ _ => rfl⟩
    rwa [show Int64.ofNat 0 = 0 from rfl, Int64.add_zero]
  | succ W ih =>
    obtain ⟨V, X, q₁, s₁, n₁, hturns, hn₁, hex₁, ht₁, hrs₁, hsp₁⟩ := ih (by omega)
    have hx := toNat_add_ofNat (x := x) (n := W)
      (Nat.lt_of_le_of_lt (by omega) y.toUInt64.toNat_lt)
    obtain ⟨ρ, Y, s₂, n₂, hturn, hn₂, hex₂, ht₂, hrs₂, hsp₂⟩ := h.turn ht₁ (by omega) hex₁
    -- The last turn goes to the end of the table.
    have hY : ∀ t < W, (fun t => if t = W then Y else X t) t = X t :=
      fun t ht => if_neg (Nat.ne_of_lt ht)
    refine ⟨fun t => if t = W then ρ else V t, fun t => if t = W then Y else X t, _, s₂, n₂,
      fun t ht => ?_, by omega, hex₂, ?_, ?_, fun j hj => (hsp₂ j hj).trans (hsp₁ j hj)⟩
    · rw [byLap_congr fun u hu => hY u (Nat.lt_of_lt_of_le hu (Nat.le_of_lt_succ ht))]
      rcases Nat.lt_succ_iff_lt_or_eq.mp ht with hlt | rfl
      · simp only [if_neg (Nat.ne_of_lt hlt)]
        exact hturns t hlt
      · simp only [if_true]
        rw [← hrs₁]
        exact ⟨hturn.tabled, hturn.counts, fun j hj => (hturn.spared j hj).trans (hsp₁ j hj),
          hturn.typed, hturn.traced⟩
    · rwa [Int64.add_assoc, show Int64.ofNat W + 1 = .ofNat (W + 1) from (Int64.ofNat_add W 1).symm]
        at ht₂
    · rw [byLap_succ, byLap_congr hY, writeChunks_append, ← hrs₁]
      simpa using hrs₂

end Laned

end Vectorize

end LoopNest
