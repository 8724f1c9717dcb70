import LoopNest.Proofs.Func.Available
import LoopNest.Proofs.Machine.Steps

/-!
# Results that are up to date

Results are never cleared: an instruction in a loop keeps the one of the last iteration until it
is executed again.  Still, a pure instruction that is available at the current point has the
result that its operands have *now*, since none of them was executed again after it
(`Frame.Coherent`).

Here it matters that a block lists no instruction twice.  With that, an available instruction is
not the next one (`WellFormed.ne_of_available`), so recording a result leaves the operands of
available instructions alone.
-/

namespace LoopNest

/-- The result depends on the operands alone. -/
def Op.isPure : Op → Bool
  | .gep _ _ | .binary _ _ _ | .icmp _ _ _ | .fcmp _ _ _ | .select _ _ _ | .bitcast _
  | .splat _ => true
  | _ => false

theorem Op.not_isPhi_of_isPure {op : Op} (h : op.isPure = true) : op.isPhi = false := by
  cases op <;> first | rfl | cases h

theorem Op.not_isTerminator_of_isPure {op : Op} (h : op.isPure = true) :
    op.isTerminator = false := by
  cases op <;> first | rfl | cases h

/-! ## Operands of available instructions -/

namespace Func

variable {f : Func} {b : BlockId} {done rest : List InstId} {i j k : InstId}

theorem WellFormed.owner_of_available (hf : f.WellFormed)
    (hr : (FlowGraph.ofFunc f).Reachable b) (hbody : f.body b = done ++ rest)
    (h : f.Available b done j) :
    ∃ d, f.owner j = some d ∧ j ∈ f.body d ∧ (FlowGraph.ofFunc f).Dominates d b ∧
      (d = b → j ∈ done) := by
  have hlive : ∀ {d}, (FlowGraph.ofFunc f).Dominates d b → d ∈ f.layout := fun hdom => by
    have := (hdom.reachable hr).live
    rwa [FlowGraph.blocks_ofFunc] at this
  rcases h with h | ⟨d, hdb, hdom, hj⟩
  · have hj : j ∈ f.body b := by
      rw [hbody]
      exact List.mem_append_left _ h
    exact ⟨b, hf.owner_eq b (hlive .refl) j hj, hj, .refl, fun _ => h⟩
  · exact ⟨d, hf.owner_eq d (hlive hdom) j hj, hj, hdom, fun heq => absurd heq hdb⟩

/-- The operands of an available instruction are available. -/
theorem WellFormed.available_of_available (hf : f.WellFormed) (hl : f.UsesListed)
    (hr : (FlowGraph.ofFunc f).Reachable b) (hbody : f.body b = done ++ rest)
    (h : f.Available b done j) (hphi : (f.op j).isPhi = false)
    (hk : Operand.inst k ∈ (f.op j).operands) : f.Available b done k := by
  obtain ⟨d, _, hj, hdom, hsame⟩ := hf.owner_of_available hr hbody h
  have hrd := hdom.reachable hr
  have hd : d ∈ f.layout := by
    have := hrd.live
    rwa [FlowGraph.blocks_ofFunc] at this
  obtain ⟨c, hc, hcd, hbefore⟩ := hf.use_dominated d hd hrd j hj hphi k hk
  have hkc := hl k (mem_usedInsts hd hj hk) c hc
  by_cases hcd' : c = d
  · subst hcd'
    by_cases hcb : c = b
    · -- Both stand in the current block, the operand first.
      obtain ⟨pre, post, hdone⟩ := List.append_of_mem (hsame hcb)
      have hmem := hbefore rfl pre (post ++ rest) (by rw [hcb, hbody, hdone]; simp)
      rw [hdone]
      exact .inl (List.mem_append_left _ hmem)
    · exact .inr ⟨c, hcb, hdom, hkc⟩
  · refine .inr ⟨c, ?_, (hcd hcd').trans hdom, hkc⟩
    rintro rfl
    exact hcd' ((hcd hcd').antisymm hdom hrd)

/-- An available instruction is not the next one. -/
theorem WellFormed.ne_of_available (hf : f.WellFormed) (ho : f.ListedOnce)
    (h : f.Point b done (i :: rest)) (hj : f.Available b done j) : j ≠ i := by
  rintro rfl
  obtain ⟨d, hd, _, _, hsame⟩ := hf.owner_of_available h.reachable h.body_eq hj
  have hdb : d = b := Option.some.inj (hd.symm.trans (hf.owner_eq b h.live j h.mem_body))
  have hnd := ho b h.live
  rw [h.body_eq] at hnd
  exact (List.nodup_append.mp hnd).2.2 j (hsame hdb) j List.mem_cons_self rfl

/-- What is available at the start of a block stands in another one. -/
theorem WellFormed.not_mem_of_available (hf : f.WellFormed)
    (hr : (FlowGraph.ofFunc f).Reachable b) (h : f.Available b [] j) : j ∉ f.body b := by
  intro hj
  have hb : b ∈ f.layout := by
    have := hr.live
    rwa [FlowGraph.blocks_ofFunc] at this
  obtain ⟨d, hd, _, _, hsame⟩ := hf.owner_of_available hr (List.nil_append _).symm h
  have hdb : d = b := Option.some.inj (hd.symm.trans (hf.owner_eq b hb j hj))
  exact absurd (hsame hdb) List.not_mem_nil

end Func

/-! ## Coherent frames -/

theorem Func.value_set_of_ne {f : Func} {tt : TypeTable} {args : List Datum} {ρ : Values}
    {i : InstId} {d : Datum} {v : Operand} (h : v ≠ .inst i) :
    f.value tt args (ρ.set i d) v = f.value tt args ρ v := by
  cases v with
  | inst j => exact Values.set_of_ne fun hj => h (hj ▸ rfl)
  | _ => rfl

/-- The frame is at a point of its block, and the results of the pure instructions that are
available there are those of their operands. -/
structure Frame.Coherent (tt : TypeTable) (fr : Frame) (done : List InstId) : Prop where
  wellFormed : fr.func.WellFormed
  listed_once : fr.func.ListedOnce
  uses_listed : fr.func.UsesListed
  size_eq : fr.results.size = fr.func.insts.size
  point : fr.func.Point fr.block done fr.rest
  current : ∀ j, fr.func.Available fr.block done j → (fr.func.op j).isPure = true →
    ∀ d, fr.values j = some d →
      pureResult tt (fr.value tt) fr.func.tyOf (fr.func.inst j).ty (fr.func.op j) = some d

namespace Frame

variable {tt : TypeTable} {fr fr' : Frame} {done rest : List InstId} {i : InstId}

/-- The next instruction is in the function. -/
theorem Coherent.next_lt (h : fr.Coherent tt done) (hrest : fr.rest = i :: rest) :
    i < fr.func.insts.size := by
  have hpoint := h.point
  rw [hrest] at hpoint
  exact h.wellFormed.inst_lt hpoint.live hpoint.mem_body

/-- Executing an instruction that does not end the block. -/
theorem Coherent.record (h : fr.Coherent tt done) (hrest : fr.rest = i :: rest) {d : Datum}
    (hd : (fr.func.op i).isPure = true →
      pureResult tt (fr.value tt) fr.func.tyOf (fr.func.inst i).ty (fr.func.op i) = some d) :
    (fr.past.record i d).Coherent tt (done ++ [i]) := by
  have hlt : i < fr.past.results.size := lt_of_lt_of_eq (h.next_lt hrest) h.size_eq.symm
  have hpoint := h.point
  rw [hrest] at hpoint
  refine ⟨h.wellFormed, h.listed_once, h.uses_listed, ?_, ?_, fun j hj hpure e he => ?_⟩
  · exact (size_record _ i d).trans h.size_eq
  · rw [rest_record, rest_past hrest]
    exact hpoint.next
  change fr.func.Available fr.block (done ++ [i]) j at hj
  change (fr.func.op j).isPure = true at hpure
  rw [values_record hlt, values_past] at he
  -- No operand of the instruction is the one that was executed.
  have hops : ∀ v ∈ (fr.func.op j).operands, v ≠ .inst i → (fr.past.record i d).value tt v =
      fr.value tt v := by
    intro v _ hv
    unfold Frame.value
    rw [values_record hlt]
    exact Func.value_set_of_ne hv
  have hsame : (∀ k, Operand.inst k ∈ (fr.func.op j).operands → fr.func.Available fr.block done k) →
      pureResult tt ((fr.past.record i d).value tt) fr.func.tyOf (fr.func.inst j).ty (fr.func.op j) =
        pureResult tt (fr.value tt) fr.func.tyOf (fr.func.inst j).ty (fr.func.op j) := by
    intro hav
    refine pureResult_congr fun v hv => hops v hv ?_
    rintro rfl
    exact h.wellFormed.ne_of_available h.listed_once hpoint (hav i hv) rfl
  change pureResult tt _ fr.func.tyOf (fr.func.inst j).ty (fr.func.op j) = some e
  rcases Func.available_concat.mp hj with hj | rfl
  · rw [hsame fun k hk => h.wellFormed.available_of_available h.uses_listed hpoint.reachable
      hpoint.body_eq hj (Op.not_isPhi_of_isPure hpure) hk]
    rw [Values.set_of_ne (h.wellFormed.ne_of_available h.listed_once hpoint hj)] at he
    exact h.current j hj hpure e he
  · rw [hsame fun k hk => h.wellFormed.available_operand h.uses_listed hpoint hk]
    rw [Values.set_self] at he
    rw [hd hpure, he]

/-- A frame that has just entered a block. -/
theorem coherent_of_enter (fr : Frame) (hf : fr.func.WellFormed) (ho : fr.func.ListedOnce)
    (hl : fr.func.UsesListed) (hsize : fr.results.size = fr.func.insts.size) {c : BlockId}
    (hr : (FlowGraph.ofFunc fr.func).Reachable c)
    (hcur : ∀ j, fr.func.Available c [] j → (fr.func.op j).isPure = true → ∀ d,
      fr.values j = some d →
      pureResult tt (fr.value tt) fr.func.tyOf (fr.func.inst j).ty (fr.func.op j) = some d)
    {source : Option BlockId} {limit steps n : Nat} (hle : steps ≤ limit)
    (he : fr.enter tt limit source c steps = (.ok fr', n)) :
    ∃ done, fr'.Coherent tt done := by
  have hpoint := hf.point_afterPhis hr
  have hphis : ∀ j ∈ fr.func.phis c, j < fr.func.insts.size := fun j hj =>
    hf.inst_lt hpoint.live (Func.mem_body_of_phis hj)
  obtain ⟨_, _, _, hat⟩ := (at_self fr hsize).of_enter hphis hle he
  have hvalue : fr'.value tt = fr.func.value tt fr.args
      (entered tt fr.func fr.args source c fr.values) := by
    unfold Frame.value
    rw [hat.func_eq, hat.args_eq, hat.values_eq]
  refine ⟨fr.func.phis c, ?_, ?_, ?_, ?_, ?_, ?_⟩
  · rwa [hat.func_eq]
  · rwa [hat.func_eq]
  · rwa [hat.func_eq]
  · rw [hat.size_eq, hat.func_eq]
  · rw [hat.func_eq, hat.block_eq, hat.rest_eq]
    exact hpoint
  · rw [hat.func_eq, hat.block_eq, hat.values_eq, hvalue]
    intro j hj hpure d hd
    -- A phi is not pure, so the instruction stands in another block, and so do its operands.
    have hav : fr.func.Available c [] j := by
      refine hj.imp_left fun hphi => ?_
      have := Func.isPhi_of_mem_phis hphi
      rw [Op.not_isPhi_of_isPure hpure] at this
      cases this
    have hout : ∀ {k}, fr.func.Available c [] k → k ∉ fr.func.phis c := fun hk hphi =>
      hf.not_mem_of_available hr hk (Func.mem_body_of_phis hphi)
    rw [entered_of_not_mem (hout hav)] at hd
    rw [← hcur j hav hpure d hd]
    refine pureResult_congr fun v hv => ?_
    cases v with
    | inst k =>
      refine entered_of_not_mem (hout ?_)
      exact hf.available_of_available hl hr (List.nil_append _).symm hav
        (Op.not_isPhi_of_isPure hpure) hv
    | _ => rfl

/-- Going along an edge. -/
theorem Coherent.jump (h : fr.Coherent tt done) (hrest : fr.rest = i :: rest) {c : BlockId}
    (hc : c ∈ (fr.func.op i).targets) {limit steps n : Nat} (hle : steps ≤ limit)
    (he : fr.past.enter tt limit (some fr.block) c steps = (.ok fr', n)) :
    ∃ done, fr'.Coherent tt done := by
  have hpoint := h.point
  rw [hrest] at hpoint
  have hedge := h.wellFormed.edge_of_point hpoint hc
  have hterm := Op.isTerminator_of_mem_targets hc
  refine coherent_of_enter fr.past h.wellFormed h.listed_once h.uses_listed h.size_eq
    (hpoint.reachable.edge hedge) (fun j hj hpure => ?_) hle he
  refine h.current j ?_ hpure
  have hend := hj.of_edge hedge
  change fr.func.Available fr.block (fr.func.body fr.block) j at hend
  rw [hpoint.body_eq, (h.listed_once.terminatorsLast h.wellFormed).rest_eq_nil hpoint hterm] at hend
  rcases Func.available_concat.mp hend with hend | rfl
  · exact hend
  · have := Op.not_isTerminator_of_isPure hpure
    rw [func_past, hterm] at this
    cases this

/-- Starting an activation. -/
theorem coherent_of_activate {f : Func} (hf : f.WellFormed) (ho : f.ListedOnce) (hl : f.UsesListed)
    {args : List Datum} {e : BlockId} (hent : f.entry? = some e) {limit steps n : Nat}
    (hle : steps ≤ limit) (he : (activate f args).enter tt limit none e steps = (.ok fr', n)) :
    ∃ done, fr'.Coherent tt done :=
  coherent_of_enter (activate f args) hf ho hl (at_activate f args).size_eq
    (Func.reachable_entry hent) (fun _ hj => absurd hj (Func.not_available_entry hent)) hle he

end Frame

end LoopNest
