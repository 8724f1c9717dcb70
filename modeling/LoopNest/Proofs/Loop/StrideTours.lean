import LoopNest.Proofs.Loop.Tours

/-!
# Strides on a tour

An activation that is on a tour of a loop evaluates an index expression again and again, in any
block of the loop, and in loops inside of it.  Results are never cleared, so what counts are the
points where an expression is *computed* (`Frame.Computed`): its instruction comes before the point
on every path there.  Each moment after its execution is such a point, until control is back at the
header.

`NaturalLoop.OnTour` is what holds of the frame: what is invariant has the value that it had before
the tour, and what is computed has the datum that it is worth for the induction value of the
moment.  Each of the three things that a frame can go through keeps it: `OnTour.of_enters`,
`OnTour.records` and `OnTour.enters`.  It does not need that blocks list instructions once, or list
all that is used, since an instruction that is listed nowhere never gets a value.

`NaturalLoop.strides_on_tours` is the result for whole runs.
-/

namespace LoopNest

/-! ## Computed values -/

namespace Frame

/-- A value is computed before the point where the frame is, on every path to it. -/
def Computed (fr : Frame) : Operand → Prop
  | .inst i => ∃ done, fr.func.body fr.block = done ++ fr.rest ∧ fr.func.Available fr.block done i
  | _ => True

variable {tt : TypeTable} {f : Func} {args : List Datum} {fr fr' : Frame} {i j : InstId}
  {c : BlockId} {v : Operand} {d : Datum}

/-- What is executed is computed from then on. -/
theorem Within.computed_iff_of_record (h : fr.Within f args) {rest : List InstId}
    (hrest : fr.rest = i :: rest) :
    (fr.past.record i d).Computed (.inst j) ↔ fr.Computed (.inst j) ∨ j = i := by
  obtain ⟨done, hdone, _⟩ := h.afterPhis_eq
  have hbody : fr.func.body fr.block = f.phis fr.block ++ done ++ fr.rest := by
    rw [h.func_eq, ← f.phis_append_afterPhis, hdone, List.append_assoc]
  have hbody' : fr.func.body fr.block = f.phis fr.block ++ done ++ [i] ++ rest := by
    rw [hbody, hrest, List.append_assoc _ [i], List.singleton_append]
  simp only [Computed, func_record, func_past, block_record, block_past, rest_record,
    rest_past hrest]
  constructor
  · rintro ⟨done', heq, hav⟩
    obtain rfl := List.append_cancel_right (heq.symm.trans hbody')
    exact (Func.available_concat.mp hav).imp_left fun hav => ⟨_, hbody, hav⟩
  · rintro (⟨done', heq, hav⟩ | rfl)
    · obtain rfl := List.append_cancel_right (heq.symm.trans hbody)
      exact ⟨_, hbody', Func.available_concat.mpr (.inl hav)⟩
    · exact ⟨_, hbody', Func.available_concat.mpr (.inr rfl)⟩

variable (hf : f.WellFormed)
include hf

/-- What has a value stands in the block that it records. -/
theorem Within.mem_body_of_value (h : fr.Within f args) (ho : f.owner i = some c)
    (hd : fr.values i = some d) : i ∈ f.body c :=
  (h.mem_of_owner hf ho hd).2.elim Func.mem_body_of_phis Func.mem_body_of_code

/-- The values that the next instruction uses are computed. -/
theorem Within.computed_operand (h : fr.Within f args) {rest : List InstId}
    (hrest : fr.rest = i :: rest) (hv : v ∈ (f.op i).operands)
    (hd : f.value tt args fr.values v = some d) : fr.Computed v := by
  cases v with
  | inst k =>
    obtain ⟨done, hdone, _⟩ := h.afterPhis_eq
    have hi : i ∈ f.afterPhis fr.block := h.mem_afterPhis (hrest ▸ List.mem_cons_self)
    have hbody : f.body fr.block = f.phis fr.block ++ done ++ i :: rest := by
      rw [← f.phis_append_afterPhis, hdone, hrest, List.append_assoc]
    obtain ⟨b, hb, hdom, hsame⟩ := hf.use_dominated _ h.live h.reachable i
      (Func.mem_body_of_afterPhis hi) (hf.phi_first _ h.live i hi) k hv
    unfold Computed
    rw [h.func_eq]
    refine ⟨_, hrest ▸ hbody, ?_⟩
    by_cases hbb : b = fr.block
    · exact .inl (hsame hbb _ _ hbody)
    · exact .inr ⟨b, hbb, hdom hbb, h.mem_body_of_value hf hb hd⟩
  | _ => trivial

/-- What is computed when a block is entered was computed before, but for phis. -/
theorem Within.computed_of_enters (h : fr.Within f args) (he : fr.Enters tt c fr')
    (hphi : (f.op i).isPhi = false) (hcomp : fr'.Computed (.inst i)) (hd : fr.values i = some d) :
    fr.Computed (.inst i) := by
  obtain ⟨hw', ⟨_, _, hpending, _⟩, _, hedge, hblock, hrest, _⟩ := h.enters hf he
  obtain ⟨done', heq, hav⟩ := hcomp
  rw [hw'.func_eq, hblock, hrest] at heq
  rw [hw'.func_eq, hblock] at hav
  obtain rfl := List.append_cancel_right (heq.symm.trans (f.phis_append_afterPhis c).symm)
  rcases hav with hmem | ⟨b, hbc, hdom, hi⟩
  · cases hphi.symm.trans (Func.isPhi_of_mem_phis hmem)
  have hdom := hdom.of_edge hedge hbc
  have hlive : b ∈ f.layout := FlowGraph.blocks_ofFunc f ▸ (hdom.reachable h.reachable).live
  obtain ⟨done, hdone, hterm⟩ := h.afterPhis_eq
  unfold Computed
  rw [h.func_eq]
  refine ⟨f.phis fr.block ++ done, ?_, ?_⟩
  · rw [← f.phis_append_afterPhis, hdone, List.append_assoc]
  by_cases hbb : b = fr.block
  · subst hbb
    -- The block was executed up to its terminator, so all of its code is done.
    have hcode : f.code fr.block = done := by
      unfold pending at hpending
      rw [h.func_eq] at hpending
      rw [Func.code, hdone, List.takeWhile_append_of_pos fun j hj => by rw [hterm j hj]; rfl,
        hpending, List.append_nil]
    rcases (h.mem_of_owner hf (hf.owner_eq _ hlive i hi) hd).2 with hmem | hmem
    · exact .inl (List.mem_append_left _ hmem)
    · exact .inl (List.mem_append_right _ (hcode ▸ hmem))
  · exact .inr ⟨b, hbb, hdom, hi⟩

end Frame

namespace NaturalLoop

open CountedLoop Machine

/-! ## Frames on a tour -/

/-- A frame of an activation in a loop that it entered from the frame `fr₀`. -/
structure OnTour (tt : TypeTable) (f : Func) (args : List Datum) (l : NaturalLoop) (phi : InstId)
    (fr₀ fr : Frame) : Prop where
  within : fr.Within f args
  mem : fr.block ∈ l.blocks
  invariant : ∀ v, l.Invariant f v → f.value tt args fr.values v = f.value tt args fr₀.values v
  worth : ∃ x, fr.values phi = some x ∧ ∀ v c,
    l.Searched f (.ofGraph (.ofFunc f)) (.inst phi) v (some c) → fr.Computed v →
    ∀ d, f.value tt args fr.values v = some d →
      Worth tt f args l (.ofGraph (.ofFunc f)) (.inst phi) fr₀.values x v d

variable {tt : TypeTable} {f : Func} {args : List Datum} {l : NaturalLoop} {phi : InstId}
  {fr₀ fr fr' : Frame} {b : BlockId} {v : Operand} {x d : Datum}

/-- A stride is that of the induction value, of something invariant, or of an operation on
expressions with strides. -/
theorem Searched.some_cases {dom : DomTree} {iv : Operand} {c : Int64}
    (h : l.Searched f dom iv v (some c)) : v = iv ∨ (v ≠ iv ∧ l.isInvariant f dom v = true) ∨
      ∃ i o a b c₁ c₂, v = .inst i ∧ l.Follows f dom iv i o a b ∧
        l.Searched f dom iv a (some c₁) ∧ l.Searched f dom iv b (some c₂) := by
  generalize hr : some c = r at h
  cases h with
  | self => exact .inl rfl
  | invariant hv hinv => exact .inr (.inl ⟨hv, hinv⟩)
  | other _ _ _ _ => cases hr
  | left _ _ => cases hr
  | right _ _ _ => cases hr
  | both hf ha hb => exact .inr (.inr ⟨_, _, _, _, _, _, rfl, hf, ha, hb⟩)

section

variable (hf : f.WellFormed) (hl : IsLoop (.ofFunc f) l) (hphi : phi ∈ f.phis l.header)
include hf hl

/-- What is invariant keeps its value when a block of the loop is entered. -/
theorem value_of_enters (hw : fr.Within f args) (he : fr.Enters tt b fr') (hb : b ∈ l.blocks)
    (hv : l.Invariant f v) : f.value tt args fr'.values v = f.value tt args fr.values v :=
  hw.value_of_enters hf he (not_mem_phis_of_invariant hf hl hv hb)

/-- At the start of the header, only phis and what is invariant are computed. -/
theorem worth_of_header (hw : fr.Within f args) (hb : fr.block = l.header)
    (hrest : fr.rest = f.afterPhis l.header)
    (hinv : ∀ v, l.Invariant f v → f.value tt args fr.values v = f.value tt args fr₀.values v)
    (hx : fr.values phi = some x) {c : Int64}
    (hv : l.Searched f (.ofGraph (.ofFunc f)) (.inst phi) v (some c)) (hcomp : fr.Computed v)
    (hd : f.value tt args fr.values v = some d) :
    Worth tt f args l (.ofGraph (.ofFunc f)) (.inst phi) fr₀.values x v d := by
  rcases hv.some_cases with rfl | ⟨hne, hi⟩ | ⟨i, o, a, b, c₁, c₂, rfl, hfol, _, _⟩
  · obtain rfl := Option.some.inj (hx.symm.trans hd)
    exact .self
  · exact .invariant hne hi ((hinv v (isInvariant_iff.mp hi)).symm.trans hd)
  · obtain ⟨done, heq, hav⟩ := hcomp
    rw [hw.func_eq, hb, hrest] at heq
    rw [hw.func_eq, hb] at hav
    obtain rfl := List.append_cancel_right (heq.symm.trans (f.phis_append_afterPhis l.header).symm)
    rcases hav with hmem | ⟨e, heh, hdom, hi⟩
    · have hp := Func.isPhi_of_mem_phis hmem
      rw [hfol.op_eq] at hp
      cases hp
    · have hlive : e ∈ f.layout := FlowGraph.blocks_ofFunc f ▸ (hdom.reachable hl.reachable).live
      have hinv : l.Invariant f (.inst i) := ⟨e, hf.owner_eq e hlive i hi, fun hmem =>
        heh (hdom.antisymm (hl.dominates hmem) hl.reachable), hdom⟩
      cases hfol.varies.symm.trans (isInvariant_iff.mpr hinv)

include hphi

/-- Entering the loop. -/
theorem OnTour.of_enters (h₀ : fr₀.Within f args) (he : fr₀.Enters tt l.header fr) :
    OnTour tt f args l phi fr₀ fr := by
  obtain ⟨hw, _, hready, _, hblock, hrest, hvalues⟩ := h₀.enters hf he
  have hinv := fun v hv => value_of_enters (v := v) hf hl h₀ he hl.header_mem hv
  obtain ⟨x, hx⟩ := Option.isSome_iff_exists.mp (hready phi hphi)
  have hx : fr.values phi = some x := by rw [hvalues, entered, if_pos hphi, hx]
  exact ⟨hw, hblock ▸ hl.header_mem, hinv, x, hx, fun v c hv hcomp d hd =>
    worth_of_header hf hl hw hblock hrest hinv hx hv hcomp hd⟩

omit hl in
/-- Executing an instruction in the loop. -/
theorem OnTour.records (hty : f.WellTyped tt) (h : OnTour tt f args l phi fr₀ fr)
    (hr : fr.Records tt fr') : OnTour tt f args l phi fr₀ fr' := by
  have hw := h.within
  have hinv : ∀ v, l.Invariant f v →
      f.value tt args fr'.values v = f.value tt args fr₀.values v := fun v hv =>
    (hw.value_of_records hf hr fun j hj => .inl (owner_ne_of_invariant hv h.mem j hj)).2.trans
      (h.invariant v hv)
  obtain ⟨hblock, hx'⟩ := hw.value_of_records (v := .inst phi) hf hr (by
    rintro j ⟨⟩
    exact .inr (Func.isPhi_of_mem_phis hphi))
  obtain ⟨x, hx, hworth⟩ := h.worth
  have hx' : fr'.values phi = some x := hx'.trans hx
  refine ⟨hw.records hf hr, hblock ▸ h.mem, hinv, x, hx', fun v c hv hcomp d hd => ?_⟩
  obtain @⟨i, rest, e, hrest, ht, hpure⟩ := hr
  rw [hw.func_eq, hw.value_eq] at hpure
  have hmem := hw.mem_body (hrest ▸ List.mem_cons_self)
  rcases hv.some_cases with rfl | ⟨hne, hi⟩ | ⟨j, o, a, b, c₁, c₂, rfl, hfol, ha, hb⟩
  · obtain rfl := Option.some.inj (hx'.symm.trans hd)
    exact .self
  · exact .invariant hne hi ((hinv v (isInvariant_iff.mp hi)).symm.trans hd)
  rw [hw.values_past_record hf hrest] at hd
  by_cases hji : j = i
  · -- The operation was executed just now, on what its operands are worth.
    subst hji
    obtain ⟨htyab, htys⟩ := hty.binary hw.live hmem hfol.op_eq
    obtain rfl : e = d := Option.some.inj ((Values.set_self _ _ _).symm.trans hd)
    refine worth_of_pureResult hfol htyab htys (hpure (by rw [hfol.op_eq]; rfl))
      (fun da hda => hworth a c₁ ha (hw.computed_operand hf hrest ?_ hda) da hda)
      fun db hdb => hworth b c₂ hb (hw.computed_operand hf hrest ?_ hdb) db hdb
    · rw [hfol.op_eq]
      exact List.mem_cons_self
    · rw [hfol.op_eq]
      exact List.mem_cons_of_mem _ List.mem_cons_self
  · rw [Func.value_set_of_ne fun heq => hji (Operand.inst.inj heq)] at hd
    exact hworth _ c hv (((hw.computed_iff_of_record hrest).mp hcomp).resolve_right hji) d hd

/-- Going to a block of the loop. -/
theorem OnTour.enters (h : OnTour tt f args l phi fr₀ fr) (he : fr.Enters tt b fr')
    (hb : b ∈ l.blocks) : OnTour tt f args l phi fr₀ fr' := by
  have hw := h.within
  obtain ⟨hw', _, hready, _, hblock, hrest, hvalues⟩ := hw.enters hf he
  have hinv := fun v hv => (value_of_enters (v := v) hf hl hw he hb hv).trans (h.invariant v hv)
  refine ⟨hw', hblock ▸ hb, hinv, ?_⟩
  by_cases hbh : b = l.header
  · subst hbh
    obtain ⟨x, hx⟩ := Option.isSome_iff_exists.mp (hready phi hphi)
    have hx : fr'.values phi = some x := by rw [hvalues, entered, if_pos hphi, hx]
    exact ⟨x, hx, fun v c hv hcomp d hd =>
      worth_of_header hf hl hw' hblock hrest hinv hx hv hcomp hd⟩
  · obtain ⟨x, hx, hworth⟩ := h.worth
    have hnot : phi ∉ f.phis b := by
      intro hmem
      have hown := hf.owner_eq b (live_of_mem hl hb) _ (Func.mem_body_of_phis hmem)
      have hown' := hf.owner_eq _ (live_of_mem hl hl.header_mem) _ (Func.mem_body_of_phis hphi)
      exact hbh (Option.some.inj (hown.symm.trans hown'))
    have hx' : fr'.values phi = some x := by rw [hvalues, entered_of_not_mem hnot, hx]
    refine ⟨x, hx', fun v c hv hcomp d hd => ?_⟩
    rcases hv.some_cases with rfl | ⟨hne, hi⟩ | ⟨j, o, a, b', c₁, c₂, rfl, hfol, ha, hb'⟩
    · obtain rfl := Option.some.inj (hx'.symm.trans hd)
      exact .self
    · exact .invariant hne hi ((hinv v (isInvariant_iff.mp hi)).symm.trans hd)
    · have hnphi : (f.op j).isPhi = false := by rw [hfol.op_eq]; rfl
      have hd' : fr.values j = some d := by
        rw [← hd, Func.value, hvalues, entered_of_not_mem fun hmem =>
          by cases hnphi.symm.trans (Func.isPhi_of_mem_phis hmem)]
      exact hworth _ c hv (hw.computed_of_enters hf he hnphi hcomp hd') d hd'

end

/-! ## Tours -/

section

variable {p : Program} {limit : Nat} {cs : List Caller} {s t u : State} {c : Int64} {sc : Scalar}
  {tr : List (BlockId × BlockId)} (hf : f.WellFormed) (hl : IsLoop (.ofFunc f) l)
  (hphi : phi ∈ f.phis l.header) {m : Memory} {n : Nat} (hn : n ≤ limit)
  (hs : invoke p limit f args cs m n = .next s) (ht : Reaches p limit (Alive cs) s t)
include hf hl hphi hn hs ht

/-- The frame of an activation on a tour. -/
theorem onTour (hty : f.WellTyped p.types) (h : Tour p limit cs l t tr u) :
    Held cs (OnTour p.types f args l phi t.frame) u := by
  induction h with
  | @enter a b u hj ha hb =>
    have hw := (held_of_reaches hf hn hs ht
      (Nat.le_of_eq (congrArg List.length hj.before.symm))).frame hj.before
    obtain ⟨_, _, _, hedge, _⟩ := hw.enters hf hj.enters
    obtain rfl : b = l.header := by
      by_contra hne
      exact ha (hj.source ▸ hl.mem_of_edge hb hne hedge hw.reachable)
    exact .inl ⟨hj.after, .of_enters hf hl hphi hw hj.enters⟩
  | stay h ha hal hno ih =>
    refine ((ih.step ha hal).resolve_left (hno _ _)).mono ?_
    rintro fr (hon | ⟨fr', hon, hr⟩)
    · exact hon
    · exact hon.records hf hphi hty hr
  | jump h hj hb ih => exact .inl ⟨hj.after, (ih.frame hj.before).enters hf hl hphi hj.enters hb⟩

/-- What an expression with a stride is worth where it is computed. -/
theorem worth_on_tour (hty : f.WellTyped p.types) (h : Tour p limit cs l t tr u)
    (hcs : u.callers = cs) (hv : l.Searched f (.ofGraph (.ofFunc f)) (.inst phi) v (some c))
    (hcomp : u.frame.Computed v) (hd : u.frame.value p.types v = some d) :
    ∃ x, u.frame.value p.types (.inst phi) = some x ∧
      Worth p.types f args l (.ofGraph (.ofFunc f)) (.inst phi) t.frame.values x v d := by
  have hon := (onTour hf hl hphi hn hs ht hty h).frame hcs
  obtain ⟨x, hx, hworth⟩ := hon.worth
  rw [hon.within.value_eq] at hd
  exact ⟨x, by rw [hon.within.value_eq]; exact hx, hworth v c hv hcomp d hd⟩

/-- On a tour, an integer expression of stride `c` is worth `c` times the induction value plus a
constant. -/
theorem exists_offset (hty : f.WellTyped p.types)
    (hv : l.Searched f (.ofGraph (.ofFunc f)) (.inst phi) v (some c))
    (hsc : p.types.elementScalar? (f.tyOf v) = some sc) :
    ∃ o : Int64, ∀ tr u, Tour p limit cs l t tr u → u.callers = cs → u.frame.Computed v →
      ∀ y, u.frame.value p.types v = some (.int y) →
        ∃ x, (sc.lowBits c = 0 ∨ u.frame.value p.types (.inst phi) = some (.int x)) ∧
          sc.lowBits y = sc.lowBits (c * x + o) := by
  -- A number for each induction value, which is the induction value if that is a number.
  have number : ∀ x : Datum, ∃ n, ∀ m, x = .int m → m = n := by
    intro x
    cases x with
    | int n => exact ⟨n, fun m hm => (Datum.int.inj hm).symm⟩
    | _ => exact ⟨0, fun _ hm => by cases hm⟩
  have lowBits_eq : ∀ {a b : Int64}, sc.normalize a = sc.normalize b →
      sc.lowBits a = sc.lowBits b := by
    intro a b h
    rw [← Scalar.lowBits_normalize sc a, h, Scalar.lowBits_normalize]
  by_cases hsome : ∃ tr u y, Tour p limit cs l t tr u ∧ u.callers = cs ∧ u.frame.Computed v ∧
      u.frame.value p.types v = some (.int y)
  · -- The constant is what the expression and the induction value give at one moment.
    obtain ⟨tr₀, u₀, y₀, htour₀, hcs₀, hcomp₀, hy₀⟩ := hsome
    obtain ⟨x₀, _, hw₀⟩ := worth_on_tour hf hl hphi hn hs ht hty htour₀ hcs₀ hv hcomp₀ hy₀
    obtain ⟨n₀, hn₀⟩ := number x₀
    refine ⟨y₀ - c * n₀, fun tr u htour hcs hcomp y hy => ?_⟩
    obtain ⟨x, hx, hw⟩ := worth_on_tour hf hl hphi hn hs ht hty htour hcs hv hcomp hy
    obtain ⟨n, hn⟩ := number x
    have hshift : sc.normalize y = sc.normalize (y₀ + c * (n - n₀)) := by
      refine hw₀.shifted hv hw hsc fun m m' hm hm' s _ => ?_
      rw [hn₀ m hm, hn m' hm']
      exact congrArg _ (by grind)
    refine ⟨n, ?_, (lowBits_eq hshift).trans (congrArg _ (by grind))⟩
    by_cases hint : ∃ m, x = .int m
    · obtain ⟨m, rfl⟩ := hint
      exact .inr (hn m rfl ▸ hx)
    · -- The expression does not depend on an induction value that is not an integer.
      left
      have hself : sc.normalize y = sc.normalize (y + c * 1) :=
        hw.shifted hv hw hsc fun m _ hm => absurd ⟨m, hm⟩ hint
      have hzero := lowBits_eq (Scalar.normalize_sub_congr hself.symm (rfl : sc.normalize y = _))
      have hc : y + c * 1 - y = c := by grind
      have hy : y - y = 0 := by grind
      rw [hc, hy] at hzero
      rw [hzero]
      exact Nat.zero_mod _
  · exact ⟨0, fun tr u htour hcs hcomp y hy => absurd ⟨tr, u, y, htour, hcs, hcomp, hy⟩ hsome⟩

end

/-! ## Whole runs -/

/-- The loop of a function that has no other. -/
theorem isLoop_of_loops {g : Func} (h : (LoopForest.ofFunc g).loops = #[l]) :
    0 ∈ (LoopForest.ofFunc g).ids ∧ (LoopForest.ofFunc g).loop 0 = l ∧ IsLoop (.ofFunc g) l := by
  have hmem : 0 ∈ (LoopForest.ofFunc g).ids := by
    rw [LoopForest.ids, h]
    exact List.mem_singleton_self 0
  have hloop : (LoopForest.ofFunc g).loop 0 = l := by
    rw [LoopForest.loop, h]
    rfl
  exact ⟨hmem, hloop, hloop ▸ LoopForest.isLoop_loop (FlowGraph.coherent_ofFunc g) hmem⟩

/-- Strides are right up to the range of the type, in every activation of a function that the
verifier accepts.  From entering a loop until it is left, invariants keep their values, and an
integer expression of stride `c` is worth `c` times the induction value plus a constant, wherever it
is computed.  If the function lists what it uses, the search for a stride ends. -/
theorem strides_on_tours {p : Program} {limit : Nat} {cs : List Caller} {s : State}
    (hv : f.verify p.types = .ok ()) {i : LoopId} (hi : i ∈ (LoopForest.ofFunc f).ids)
    (hphi : phi ∈ f.phis ((LoopForest.ofFunc f).loop i).header) {m : Memory} {n : Nat}
    (hn : n ≤ limit) (hs : invoke p limit f args cs m n = .next s) :
    let l := (LoopForest.ofFunc f).loop i
    let dom := DomTree.ofGraph (.ofFunc f)
    (f.UsesListed → ∀ v, (∀ j, v = .inst j → ∃ b, (FlowGraph.ofFunc f).Reachable b ∧ j ∈ f.body b) →
      l.Searched f dom (.inst phi) v (l.stride? f dom v (.inst phi))) ∧
    ∀ t, Reaches p limit (Alive cs) s t →
      (∀ v, l.isInvariant f dom v = true → ∀ tr u, Tour p limit cs l t tr u → u.callers = cs →
        u.frame.value p.types v = t.frame.value p.types v) ∧
      ∀ v c sc, l.stride? f dom v (.inst phi) = some c →
        p.types.elementScalar? (f.tyOf v) = some sc →
        ∃ o : Int64, ∀ tr u, Tour p limit cs l t tr u → u.callers = cs → u.frame.Computed v →
          ∀ y, u.frame.value p.types v = some (.int y) →
            ∃ x, (sc.lowBits c = 0 ∨ u.frame.value p.types (.inst phi) = some (.int x)) ∧
              sc.lowBits y = sc.lowBits (c * x + o) := by
  intro l dom
  have hl := LoopForest.isLoop_loop (FlowGraph.coherent_ofFunc f) hi
  have hdecl := Func.isDeclaration_of_live (live_of_mem hl hl.header_mem)
  have hf := Func.wellFormed_of_verify hdecl hv
  have hty := Func.wellTyped_of_verify hdecl hv
  refine ⟨fun hlisted v hplace => hf.searched hlisted l dom _ hplace, fun t ht =>
    ⟨fun v hinv tr u htour hcs => ?_, fun v c sc hstride hsc =>
      exists_offset hf hl hphi hn hs ht hty (searched_of_stride? hstride) hsc⟩⟩
  have hon := (onTour hf hl hphi hn hs ht hty htour).frame hcs
  have hw := (held_of_reaches hf hn hs ht
    (Nat.le_of_eq (congrArg List.length htour.before.symm))).frame htour.before
  rw [hon.within.value_eq, hw.value_eq]
  exact hon.invariant v (isInvariant_iff.mp hinv)

/-- From 0 by hundreds, the sum in the latch has stride one.  Its offset is 100, also where the sum
of 200 and 100 wraps around to 44. -/
theorem strides_on_tours_countFunc : ∃ s tr u,
    invoke (countProgram 0 201 100) 1000 (countFunc 0 201 100) [] [] .empty 0 = .next s ∧
    Tour (countProgram 0 201 100) 1000 [] ⟨1, [2], [1, 2]⟩ s tr u ∧
    u.frame.value countTypes (.inst 1) = some (.int 200) ∧
    u.frame.value countTypes (.inst 4) = some (.int 44) ∧
    NaturalLoop.Searched ⟨1, [2], [1, 2]⟩ (countFunc 0 201 100)
      (.ofGraph (.ofFunc (countFunc 0 201 100))) (.inst 1) (.inst 4) (some 1) ∧
    ∃ o, (⟨.uint, 1⟩ : Scalar).lowBits o = 100 ∧ ∀ tr u,
      Tour (countProgram 0 201 100) 1000 [] ⟨1, [2], [1, 2]⟩ s tr u → u.callers = [] →
      u.frame.Computed (.inst 4) → ∀ y, u.frame.value countTypes (.inst 4) = some (.int y) →
        ∃ x, u.frame.value countTypes (.inst 1) = some (.int x) ∧
          (⟨.uint, 1⟩ : Scalar).lowBits y = (⟨.uint, 1⟩ : Scalar).lowBits (x + o) := by
  have hrun : (countRun 0 201 100 11).map (fun (_, _, u) => (u.callers.length,
      (u.frame.value countTypes (.inst 1)).bind fun d => d.asInt.toOption,
      (u.frame.value countTypes (.inst 4)).bind fun d => d.asInt.toOption,
      u.frame.func.body u.frame.block, u.frame.rest)) =
      some (0, some 200, some 44, [4, 5], [5]) := by decide +kernel
  obtain ⟨⟨s, tr, u⟩, hrun, hend⟩ := Option.map_eq_some_iff.mp hrun
  simp only [Prod.mk.injEq, List.length_eq_zero_iff, Option.bind_eq_some_iff] at hend
  obtain ⟨hcs, ⟨d, hd, hint⟩, ⟨d', hd', hint'⟩, hbody, hrest⟩ := hend
  obtain rfl := Datum.asInt_eq_ok.mp (toOption_eq_some.mp hint)
  obtain rfl := Datum.asInt_eq_ok.mp (toOption_eq_some.mp hint')
  obtain ⟨hs, htour⟩ := tour_of_countRun hrun
  obtain ⟨hmem, hloop, hl⟩ := isLoop_of_loops (loop_countFunc 0 201 100)
  have hstride : NaturalLoop.stride? ⟨1, [2], [1, 2]⟩ (countFunc 0 201 100)
      (.ofGraph (.ofFunc (countFunc 0 201 100))) (.inst 4) (.inst 1) = some 1 := by decide +kernel
  have hphi : 1 ∈ (countFunc 0 201 100).phis
      ((LoopForest.ofFunc (countFunc 0 201 100)).loop 0).header := by
    rw [hloop]
    decide
  obtain ⟨hsearch, htours⟩ := strides_on_tours (p := countProgram 0 201 100)
    (verify_countFunc 0 201 100) hmem hphi (Nat.zero_le 1000) hs
  rw [hloop] at hsearch htours
  have hsearch := hsearch (by decide) (.inst 4) (by
    rintro _ ⟨⟩
    exact ⟨2, hl.reachable_mem (by decide), by decide⟩)
  obtain ⟨o, ho⟩ := (htours s .refl).2 (.inst 4) 1 ⟨.uint, 1⟩ hstride rfl
  have hcount : ∀ tr u,
      Tour (countProgram 0 201 100) 1000 [] ⟨1, [2], [1, 2]⟩ s tr u → u.callers = [] →
      u.frame.Computed (.inst 4) → ∀ y, u.frame.value countTypes (.inst 4) = some (.int y) →
        ∃ x, u.frame.value countTypes (.inst 1) = some (.int x) ∧
          (⟨.uint, 1⟩ : Scalar).lowBits y = (⟨.uint, 1⟩ : Scalar).lowBits (x + o) := by
    intro tr u htour hcs hcomp y hy
    obtain ⟨x, hx, hxy⟩ := ho tr u htour hcs hcomp y hy
    rw [Int64.one_mul] at hxy
    exact ⟨x, hx.resolve_left (by decide), hxy⟩
  refine ⟨s, tr, u, hs, htour, hd, hd', hstride ▸ hsearch, o, ?_, hcount⟩
  obtain ⟨x, hx, hxy⟩ := hcount tr u htour hcs
    ⟨[4], by rw [hbody, hrest]; rfl, .inl List.mem_cons_self⟩ 44 hd'
  cases hd.symm.trans hx
  rw [Scalar.lowBits_add_mod] at hxy
  have hlt := Scalar.lowBits_lt ⟨.uint, 1⟩ o
  have h44 : (⟨.uint, 1⟩ : Scalar).lowBits 44 = 44 := by decide
  have h200 : (⟨.uint, 1⟩ : Scalar).lowBits 200 = 200 := by decide
  have hbits : 2 ^ min (⟨.uint, 1⟩ : Scalar).bits 64 = 256 := by decide
  rw [h44, h200, hbits] at hxy
  rw [hbits] at hlt
  omega

/-- Counts a byte, and adds to it in the latch what an instruction gives that no block lists, and
that uses an instruction that does not exist. -/
def strayFunc : Func where
  name := "stray"
  params := #[]
  ret := 0
  blocks := #[⟨"entry", [0], false⟩, ⟨"header", [1, 2, 3], false⟩, ⟨"latch", [8, 4, 5], false⟩,
    ⟨"exit", [6], false⟩]
  insts := #[⟨.br 1, 0, none, some 0⟩, ⟨.phi [(.const 0, 0), (.inst 4, 2)], 1, none, some 1⟩,
    ⟨.icmp .ult (.inst 1) (.const 1), 2, none, some 1⟩, ⟨.condBr (.inst 2) 2 3, 0, none, some 1⟩,
    ⟨.binary .add (.inst 1) (.const 2), 1, none, some 2⟩, ⟨.br 1, 0, none, some 2⟩,
    ⟨.ret none, 0, none, some 3⟩, ⟨.binary .add (.inst 99) (.const 2), 1, none, some 1⟩,
    ⟨.binary .add (.inst 7) (.const 2), 1, none, some 2⟩]
  constants := #[⟨1, .int 0⟩, ⟨1, .int 4⟩, ⟨1, .int 1⟩]
  layout := [0, 1, 2, 3]

/-- The verifier accepts a function in which the search for the stride of a byte does not end,
although a reachable block lists its instruction. -/
theorem not_searched_strayFunc : strayFunc.verify countTypes = .ok () ∧
    (LoopForest.ofFunc strayFunc).loops = #[⟨1, [2], [1, 2]⟩] ∧ 1 ∈ strayFunc.phis 1 ∧
    ((FlowGraph.ofFunc strayFunc).Reachable 2 ∧ 8 ∈ strayFunc.body 2) ∧
    countTypes.elementScalar? (strayFunc.tyOf (.inst 8)) = some ⟨.uint, 1⟩ ∧
    ∀ r, ¬ NaturalLoop.Searched ⟨1, [2], [1, 2]⟩ strayFunc (.ofGraph (.ofFunc strayFunc)) (.inst 1)
      (.inst 8) r := by
  have hloops : (LoopForest.ofFunc strayFunc).loops = #[⟨1, [2], [1, 2]⟩] := by cbv
  obtain ⟨_, _, hl⟩ := isLoop_of_loops hloops
  have hstuck : NaturalLoop.isStuck ⟨1, [2], [1, 2]⟩ strayFunc (.ofGraph (.ofFunc strayFunc))
      (.inst 8) (.inst 1) = true := by decide +kernel
  exact ⟨by cbv, hloops, by decide, ⟨hl.reachable_mem (by decide), by decide⟩, rfl,
    fun r h => by cases (isStuck_eq_false_iff.mpr ⟨r, h⟩).symm.trans hstuck⟩

end NaturalLoop

end LoopNest
