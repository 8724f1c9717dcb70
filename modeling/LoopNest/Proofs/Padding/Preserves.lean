import LoopNest.Pass.Pipeline
import LoopNest.Proofs.Func.Insert
import LoopNest.Proofs.Padding.Mirrors
import Mathlib

/-!
# Padding is correct and done once

For a verified function that lists no instruction twice, `Padding.run_padSlots` says what the
pass does: the verifier accepts the function again, its stack slots consist of whole words or
are too large, a second pass changes nothing, and every run of the program that succeeds
succeeds again with the same result.  The regions are the same as well, except that those of
padded slots have zeros behind them.

The verifier accepts a block that lists a stack slot twice.  Padding replaces both, and the
result is refused (`Padding.behindPhi_twice`).
-/

namespace LoopNest

/-- Every handle of the function leads to a type of the table or to an instruction. -/
def Func.Resolves (f : Func) (tt : TypeTable) : Prop :=
  (∀ t ∈ f.tys, t < tt.size) ∧ ∀ k ∈ f.blocks.toList, ∀ i ∈ k.insts, i < f.insts.size

instance (f : Func) (tt : TypeTable) : Decidable (f.Resolves tt) :=
  inferInstanceAs (Decidable (_ ∧ _))

namespace Func

variable {f : Func} {tt : TypeTable} {b : BlockId} {i : InstId}

theorem Resolves.inst_lt (h : f.Resolves tt) (hi : i ∈ f.body b) : i < f.insts.size := by
  unfold body block at hi
  cases hb : f.blocks[b]? with
  | none => simp [hb, Block.fresh] at hi
  | some k =>
    rw [hb] at hi
    exact h.2 k (Array.mem_toList_iff.mpr (Array.mem_of_getElem? hb)) i hi

theorem Resolves.typesIn (h : f.Resolves tt) (used : BlockId → Prop) : f.TypesIn tt used := by
  obtain ⟨_, _, _, hinsts⟩ := forall_mem_tys.mp h.1
  exact ⟨fun b _ i hi => (hinsts i (h.inst_lt hi)).1, fun b _ i hi => (hinsts i (h.inst_lt hi)).2⟩

end Func

namespace Padding

variable {tt tt' : TypeTable} {f g : Func}

/-- A function mirrors itself. -/
theorem mirrors_self (f₀ : Func) (h : f.Resolves tt) :
    Mirrors tt tt' f₀ f f [] fun _ => True where
  params_eq := rfl
  constants_eq := rfl
  layout_eq := rfl
  size_eq := rfl
  entry_used _ _ := trivial
  next_used _ _ _ _ _ _ := trivial
  inst_lt _ _ _ hi := h.inst_lt hi
  types_in := h.typesIn _
  phis_eq _ _ := rfl
  afterPhis_eq b _ := (List.flatMap_singleton' _).symm
  tyOf_eq _ _ _ _ v _ := by rw [renameOperand_nil]; rfl
  old _ _ i _ _ := by
    rw [renameOperand_nil]
    exact ⟨(Func.mapOperands_eq_self fun _ _ => rfl).symm, rfl⟩
  slot _ _ _ hr := by cases hr

/-- A padded function mirrors the old one, also when types are interned afterwards. -/
theorem Widens.mirrors_extends {slots : List Slot} (h : Widens tt f tt' g slots)
    (ht : f.WellTyped tt) {tt'' : TypeTable} (he : tt'.Extends tt'') :
    Mirrors tt tt'' f f g slots (· ∈ f.layout) where
  params_eq := h.padded.outline.params_eq
  constants_eq := h.padded.outline.constants_eq
  layout_eq := h.layout_eq
  size_eq := h.padded.size_eq
  entry_used _ he := List.mem_of_head? he
  next_used b hb i hi c hc := by
    have hterm := h.wellFormed.terminator_eq b hb i hi (Op.isTerminator_of_mem_targets hc)
    exact h.wellFormed.successor_live b hb c ((Func.mem_successors_iff hterm).mpr hc)
  inst_lt _ hb _ hi := h.wellFormed.inst_lt hb hi
  types_in := by
    refine ⟨fun b hb i hi => ?_, fun b hb i hi t a hop => ?_⟩
    · obtain ⟨ty, _, hlook⟩ := ht b hb i hi
      exact TypeTable.lookup_lt hlook
    · exact slot_lt h.closed ht (List.mem_flatMap.mpr ⟨b, hb, hi⟩) hop
  phis_eq _ hb := h.phis_eq hb
  afterPhis_eq _ hb := h.afterPhis_eq hb
  tyOf_eq b hb i hi v hv := by
    obtain ⟨t, hv⟩ := Func.operandTy_of_exists (h.wellFormed.operand_exists b hb i hi v hv)
    simp only [Func.tyOf, hv, h.operandTy_rename hv]
  old b hb i hi hnone :=
    ⟨h.padded.op_eq b hb i hi hnone, h.padded.ty_eq i (h.wellFormed.inst_lt hb hi)⟩
  slot i a c hr := by
    obtain ⟨k, s, hk, rfl, rfl, rfl⟩ := replacement?_eq_some hr
    obtain ⟨_, _, t, al, hop, hsize, _, hpad⟩ := h.pads s (List.mem_of_getElem? hk)
    refine ⟨rfl, t, al, s.padded, granule, hop,
      ⟨t, by simp [unevenTy?, hop, hsize], hpad.bytes_lt⟩, ?_, ?_, ?_⟩
    · rw [Func.op, h.padded.wide_eq k s hk]
      rfl
    · rw [Func.op, h.padded.cast_eq k s hk]
      rfl
    · have hwide : tt''.paddedSize s.padded = paddedBytes tt t := by
        have hext := (he.extent_eq h.closed' hpad.padded_lt).trans hpad.extent_eq
        simp [TypeTable.paddedSize, hext, Extent.padded, alignTo]
      rw [hwide]
      exact (alignTo_granule _).2

theorem Widens.mirrors {slots : List Slot} (h : Widens tt f tt' g slots) (ht : f.WellTyped tt) :
    Mirrors tt tt' f f g slots (· ∈ f.layout) := h.mirrors_extends ht (.refl tt')

/-- The program with a function changed and a type table grown for it. -/
def withFunc (p : Program) (types : TypeTable) (id : FuncId) (g : Func) : Program :=
  { p with types }.setFunc id g

section

variable {p : Program} {id : FuncId} (hf : p.func? id = some f)

include hf

theorem func?_withFunc (types : TypeTable) (k : FuncId) :
    (withFunc p types id g).func? k = if k = id then some g else p.func? k := by
  have hlt : id < p.funcs.size := (Array.getElem?_eq_some_iff.mp hf).1
  simp only [withFunc, Program.setFunc, Program.func?]
  by_cases hk : k = id
  · subst hk
    rw [if_pos rfl, Array.getElem?_setIfInBounds_self_of_lt hlt]
  · rw [if_neg hk, Array.getElem?_setIfInBounds_ne (Ne.symm hk)]

/-- A function that keeps its name is found where it was. -/
theorem funcNamed?_withFunc (hname : g.name = f.name) (types : TypeTable) (name : String) :
    (withFunc p types id g).funcNamed? name = p.funcNamed? name := by
  have hmap : (withFunc p types id g).funcs.map Func.name = p.funcs.map Func.name := by
    refine Array.ext_getElem? fun k => ?_
    have hk := func?_withFunc (g := g) hf types k
    simp only [Program.func?] at hk hf
    rw [Array.getElem?_map, Array.getElem?_map, hk]
    split
    · rename_i heq
      rw [heq, hf, Option.map_some, Option.map_some, hname]
    · rfl
  have hfind : ∀ q : Program, (q.funcs.map Func.name).findIdx? (· == name) = q.funcNamed? name :=
    fun q => Array.findIdx?_map
  rw [← hfind, hmap, hfind]

/-- Padding a function of a program mirrors the program. -/
theorem Widens.programMirrors {types : TypeTable} {slots : List Slot}
    (h : Widens p.types f types g slots) (ht : f.WellTyped p.types)
    (hres : ∀ k h, p.func? k = some h → h.Resolves p.types) :
    ProgramMirrors p (withFunc p types id g) f ∧ ∀ k h, p.func? k = some h → ∃ h' slots used,
      (withFunc p types id g).func? k = some h' ∧ h'.isDeclaration = h.isDeclaration ∧
        Mirrors p.types types f h h' slots used := by
  have hall : ∀ k h, p.func? k = some h → ∃ h' slots used,
      (withFunc p types id g).func? k = some h' ∧ h'.isDeclaration = h.isDeclaration ∧
        Mirrors p.types types f h h' slots used := by
    intro k h' hk
    rw [func?_withFunc hf]
    split
    · rename_i heq
      subst heq
      rw [hf] at hk
      cases hk
      exact ⟨g, slots, _, rfl, by rw [Func.isDeclaration, h.layout_eq]; rfl, h.mirrors ht⟩
    · exact ⟨h', [], _, hk, rfl, mirrors_self f (hres k h' hk)⟩
  refine ⟨⟨h.types_extend, h.closed, fun name h' hcallee => ?_⟩, hall⟩
  unfold Machine.callee? at hcallee ⊢
  obtain ⟨hbind, hdecl⟩ := Option.filter_eq_some_iff.mp hcallee
  obtain ⟨k, hk, hfunc⟩ := Option.bind_eq_some_iff.mp hbind
  obtain ⟨h'', slots', used, hfunc', hdecl', hm⟩ := hall k h' hfunc
  refine ⟨h'', slots', used, ?_, hm⟩
  rw [funcNamed?_withFunc hf h.padded.outline.name_eq, hk]
  exact Option.filter_eq_some_iff.mpr ⟨hfunc', by rw [hdecl']; exact hdecl⟩

end

/-- The pass on a defined function whose slots have sizes that it can count. -/
theorem run_of_defined {p : Program} {id : FuncId} (hf : p.func? id = some f)
    (hd : f.isDeclaration = false) (hfit : f.padStuck p.types = false) :
    Pass.padSlots.run p id = ⟨.ok (f.padSlots p.types).changed,
      withFunc p (f.padSlots p.types).types id (f.padSlots p.types).func,
      (f.padSlots p.types).log⟩ := by
  simp [Pass.run, Pass.stuckOn, hf, hd, hfit, Pass.apply, withFunc]

/-- Putting a function where it is changes nothing. -/
theorem withFunc_self {p : Program} {id : FuncId} (hf : p.func? id = some f) :
    withFunc p p.types id f = p := by
  obtain ⟨hlt, rfl⟩ := Array.getElem?_eq_some_iff.mp hf
  simp [withFunc, Program.setFunc, Array.setIfInBounds, hlt]

/-- Padding the slots of a verified function that lists no instruction twice and whose slots have
sizes that 64 bits can count, in a program whose handles resolve.  The verifier accepts the function
again.  Its slots consist of whole words or are too large to be padded.  A second pass changes
nothing.  Every run that succeeds succeeds again, with the same result and the same number of
regions; each region is the same, or a padded slot of the function made it, and then zeros may
follow. -/
theorem run_padSlots {p : Program} {id : FuncId} {f : Func} (hf : p.func? id = some f)
    (hd : f.isDeclaration = false) (hv : f.verify p.types = .ok ()) (hnd : f.liveInsts.Nodup)
    (hfit : f.padStuck p.types = false) (hc : p.types.Closed)
    (hres : ∀ k h, p.func? k = some h → h.Resolves p.types) :
    ∃ changed p' g, (Pass.padSlots.run p id).result = .ok changed ∧
      (Pass.padSlots.run p id).program = p' ∧ p'.func? id = some g ∧
      g.verify p'.types = .ok () ∧
      (∀ i ∈ g.liveInsts, ∀ t a, g.op i = .alloca t a →
        p'.types.sizeInBits t % 64 = 0 ∨ 2 ^ 32 ≤ alignTo (p'.types.paddedSize t) granule) ∧
      (Pass.padSlots.run p' id).result = .ok false ∧ (Pass.padSlots.run p' id).program = p' ∧
      ∀ k h, p.func? k = some h → ∃ h', p'.func? k = some h' ∧
        ∀ args m limit d m₁ n₁, p.run h args m limit = ⟨.ok d, m₁, n₁⟩ →
        ∀ limit', 2 * limit ≤ limit' → ∃ s m₂ n₂,
          Machine.invoke p limit h args [] m 0 = .next s ∧
          p'.run h' args m limit' = ⟨.ok d, m₂, n₂⟩ ∧ m₂.regions.size = m₁.regions.size ∧
          ∀ r, m₂.regions[r]? = m₁.regions[r]? ∨ MadePadded p limit f s r ∧
            ∃ a k, m₁.regions[r]? = some a ∧ m₂.regions[r]? = some (a ++ Array.replicate k 0) := by
  obtain ⟨hwf, ht⟩ := (Func.verify_eq_ok_iff hd).mp hv
  obtain ⟨slots, hw⟩ := widens_padSlots hwf ht hc hnd
  obtain ⟨hp, hall⟩ := hw.programMirrors hf ht hres
  generalize hr : f.padSlots p.types = r at hw hp hall
  have hrun := run_of_defined hf hd hfit
  rw [hr] at hrun
  have hfunc : (withFunc p r.types id r.func).func? id = some r.func := by
    rw [func?_withFunc hf, if_pos rfl]
  have hdecl : r.func.isDeclaration = false := by
    rw [Func.isDeclaration, hw.layout_eq]
    exact hd
  have hfit' : r.func.padStuck (withFunc p r.types id r.func).types = false :=
    hw.padStuck_again ht hfit
  refine ⟨r.changed, withFunc p r.types id r.func, r.func, by rw [hrun], by rw [hrun], hfunc, ?_, ?_,
    ?_, ?_, ?_⟩
  · exact (Func.verify_eq_ok_iff hdecl).mpr ⟨hw.wellFormed', hw.wellTyped' ht (hres id f hf).1⟩
  · intro i hi t a hop
    exact hw.size_even ht hi hop
  · rw [run_of_defined hfunc hdecl hfit']
    exact congrArg Except.ok (hw.padSlots_again ht).1
  · rw [run_of_defined hfunc hdecl hfit']
    have hagain := hw.padSlots_again ht
    have hty : (withFunc p r.types id r.func).types = r.types := rfl
    rw [hty, hagain.2.1, hagain.2.2]
    exact withFunc_self hfunc
  · intro k h hk
    obtain ⟨h', slots', used, hk', -, hm⟩ := hall k h hk
    refine ⟨h', hk', fun args m limit d m₁ n₁ hok limit' hlim => ?_⟩
    obtain ⟨s, m₂, n₂, hinv, hok', hlong⟩ := hp.run hlim hm hok
    exact ⟨s, m₂, n₂, hinv, hok', hlong.size_eq, hlong.region_eq⟩

/-- A function with a stack slot behind a phi: a branch (0) leads to the phi (1), the slot (2), a
load of it (3), and a return (4).  The instructions of the second block are given. -/
def behindPhi (body : List InstId) : Func where
  name := "slot"
  params := #[⟨"x", 1, false⟩]
  ret := 1
  blocks := #[⟨"entry", [0], false⟩, ⟨"next", body, false⟩]
  insts := #[⟨.br 1, 0, none, some 0⟩, ⟨.phi [(.param 0, 0)], 1, none, some 1⟩,
    ⟨.alloca 1 4, 2, none, some 1⟩, ⟨.load (.inst 2), 1, none, some 1⟩,
    ⟨.ret (some (.inst 3)), 0, none, some 1⟩]
  constants := #[]
  layout := [0, 1]

/-- The program of `behindPhi`. -/
def behindPhiProgram (body : List InstId) : Program where
  types := ⟨#[⟨none, .void⟩, ⟨none, .scalar .f32⟩, ⟨none, .pointer 1⟩]⟩
  funcs := #[behindPhi body]

/-- The slot is padded to a whole word, and the load of it still gives zero. -/
theorem run_padSlots_behindPhi :
    (behindPhi [1, 2, 3, 4]).verify (behindPhiProgram []).types = .ok () ∧
    ∃ p' g, (Pass.padSlots.run (behindPhiProgram [1, 2, 3, 4]) 0).program = p' ∧
      p'.func? 0 = some g ∧ g.body 1 = [1, 5, 6, 3, 4] ∧ g.verify p'.types = .ok () ∧
      (Pass.padSlots.run p' 0).program = p' ∧
      ∃ m n, p'.run g [.f32 ⟨1⟩] .empty 10 = ⟨.ok (.f32 ⟨0⟩), m, n⟩ ∧ m.regions.size = 1 := by
  have hf : (behindPhiProgram [1, 2, 3, 4]).func? 0 = some (behindPhi [1, 2, 3, 4]) := rfl
  have hres : ∀ k h, (behindPhiProgram [1, 2, 3, 4]).func? k = some h →
      h.Resolves (behindPhiProgram [1, 2, 3, 4]).types := by
    intro k h hk
    have hmem : h ∈ [behindPhi [1, 2, 3, 4]] := Array.mem_toList_iff.mpr (Array.mem_of_getElem? hk)
    rw [List.mem_singleton.mp hmem]
    decide
  obtain ⟨_, p', g, -, hp', hg, hverify, -, -, hagain, hruns⟩ :=
    run_padSlots hf rfl (by cbv) (by decide) (by decide) (by decide) hres
  have hbody : g.body 1 = [1, 5, 6, 3, 4] := by
    have hg' : (Pass.padSlots.run (behindPhiProgram [1, 2, 3, 4]) 0).program.func? 0 = some g := by
      rw [hp', hg]
    have heq := (congrArg (Option.map fun h : Func => h.body 1) hg').symm
    exact Option.some.inj (heq.trans (by decide +kernel))
  obtain ⟨g', hg', hrun⟩ := hruns 0 _ hf
  obtain rfl : g = g' := Option.some.inj (hg.symm.trans hg')
  have hold : (behindPhiProgram [1, 2, 3, 4]).run (behindPhi [1, 2, 3, 4]) [.f32 ⟨1⟩] .empty 5 =
      ⟨.ok (.f32 ⟨0⟩), ⟨#[#[0, 0, 0, 0]], 1, 0⟩, 5⟩ := by cbv
  obtain ⟨_, m, n, -, hnew, hsize, -⟩ := hrun _ _ 5 _ _ _ hold 10 (by decide)
  exact ⟨by cbv, p', g, hp', hg, hbody, hverify, hagain, m, n, hnew, hsize⟩

/-- If the slot is listed twice, its second replacement comes before the phi, and the verifier
refuses what it accepted before. -/
theorem behindPhi_twice :
    (behindPhi [1, 2, 2, 3, 4]).verify (behindPhiProgram []).types = .ok () ∧
    ∃ r, (behindPhi [1, 2, 2, 3, 4]).padSlots (behindPhiProgram []).types = r ∧
      r.func.body 1 = [7, 8, 1, 5, 6, 3, 4] ∧
      r.func.verify r.types = .error ⟨"slot", .misplacedPhi "next"⟩ :=
  ⟨by cbv, _, rfl, by decide +kernel, by cbv⟩

end Padding

end LoopNest
