import LoopNest.Proofs.Func.Grounded
import LoopNest.Proofs.Fusion.Unnested

/-!
# Decisions about nests end

The decision about a nest reads two loops as counted loops and follows the pointers of their
accesses to their roots.  In a function that the verifier accepts and that lists what it uses, loops
are anchored (`Func.WellFormed.anchored`), so nothing of this gets stuck.  A move keeps the function
accepted and its uses listed, so a whole run does not get stuck (`fuseStuck_eq_false`).
-/

namespace LoopNest

open FlowGraph

variable {tt : TypeTable} {f : Func}

namespace Fusion

/-- A decision checks the memory accesses last. -/
theorem plan_eq (g : FlowGraph) (dom : DomTree) (outer inner : NaturalLoop) :
    plan tt f g dom outer inner = (do
      let c ← checkNest tt f g dom outer inner
      checkMemory f outer inner
      return ⟨c.1, c.2, inner.blocks⟩) := by
  unfold plan checkNest
  cases CountedLoop.recognize f g dom outer with
  | error e => rfl
  | ok outerC =>
    cases CountedLoop.recognize f g dom inner with
    | error e => rfl
    | ok innerC => simp only [bind_assoc, pure_bind]

/-- The decision about two loops does not get stuck. -/
theorem planStuck_eq_false (hv : f.verify tt = .ok ()) (hu : f.UsesListed)
    {outer inner : NaturalLoop} (ho : IsLoop (ofFunc f) outer) (hi : IsLoop (ofFunc f) inner)
    (dom : DomTree) : planStuck tt f (ofFunc f) dom outer inner = false := by
  have hf := Func.wellFormed_of_verify
    (Func.isDeclaration_of_live (CountedLoop.live_of_mem ho ho.header_mem)) hv
  have ho' := hf.anchored hu ho
  have hi' := hf.anchored hu hi
  rw [planStuck, ho'.counted_isStuck_eq_false ho, Bool.false_or]
  split
  · rfl
  rename_i outerC hc
  rw [hi'.counted_isStuck_eq_false hi, Bool.false_or]
  split
  · rfl
  rw [ho'.tripsStuck_eq_false ho hc, Bool.false_or]
  split
  · rfl
  rw [hi'.anyLost_eq_false fun b hb => hb, Bool.false_or]
  exact ho'.anyLost_eq_false fun b hb => (List.mem_filter.mp hb).1

/-- No decision of a sweep gets stuck. -/
theorem sweepStuck_eq_false : ∀ (fuel : Nat) (tried : List BlockId) {f : Func},
    f.verify tt = .ok () → f.UsesListed → sweepStuck tt fuel tried f = false
  | 0, _, _, _, _ => rfl
  | fuel + 1, tried, f, hv, hu => by
    rw [sweepStuck]
    split
    · rfl
    · rename_i o i hc
      obtain ⟨hi, hpar⟩ := candidate?_eq_some hc
      obtain ⟨⟨ho, _, _⟩, _⟩ := (LoopForest.parent?_eq_some_iff (coherent_ofFunc f) hi).mp hpar
      have hlo := LoopForest.isLoop_loop (coherent_ofFunc f) ho
      have hli := LoopForest.isLoop_loop (coherent_ofFunc f) hi
      simp only
      rw [planStuck_eq_false hv hu hlo hli, Bool.false_or]
      split
      · rename_i p hp
        have h := nest_of_candidate hv hc hp
        have hty := Func.wellTyped_of_verify (Func.isDeclaration_of_live h.outerHeader_live) hv
        exact sweepStuck_eq_false fuel _ (h.verify_apply hu hty) (h.usesListed_apply hu)
      · exact sweepStuck_eq_false fuel _ hv hu

end Fusion

/-- The pass does not get stuck on accepted functions that list what they use. -/
theorem Func.fuseStuck_eq_false (hv : f.verify tt = .ok ()) (hu : f.UsesListed) :
    f.fuseStuck tt = false :=
  Fusion.sweepStuck_eq_false _ [] hv hu

end LoopNest
