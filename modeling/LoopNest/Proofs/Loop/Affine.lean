import LoopNest.Proofs.Func.Known
import LoopNest.Proofs.Loop.Searched

/-!
# Strides in a function that grows

It does not matter to the search for a stride that a pass adds instructions: a known value has the
stride that it had, if the same known values are invariant (`Func.Grown.stride?_eq`).
-/

namespace LoopNest

open Func

namespace NaturalLoop

variable {l : NaturalLoop} {f : Func} {dom : DomTree} {iv : Operand}

theorem strideWithin_of_control {n : Nat} {i : InstId}
    (h : ((f.op i).isPhi || (f.op i).isTerminator) = true) :
    l.strideWithin f dom iv (n + 1) (.inst i) =
      if .inst i = iv then some 1 else if l.isInvariant f dom (.inst i) then some 0 else none := by
  rw [strideWithin]
  cases hop : f.op i <;> first | rfl | (rw [hop] at h; cases h)

end NaturalLoop

namespace Func.Grown

variable {f g : Func} {known : Operand → Prop} {l : NaturalLoop} {dom dom' : DomTree} {iv : Operand}
  (h : f.Grown g) (hf : f.Closed known)
  (hinv : ∀ v, known v → l.isInvariant g dom' v = l.isInvariant f dom v)

include h hf hinv

theorem strideWithin_eq : ∀ (n : Nat) (v : Operand), known v →
    l.strideWithin g dom' iv n v = l.strideWithin f dom iv n v
  | 0, _, _ => rfl
  | _ + 1, .param k, _ => rfl
  | _ + 1, .const c, _ => rfl
  | n + 1, .inst i, hv => by
    rcases h.op_stays i (hf.lt hv) with heq | ⟨hc, hc'⟩
    · have hops := hf.operands i hv
      rw [NaturalLoop.strideWithin, NaturalLoop.strideWithin, hinv _ hv, heq]
      cases hop : f.op i with
      | binary o x y =>
        rw [hop] at hops
        have hx : known x := hops rfl rfl x (by simp [Op.operands])
        have hy : known y := hops rfl rfl y (by simp [Op.operands])
        cases o with
        | add => simp only [strideWithin_eq n x hx, strideWithin_eq n y hy]
        | sub => simp only [strideWithin_eq n x hx, strideWithin_eq n y hy]
        | mul =>
          simp only [strideWithin_eq n x hx, strideWithin_eq n y hy, NaturalLoop.productStride,
            h.intLiteral?_eq hf hx, h.intLiteral?_eq hf hy]
        | _ => rfl
      | _ => rfl
    · rw [NaturalLoop.strideWithin_of_control hc, NaturalLoop.strideWithin_of_control hc',
        hinv _ hv]

theorem stride?_eq {v : Operand} (hv : known v) :
    l.stride? g dom' v iv = l.stride? f dom v iv := by
  rw [NaturalLoop.stride?, h.strideWithin_eq hf hinv _ v hv,
    NaturalLoop.strideWithin_eq_stride? h.size_le]

end Func.Grown

end LoopNest
