import LoopNest.Proofs.Func.Available
import LoopNest.Proofs.Loop.Counted

/-!
# Loops that a change leaves alone

A pass that rewrites one loop must not make a counted loop of another one.  `NaturalLoop.Kept`
compares a loop of the changed function with the loop that was there before, in everything that
`CountedLoop.recognize` looks at: the edges at its border, its latches, the exit test, the induction
phi and what is invariant.  A loop that is kept and counted was counted before
(`NaturalLoop.Kept.recognize`).

Only this direction is asked for.  A value may stop being invariant, since blocks that dominated the
header may dominate it no longer.  And nothing is asked of values that the loop does not use, since
a pass may add some.
-/

namespace LoopNest

open CountedLoop

/-- Whether a block is in a loop does not depend on the order of the blocks. -/
theorem NaturalLoop.contains_congr {l l' : NaturalLoop} (hb : ∀ b, b ∈ l'.blocks ↔ b ∈ l.blocks) :
    l'.contains = l.contains := by
  funext b
  rw [Bool.eq_iff_iff]
  simpa [NaturalLoop.contains] using hb b

/-- The loop of a changed function is the loop that was there before, as far as its shape goes.  It
uses known values only, and these did not change. -/
structure NaturalLoop.Kept (known : Operand → Prop) (f f' : Func) (l l' : NaturalLoop) : Prop where
  header_eq : l'.header = l.header
  mem_iff : ∀ b, b ∈ l'.blocks ↔ b ∈ l.blocks
  latches_eq : l'.latches = l.latches
  preheader_eq : l'.preheader? f' (.ofFunc f') = l.preheader? f (.ofFunc f)
  exiting_eq : l'.exitingBlocks f' = l.exitingBlocks f
  /-- The exits stay, and none of them becomes dedicated. -/
  exits : ∀ e ∈ l.exits f, e ∈ l'.exits f' ∧
    (l'.isDedicatedExit (.ofFunc f') e = true → l.isDedicatedExit (.ofFunc f) e = true)
  branch_eq : (f'.terminator? l.header).map f'.op = (f.terminator? l.header).map f.op
  phis_eq : f'.phis l.header = f.phis l.header
  incoming_eq : ∀ i ∈ f.phis l.header, ∀ q, f'.incoming? i q = f.incoming? i q
  /-- The computations that record a block of the loop stay. -/
  op_eq : ∀ b ∈ l.blocks, ∀ i, f'.owner i = some b → f.owner i = some b ∧
    ((f'.op i).isTerminator = false → (f'.op i).isPhi = false → f.op i = f'.op i)
  phi_uses : ∀ i ∈ f'.phis l'.header, ∀ v ∈ (f'.op i).operands, known v
  branch_uses : ∀ t, f'.terminator? l'.header = some t → ∀ v ∈ (f'.op t).operands, known v
  /-- A known value is computed from known values. -/
  uses : ∀ i, known (.inst i) → (f'.op i).isPhi = false → (f'.op i).isTerminator = false →
    ∀ v ∈ (f'.op i).operands, known v
  literal : ∀ v, known v → ∀ n, f'.intLiteral? v = some n → f.intLiteral? v = some n
  invariant : ∀ v, known v → l'.isInvariant f' (.ofGraph (.ofFunc f')) v = true →
    l.isInvariant f (.ofGraph (.ofFunc f)) v = true

namespace NaturalLoop.Kept

variable {known : Operand → Prop} {f f' : Func} {l l' : NaturalLoop} (h : Kept known f f' l l')

include h

theorem exitBranch_eq (exiting : BlockId) :
    CountedLoop.exitBranch f' l' exiting = CountedLoop.exitBranch f l exiting := by
  simp only [CountedLoop.exitBranch, h.header_eq, h.branch_eq,
    NaturalLoop.contains_congr h.mem_iff]

theorem boundTest {iv : Operand} {i : InstId} {bound : Operand} (hi : known (.inst i))
    (ht : boundTest f' (.ofGraph (.ofFunc f')) l' iv (.inst i) = .ok (i, bound))
    (hl : l.header ∈ l.blocks) :
    CountedLoop.boundTest f (.ofGraph (.ofFunc f)) l iv (.inst i) = .ok (i, bound) := by
  obtain ⟨_, hop, hinv, hown⟩ := boundTest_eq_ok ht
  rw [h.header_eq] at hown
  have hknown : known bound :=
    h.uses i hi (by rw [hop]; rfl) (by rw [hop]; rfl) bound (by simp [hop, Op.operands])
  obtain ⟨hown, hkeep⟩ := h.op_eq l.header hl i hown
  rw [hop] at hkeep
  simp [CountedLoop.boundTest, hkeep rfl rfl, h.invariant bound hknown hinv, hown]

theorem addedConstant? {iv : Operand} {i : InstId} {s : Int64} {b : BlockId}
    (hi : known (.inst i)) (hb : b ∈ l.blocks) (hown : f'.owner i = some b)
    (ha : addedConstant? f' iv i = some s) : CountedLoop.addedConstant? f iv i = some s := by
  obtain ⟨x, y, hop, hlit⟩ := op_of_addedConstant? ha
  have hkeep := (h.op_eq b hb i hown).2
  have huses := h.uses i hi
  rw [hop] at hkeep huses
  have hx := h.literal x (huses rfl rfl x (by simp [Op.operands]))
  have hy := h.literal y (huses rfl rfl y (by simp [Op.operands]))
  simp only [CountedLoop.addedConstant?, hop] at ha
  simp only [CountedLoop.addedConstant?, hkeep rfl rfl]
  split at ha
  · next heq => rw [if_pos heq]; exact hy s ha
  · next hne =>
    rw [if_neg hne]
    split at ha
    · next heq => rw [if_pos heq]; exact hx s ha
    · cases ha

theorem advance {latch : BlockId} {iv v : Operand} {i : InstId} {s : Int64} (hv : known v)
    (hl : latch ∈ l.blocks) (ha : advance f' latch iv v = .ok (i, s)) :
    CountedLoop.advance f latch iv v = .ok (i, s) := by
  obtain ⟨rfl, hadd, hpos, hown⟩ := advance_eq_ok ha
  simp [CountedLoop.advance, h.addedConstant? hv hl hown hadd, hpos, (h.op_eq latch hl i hown).1]

/-- A counted loop of the changed function was one before, and reads the same. -/
theorem recognize {c : CountedLoop} (hl : IsLoop (.ofFunc f) l)
    (hc : recognize f' (.ofFunc f') (.ofGraph (.ofFunc f')) l' = .ok c) :
    CountedLoop.recognize f (.ofFunc f) (.ofGraph (.ofFunc f)) l = .ok
      { c with body := l.blocks.filter fun b => b ≠ l.header ∧ b ≠ c.latch } := by
  obtain ⟨hpre, hlatch, ⟨exiting, hexiting, hded, hbr⟩, hphi, hstart, ⟨v, hnext, hadv⟩, htest,
    hinv, hheader, _⟩ := recognize_eq_ok.mp hc
  have hphis := inductionPhi_eq_ok hphi
  have hmem' : c.induction ∈ f'.phis l'.header := by simp [hphis]
  have hknown {q : BlockId} {w : Operand} (hq : incoming f' c.induction q = .ok w) : known w := by
    obtain ⟨_, hop, hin⟩ := Func.mem_of_incoming? (incoming_eq_ok.mp hq)
    exact h.phi_uses _ hmem' w (hop ▸ List.mem_map_of_mem hin)
  have hcond : known (.inst c.cond) := by
    obtain ⟨⟨t, ht, hop⟩, _⟩ := exitBranch_eq_ok hbr
    exact h.branch_uses t ht _ (hop ▸ List.mem_singleton.mpr rfl)
  have hstart' := hknown hstart
  have hnext' := hknown hnext
  rw [h.header_eq, h.phis_eq] at hphis
  have hmem : c.induction ∈ f.phis l.header := by simp [hphis]
  have hlmem : c.latch ∈ l.blocks := by
    apply hl.latch_mem
    simp [← h.latches_eq, hlatch]
  rw [incoming_eq_ok, h.incoming_eq _ hmem] at hstart hnext
  refine recognize_eq_ok.mpr ⟨h.preheader_eq ▸ hpre, h.latches_eq ▸ hlatch, ⟨exiting,
    h.exiting_eq ▸ hexiting, fun e he => ?_, h.exitBranch_eq exiting ▸ hbr⟩, ?_,
    incoming_eq_ok.mpr hstart, ⟨v, incoming_eq_ok.mpr hnext, h.advance hnext' hlmem hadv⟩,
    h.boundTest hcond htest hl.header_mem, h.invariant _ hstart' hinv,
    hheader.trans h.header_eq, rfl⟩
  · obtain ⟨he', hkeep⟩ := h.exits e he
    exact hkeep (hded e he')
  · simp [inductionPhi, hphis]

end NaturalLoop.Kept

end LoopNest
