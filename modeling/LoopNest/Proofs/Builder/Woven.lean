import LoopNest.Proofs.Builder.Yields
import LoopNest.Proofs.Func.Linked
import LoopNest.Proofs.Pass.Interwoven

/-!
# Nests built by calls

When each call of `Build.loop` is the only one in the body of the one before it, the loops are nested
in one another, and the body of the innermost one is a single block.  `Func.Woven` says of that block,
in terms of the calls, what an interwoven nest needs: it uses all induction values, and it stores to a
place that does not move with the innermost loop.  A function of such code is interwoven
(`Build.Whole.interwoven`).
-/

namespace LoopNest

open LoopCall FlowGraph Func

/-! ## One inside the other -/

/-- The calls stand in one another: some around, from the outside in, and a last one inside. -/
inductive Calls.Nest : Calls → List LoopCall → LoopCall → Prop
  | last (d : LoopCall) : Nest (.call d .none .none) [] d
  | cons {inner : Calls} {outer : List LoopCall} {d : LoopCall} (c : LoopCall)
      (h : inner.Nest outer d) : Nest (.call c inner .none) (c :: outer) d

variable {f : Func} {calls : Calls} {outer : List LoopCall} {c d : LoopCall} {here there : Nat}

namespace Calls.Nest

theorem all_eq (h : calls.Nest outer d) : calls.all = outer ++ [d] := by
  induction h with
  | last d => rfl
  | cons c _ ih => simp [all, ih]

theorem mem_all (h : calls.Nest outer d) : c ∈ calls.all ↔ c ∈ outer ∨ c = d := by
  rw [h.all_eq, List.mem_append, List.mem_singleton]

theorem inside (h : calls.Nest outer d) (hl : Laid f here calls there) :
    ∀ c ∈ outer, d.Inside c := by
  induction h generalizing here there with
  | last d => exact fun c hc => absurd hc List.not_mem_nil
  | cons c h ih =>
    cases hl with
    | call hc hinner hlater =>
      intro e he
      rcases List.mem_cons.mp he with rfl | he
      · obtain ⟨-, hlow, hhigh⟩ := hinner.frame _ (h.mem_all.mpr (.inr rfl))
        have := hc.le_last
        exact ⟨hlow, by omega⟩
      · exact ih hinner e he

end Calls.Nest

/-! ## The innermost block -/

namespace Func

/-- A parameter, a constant, or the result of an instruction of the block that is no phi. -/
def Computes (f : Func) (b : BlockId) (v : Operand) : Prop :=
  ∀ i, v = .inst i → i ∈ f.body b ∧ (f.op i).isPhi = false

theorem Holds.computes {b : BlockId} {i : InstId} {op : Op} (h : f.Holds b i op)
    (hphi : op.isPhi = false := by rfl) : f.Computes b (.inst i) := by
  rintro _ ⟨⟩
  exact ⟨h.1, h.2 ▸ hphi⟩

/-- An instruction of the block has the operand. -/
def Uses (f : Func) (b : BlockId) (v : Operand) : Prop := ∃ i ∈ f.body b, v ∈ (f.op i).operands

theorem Holds.uses {b : BlockId} {i : InstId} {op : Op} {v : Operand} (h : f.Holds b i op)
    (hv : v ∈ op.operands) : f.Uses b v :=
  ⟨i, h.1, h.2 ▸ hv⟩

/-- What is computed before the innermost loop starts, in the entry block or right behind a header
around it. -/
def Early (f : Func) (outer : List LoopCall) (v : Operand) : Prop :=
  f.Computes (0 : Nat) v ∨ ∃ c ∈ outer, f.Computes c.built.body v

/-- The innermost block of a nest uses all induction values, and stores to a place that was known
before or that it finds from what was known before. -/
structure Woven (f : Func) (outer : List LoopCall) (d : LoopCall) : Prop where
  uses : ∀ c ∈ outer ++ [d], f.Uses d.built.body c.built.induction
  stores : ∃ i v p, f.Holds d.built.body i (.store v p) ∧
    (f.Early outer p ∨ ∃ j base index, p = .inst j ∧ f.Holds d.built.body j (.gep base index) ∧
      f.Early outer base ∧ f.Early outer index)

end Func

namespace Laid

variable (h : Laid f 0 calls there) (hlayout : f.layout = List.range (there + 1))
  (hend : f.successors there = []) {l : NaturalLoop}
include h hlayout hend

/-- Every loop is that of a call. -/
theorem exists_call_of_isLoop (hl : IsLoop (.ofFunc f) l) :
    ∃ c ∈ calls.all, l.header = (c.before + 1 : Nat) := by
  obtain ⟨p, hp⟩ := List.exists_mem_of_ne_nil _ hl.latches_ne
  obtain ⟨he, -, hd⟩ := (hl.mem_latches p).mp hp
  obtain ⟨c, hc, -, heq⟩ := h.backEdge hlayout hend he hd
  exact ⟨c, hc, heq⟩

end Laid

namespace Build.Whole

/-- What is known early is fixed in the innermost block. -/
theorem fixed_of_early (hl : Laid f 0 calls there) (hlayout : f.layout = List.range (there + 1))
    (hn : calls.Nest outer d) {v : Operand} (hv : f.Early outer v) : f.Fixed d.built.body v := by
  have hd := hn.mem_all.mpr (.inr rfl)
  obtain ⟨hframe, -, -⟩ := hl.frame d hd
  cases v with
  | param k => exact .param k
  | const k => exact .const k
  | inst i =>
    rcases hv with hv | ⟨c, hc, hv⟩
    · obtain ⟨hi, hphi⟩ := hv i rfl
      refine .outside (hlayout ▸ List.mem_range.mpr (Nat.succ_pos _)) hi ?_ hphi
      rw [hframe.body_eq]
      exact (Nat.succ_ne_zero _).symm
    · -- The last call begins behind the body of one around it.
      obtain ⟨hi, hphi⟩ := hv i rfl
      obtain ⟨hframe', -, hlast⟩ := hl.frame c (hn.mem_all.mpr (.inl hc))
      obtain ⟨hlow, -⟩ := hn.inside hl c hc
      have hle := hframe'.le_last
      refine .outside (d := c.built.body) (hlayout ▸ List.mem_range.mpr ?_) hi ?_ hphi
      · rw [hframe'.body_eq]
        omega
      · rw [hframe'.body_eq, hframe.body_eq]
        exact Nat.ne_of_lt (by omega)

/-- Woven code makes an interwoven function. -/
theorem interwoven (h : Whole calls f) (hf : f.Linked) (hn : calls.Nest outer d)
    (hw : f.Woven outer d) : f.Interwoven d.built.body := by
  obtain ⟨there, hlaid, hlayout, ⟨t, v, ht, hop⟩, hcoded⟩ := h.exists_laid
  have hend := successors_of_ret ht hop
  have hd := hn.mem_all.mpr (.inr rfl)
  obtain ⟨hframe, -, hlast⟩ := hlaid.frame d hd
  have hle := hframe.le_last
  refine ⟨?_, fun l hl => ?_, fun l hl => ?_, ?_⟩
  · rw [hlayout, hframe.body_eq]
    exact List.mem_range.mpr (by omega)
  · obtain ⟨c, hc, hheader⟩ := hlaid.exists_call_of_isLoop hlayout hend hl
    rw [hlaid.mem_blocks_iff hlayout hend hl hc hheader,
      hlaid.mem_latches_iff hlayout hend hl hc hheader, hheader, hframe.body_eq]
    rcases hn.mem_all.mp hc with hc | rfl
    · obtain ⟨hlow, hhigh⟩ := hn.inside hlaid c hc
      exact ⟨⟨by omega, by omega⟩, Nat.ne_of_gt (by omega), Nat.ne_of_lt (by omega)⟩
    · exact ⟨⟨by omega, by omega⟩, Nat.ne_of_gt (by omega), Nat.ne_of_lt (by omega)⟩
  · obtain ⟨c, hc, hheader⟩ := hlaid.exists_call_of_isLoop hlayout hend hl
    obtain ⟨φ, cond, next, one, hcode⟩ := hcoded c hc
    obtain ⟨i, hi, huse⟩ := hw.uses c (hn.all_eq ▸ hc)
    have hφ : φ ∈ f.phis c.built.header := hcode.phis_eq ▸ List.mem_singleton.mpr rfl
    refine ⟨i, hi, _, huse, ?_⟩
    rw [hcode.induction_eq, hheader, ← (hlaid.frame c hc).1.header_eq]
    exact (hf.owner_iff φ _).mpr (mem_body_of_phis hφ)
  · obtain ⟨i, v, p, ⟨hi, hop⟩, hp⟩ := hw.stores
    refine ⟨i, hi, v, p, hop, ?_⟩
    rcases hp with hp | ⟨j, base, index, rfl, ⟨hj, hgep⟩, hbase, hindex⟩
    · exact fixed_of_early hlaid hlayout hn hp
    · exact .gep hj hgep (fixed_of_early hlaid hlayout hn hbase)
        (fixed_of_early hlaid hlayout hn hindex)

end Build.Whole

/-! ## A new name -/

namespace Func

variable {b : BlockId} {v : Operand}

theorem Fixed.rename (h : f.Fixed b v) (name : String) : Fixed { f with name } b v := by
  induction h with
  | param k => exact .param k
  | const k => exact .const k
  | outside hd hi hne hphi => exact .outside hd hi hne hphi
  | gep hi hop _ _ hbase hindex => exact .gep hi hop hbase hindex

theorem Interwoven.rename (h : f.Interwoven b) (name : String) :
    Interwoven { f with name } b where
  live := h.live
  within := h.within
  uses := h.uses
  stores := by
    obtain ⟨i, hi, v, p, hop, hp⟩ := h.stores
    exact ⟨i, hi, v, p, hop, hp.rename name⟩

end Func

end LoopNest
