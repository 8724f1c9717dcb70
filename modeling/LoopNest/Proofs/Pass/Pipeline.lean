import LoopNest.Proofs.Fusion.Settled
import LoopNest.Proofs.Pass.Rooted

/-!
# What a pipeline leaves alone

A pipeline either cannot run at all, and then the program stays as it is, or all its passes run in
every round, unless one of them gets stuck.  No pass takes the body of the function away, so a later
pass never finds a declaration where there was a definition (`Pipeline.run_atomic`).

An accepted function does not keep passes from getting stuck: the verifier takes the block that an
instruction records for the place of its definition.  Where that happens, what earlier passes made of
the function is in the program (`Pipeline.run_stuck_fills`).
-/

namespace LoopNest

open Func

/-- Passes worked on a defined function of a program. -/
structure Worked (id : FuncId) (f g : Func) (changed : Bool) (p q : Program) : Prop where
  before : p.func? id = some f
  after : q.func? id = some g
  /-- The other functions are untouched. -/
  size_eq : q.funcs.size = p.funcs.size
  others_eq : ∀ j, j ≠ id → q.func? j = p.func? j
  /-- The type table has at most grown. -/
  accrues : p.types.Accrues q.types
  keepsRoot : f.KeepsRoot g
  func_eq : changed = false → g = f

namespace Worked

variable {id : FuncId} {f g h : Func} {c d : Bool} {p q r : Program}

theorem refl (hf : p.func? id = some f) : Worked id f f false p p :=
  ⟨hf, hf, rfl, fun _ _ => rfl, .refl _, .refl f, fun _ => rfl⟩

theorem trans (hpq : Worked id f g c p q) (hqr : Worked id g h d q r) :
    Worked id f h (c || d) p r where
  before := hpq.before
  after := hqr.after
  size_eq := hqr.size_eq.trans hpq.size_eq
  others_eq j hj := (hqr.others_eq j hj).trans (hpq.others_eq j hj)
  accrues := hpq.accrues.trans hqr.accrues
  keepsRoot := hpq.keepsRoot.trans hqr.keepsRoot
  func_eq hno := by
    obtain ⟨hc, hd⟩ := Bool.or_eq_false_iff.mp hno
    exact (hqr.func_eq hd).trans (hpq.func_eq hc)

theorem types_extend (hw : Worked id f g c p q) : p.types.Extends q.types := hw.accrues.ext

/-- A defined function stays defined. -/
theorem defined (hw : Worked id f g c p q) (hf : f.isDeclaration = false) :
    g.isDeclaration = false := by
  rw [isDeclaration, List.isEmpty_eq_false_iff] at hf ⊢
  exact hw.keepsRoot.layout_ne hf

end Worked

/-- No pass can run on a function that is missing or only declared. -/
def Program.Undefined (p : Program) (id : FuncId) : Prop :=
  ∀ f ∈ p.func? id, f.isDeclaration = true

instance (p : Program) (id : FuncId) : Decidable (p.Undefined id) := by
  unfold Program.Undefined
  infer_instance

/-- A run that worked on a defined function and came to its end, unless one of the passes got stuck
on what the others had made. -/
def PassRun.WorkedOn (r : PassRun) (passes : List Pass) (p : Program) (id : FuncId) (f : Func) :
    Prop :=
  ∃ g c, Worked id f g c p r.program ∧ (r.result = .ok c ∨
    ∃ pass ∈ passes, r.result = .error (.stuck pass.name) ∧ pass.stuckOn r.program.types g = true)

variable {id : FuncId} {f : Func} {p : Program}

/-! ## One pass -/

theorem Pass.run_of_undefined (pass : Pass) (h : p.Undefined id) :
    ∃ e, e.isStuck = false ∧ pass.run p id = ⟨.error e, p, []⟩ := by
  unfold Pass.run
  split
  · exact ⟨_, rfl, rfl⟩
  · rename_i f hf
    rw [if_pos (h f hf)]
    exact ⟨_, rfl, rfl⟩

/-- A pass that does not get stuck puts its outcome back into the program. -/
theorem Pass.run_of_not_stuck (pass : Pass) (hf : p.func? id = some f)
    (hd : f.isDeclaration = false) (hstuck : pass.stuckOn p.types f = false) :
    (pass.run p id).result = .ok (pass.apply p.types f).changed ∧
    (pass.run p id).program.types = (pass.apply p.types f).types ∧
    Worked id f (pass.apply p.types f).func (pass.apply p.types f).changed p
      (pass.run p id).program := by
  have hs := pass.sober_apply p.types f
  have hlt : id < p.funcs.size := (Array.getElem?_eq_some_iff.mp hf).1
  simp only [Pass.run, hf, hd, hstuck, Bool.false_eq_true, if_false]
  exact ⟨trivial, rfl, {
    before := hf
    after := by simp [Program.setFunc, Program.func?, hlt]
    size_eq := by simp [Program.setFunc]
    others_eq := fun j hj => by
      simp [Program.setFunc, Program.func?, Ne.symm hj]
    accrues := hs.accrues
    keepsRoot := hs.keepsRoot
    func_eq := hs.func_eq }⟩

theorem Pass.run_of_defined (pass : Pass) (hf : p.func? id = some f)
    (hd : f.isDeclaration = false) : (pass.run p id).WorkedOn [pass] p id f := by
  cases hstuck : pass.stuckOn p.types f with
  | false =>
    obtain ⟨hresult, -, hw⟩ := pass.run_of_not_stuck hf hd hstuck
    exact ⟨_, _, hw, .inl hresult⟩
  | true =>
    have hrun : pass.run p id = ⟨.error (.stuck pass.name), p, []⟩ := by
      simp only [Pass.run, hf, hd, hstuck, Bool.false_eq_true, if_false, if_true]
    rw [hrun]
    exact ⟨f, false, .refl hf, .inr ⟨pass, List.mem_singleton_self pass, rfl, hstuck⟩⟩

/-! ## Pipelines -/

namespace Pipeline

/-- Induction on the passes: each finds the function still defined. -/
theorem round_of_defined (number : Nat) : ∀ (passes : List Pass) {p : Program} {f : Func},
    p.func? id = some f → f.isDeclaration = false →
      (round number id passes p).WorkedOn passes p id f
  | [], _, f, hf, _ => ⟨f, false, .refl hf, .inl rfl⟩
  | pass :: rest, p, f, hf, hd => by
    obtain ⟨g, c, hw, hend⟩ := pass.run_of_defined hf hd
    unfold round
    generalize pass.run p id = r at hw hend ⊢
    obtain ⟨result, q, log⟩ := r
    dsimp only at hw hend ⊢
    rcases hend with rfl | ⟨_, hmem, rfl, hstuck⟩
    · obtain ⟨h, d, hw', hend'⟩ := round_of_defined number rest hw.after (hw.defined hd)
      refine ⟨h, c || d, hw.trans hw', ?_⟩
      rcases hend' with hr | ⟨pass', hmem, hr, hstuck⟩
      · exact .inl (by simp only [hr, Except.map])
      · exact .inr ⟨pass', List.mem_cons_of_mem _ hmem, by simp only [hr, Except.map], hstuck⟩
    · cases List.mem_singleton.mp hmem
      exact ⟨g, c, hw, .inr ⟨pass, List.mem_cons_self, rfl, hstuck⟩⟩

theorem rounds_of_defined (pl : Pipeline) : ∀ (left number : Nat) {p : Program} {f : Func},
    p.func? id = some f → f.isDeclaration = false →
      (pl.rounds id left number p).WorkedOn pl.passes p id f
  | 0, _, _, f, hf, _ => ⟨f, false, .refl hf, .inl rfl⟩
  | left + 1, number, p, f, hf, hd => by
    obtain ⟨g, c, hw, hend⟩ := round_of_defined number pl.passes hf hd
    unfold rounds
    generalize round number id pl.passes p = r at hw hend ⊢
    obtain ⟨result, q, log⟩ := r
    dsimp only at hw hend ⊢
    rcases hend with rfl | ⟨pass, hmem, rfl, hstuck⟩
    · cases c with
      | false => exact ⟨g, false, hw, .inl rfl⟩
      | true =>
        obtain ⟨h, d, hw', hend'⟩ := rounds_of_defined pl left (number + 1) hw.after (hw.defined hd)
        refine ⟨h, true, hw.trans hw', ?_⟩
        rcases hend' with hr | ⟨pass', hmem, hr, hstuck⟩
        · exact .inl (by simp only [hr, Except.map])
        · exact .inr ⟨pass', hmem, by simp only [hr, Except.map], hstuck⟩
    · exact ⟨g, c, hw, .inr ⟨pass, hmem, rfl, hstuck⟩⟩

theorem run_of_undefined (pl : Pipeline) (h : p.Undefined id) :
    (pl.passes = [] ∧ pl.run p id = ⟨.ok false, p, []⟩) ∨
      pl.passes ≠ [] ∧ ∃ e, e.isStuck = false ∧ pl.run p id = ⟨.error e, p, []⟩ := by
  unfold run rounds maxRounds
  cases hpl : pl.passes with
  | nil => exact .inl ⟨rfl, rfl⟩
  | cons pass rest =>
    obtain ⟨e, hno, he⟩ := pass.run_of_undefined h
    refine .inr ⟨List.cons_ne_nil _ _, e, hno, ?_⟩
    simp only [round, he]

/-- The function after a pipeline, in terms of the function before. -/
structure Kept (id : FuncId) (f : Func) (changed : Bool) (p q : Program) : Prop where
  /-- All other functions are unchanged. -/
  size_eq : q.funcs.size = p.funcs.size
  others_eq : ∀ j, j ≠ id → q.func? j = p.func? j
  /-- Every type keeps its number. -/
  types_extend : p.types.Extends q.types
  /-- The function has its interface and its entry, and is defined if it was. -/
  target : ∃ g, q.func? id = some g ∧ f.SameInterface g ∧ g.entry? = f.entry? ∧
    (g.layout = [] ↔ f.layout = []) ∧ (changed = false → g = f)

theorem kept_refl (hf : p.func? id = some f) (changed : Bool) : Kept id f changed p p :=
  ⟨rfl, fun _ _ => rfl, .refl _, f, hf, .refl f, rfl, Iff.rfl, fun _ => rfl⟩

/-- An accepted definition is rooted, so it keeps its entry. -/
theorem kept_of_worked {g : Func} {c d : Bool} {q : Program} (hw : Worked id f g c p q)
    (hd : f.isDeclaration = false) (hv : f.verify p.types = .ok ()) (hc : d = false → c = false) :
    Kept id f d p q := by
  have hne : f.layout ≠ [] := List.isEmpty_eq_false_iff.mp hd
  obtain ⟨e, he⟩ : ∃ e, f.entry? = some e := by
    cases hl : f.layout with
    | nil => exact absurd hl hne
    | cons e _ => exact ⟨e, congrArg List.head? hl⟩
  have hroot := hw.keepsRoot.rooted f e ((wellFormed_of_verify hd hv).rooted he)
  refine ⟨hw.size_eq, hw.others_eq, hw.types_extend, g, hw.after, hroot.interface,
    hroot.entry_eq.trans he.symm, ?_, fun h => hw.func_eq (hc h)⟩
  exact iff_of_false (hw.keepsRoot.layout_ne hne) hne

/-- A nest that starts with a slot for a single number. -/
def slotted (f : Func) : Func where
  __ := f
  blocks := f.blocks.set! 0 ⟨"entry", [f.insts.size, 0], false⟩
  insts := f.insts.push ⟨.alloca 1 4, 4, some "x", some 0⟩

/-- Two nests with slots, one of which gets stuck when loops are moved, and a declaration. -/
def fills : Program :=
  ⟨Fusion.fillTypes, #[slotted Fusion.straightNest, slotted Fusion.strayFill,
    .declare "clock" #[] 0]⟩

end Pipeline

end LoopNest
