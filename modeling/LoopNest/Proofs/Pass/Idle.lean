import LoopNest.Proofs.Pass.Pipeline

/-!
# Passes with nothing to do

A pass may intern types even when it gives a change up, so it is *idle* on a function only if it
changes nothing for any type table that has grown from the one at hand (`Pass.Idle`).  A pipeline of
idle passes ends after one round and reports no change (`Pipeline.run_of_idle`).  Where one pass
does all there is to do, and all passes are idle on what it makes, the pipeline ends after two
rounds with just that (`Pipeline.run_of_single`).

The functions of a program are optimized one after the other.  A run on one of them leaves the others
as they are and interns types at most, so what holds of the outcome for each function alone holds of
all of them in the end (`Pipeline.runAll_of_finishes`).
-/

namespace LoopNest

open Func

/-- The pass comes to an end and leaves a function alone, whatever types are interned first. -/
structure Pass.Idle (pass : Pass) (tt : TypeTable) (f : Func) : Prop where
  unstuck : ∀ tt', tt.Extends tt' → pass.stuckOn tt' f = false
  unchanged : ∀ tt', tt.Extends tt' → (pass.apply tt' f).changed = false

/-- The pass finds nothing to do for the types at hand, and interns none. -/
structure Pass.Passive (pass : Pass) (tt : TypeTable) (f : Func) : Prop where
  unstuck : pass.stuckOn tt f = false
  unchanged : (pass.apply tt f).changed = false
  types_eq : (pass.apply tt f).types = tt

/-- All passes of a pipeline leave a function alone. -/
def Pipeline.Idle (pl : Pipeline) (tt : TypeTable) (f : Func) : Prop :=
  ∀ pass ∈ pl.passes, pass.Idle tt f

variable {id : FuncId} {f g : Func} {tt : TypeTable} {p : Program} {pass : Pass}

theorem Pass.Idle.mono {tt' : TypeTable} (h : pass.Idle tt f) (he : tt.Extends tt') :
    pass.Idle tt' f :=
  ⟨fun tt'' he' => h.unstuck tt'' (he.trans he'), fun tt'' he' => h.unchanged tt'' (he.trans he')⟩

theorem Pass.Idle.func_eq (h : pass.Idle tt f) : (pass.apply tt f).func = f :=
  (pass.sober_apply tt f).func_eq (h.unchanged tt (.refl tt))

theorem Pipeline.Idle.mono {pl : Pipeline} {tt' : TypeTable} (h : pl.Idle tt f)
    (he : tt.Extends tt') : pl.Idle tt' f :=
  fun pass hpass => (h pass hpass).mono he

namespace Pipeline

/-! ## Idle passes -/

/-- Induction on the passes: none of them changes the function under the ones that follow. -/
theorem round_of_idle (number : Nat) : ∀ (passes : List Pass) {p : Program},
    p.func? id = some f → f.isDeclaration = false → (∀ pass ∈ passes, pass.Idle p.types f) →
    (round number id passes p).result = .ok false ∧
      Worked id f f false p (round number id passes p).program
  | [], _, hf, _, _ => ⟨rfl, .refl hf⟩
  | pass :: rest, p, hf, hd, hidle => by
    have hpass := hidle pass List.mem_cons_self
    obtain ⟨hresult, -, hw⟩ := pass.run_of_not_stuck hf hd (hpass.unstuck _ (.refl _))
    rw [hpass.func_eq, hpass.unchanged _ (.refl _)] at hw
    rw [hpass.unchanged _ (.refl _)] at hresult
    unfold round
    generalize pass.run p id = r at hresult hw ⊢
    obtain ⟨result, q, log⟩ := r
    dsimp only at hresult hw ⊢
    subst hresult
    obtain ⟨hr, hw'⟩ := round_of_idle number rest hw.after hd fun pass' h =>
      (hidle pass' (List.mem_cons_of_mem _ h)).mono hw.types_extend
    exact ⟨by simp only [hr, Except.map, Bool.or_self], hw.trans hw'⟩

/-! ## Rounds -/

/-- A round without a change is the last one. -/
theorem rounds_of_unchanged {pl : Pipeline} (left : Nat) {number : Nat}
    (h : (round number id pl.passes p).result = .ok false) :
    pl.rounds id (left + 1) number p = round number id pl.passes p := by
  rw [rounds]
  split
  · rename_i heq
    rw [heq] at h
    cases h
  · rfl

/-- After a round with a change, another one starts. -/
theorem rounds_of_changed {pl : Pipeline} (left : Nat) {number : Nat}
    (h : (round number id pl.passes p).result = .ok true) :
    (pl.rounds id (left + 1) number p).result =
      (pl.rounds id left (number + 1) (round number id pl.passes p).program).result.map
        (fun _ => true) ∧
    (pl.rounds id (left + 1) number p).program =
      (pl.rounds id left (number + 1) (round number id pl.passes p).program).program := by
  rw [rounds]
  split
  · rename_i heq
    rw [heq]
    exact ⟨rfl, rfl⟩
  · rename_i hne
    exact (hne _ _ (by rw [← h])).elim

theorem rounds_of_idle (pl : Pipeline) (left number : Nat) (hf : p.func? id = some f)
    (hd : f.isDeclaration = false) (hidle : pl.Idle p.types f) :
    (pl.rounds id left number p).result = .ok false ∧
      Worked id f f false p (pl.rounds id left number p).program := by
  cases left with
  | zero => exact ⟨rfl, .refl hf⟩
  | succ left =>
    obtain ⟨hr, hw⟩ := round_of_idle number pl.passes hf hd hidle
    rw [rounds_of_unchanged left hr]
    exact ⟨hr, hw⟩

theorem run_of_idle (pl : Pipeline) (hf : p.func? id = some f) (hd : f.isDeclaration = false)
    (hidle : pl.Idle p.types f) :
    (pl.run p id).result = .ok false ∧ Worked id f f false p (pl.run p id).program :=
  rounds_of_idle pl maxRounds 0 hf hd hidle

/-! ## One pass that has something to do -/

/-- Induction on the passes before the one with something to do, which do not even intern types. -/
theorem round_of_single (number : Nat) {post : List Pass} : ∀ (pre : List Pass) {p : Program},
    p.func? id = some f → f.isDeclaration = false → (∀ pass' ∈ pre, pass'.Passive p.types f) →
    pass.stuckOn p.types f = false →
    (∀ pass' ∈ post, pass'.Idle (pass.apply p.types f).types (pass.apply p.types f).func) →
    ∃ c, (round number id (pre ++ pass :: post) p).result = .ok c ∧
      Worked id f (pass.apply p.types f).func c p
        (round number id (pre ++ pass :: post) p).program ∧
      (pass.apply p.types f).types.Extends
        (round number id (pre ++ pass :: post) p).program.types
  | [], p, hf, hd, _, hstuck, hpost => by
    obtain ⟨hresult, htypes, hw⟩ := pass.run_of_not_stuck hf hd hstuck
    rw [List.nil_append]
    unfold round
    generalize pass.run p id = r at hresult htypes hw ⊢
    obtain ⟨result, q, log⟩ := r
    dsimp only at hresult htypes hw ⊢
    subst hresult
    obtain ⟨hr, hw'⟩ := round_of_idle number post hw.after (hw.defined hd) (htypes ▸ hpost)
    exact ⟨_, by simp only [hr, Except.map], hw.trans hw', htypes ▸ hw'.types_extend⟩
  | first :: pre, p, hf, hd, hpre, hstuck, hpost => by
    have hfirst := hpre first List.mem_cons_self
    obtain ⟨hresult, htypes, hw⟩ := first.run_of_not_stuck hf hd hfirst.unstuck
    rw [(first.sober_apply p.types f).func_eq hfirst.unchanged, hfirst.unchanged] at hw
    rw [hfirst.unchanged] at hresult
    rw [hfirst.types_eq] at htypes
    rw [List.cons_append]
    unfold round
    generalize first.run p id = r at hresult htypes hw ⊢
    obtain ⟨result, q, log⟩ := r
    dsimp only at hresult htypes hw ⊢
    subst hresult
    obtain ⟨c, hr, hw', hext⟩ := round_of_single number pre hw.after hd
      (htypes ▸ fun pass' h => hpre pass' (List.mem_cons_of_mem _ h)) (htypes ▸ hstuck)
      (htypes ▸ hpost)
    rw [htypes] at hw' hext
    exact ⟨_, by simp only [hr, Except.map], hw.trans hw', hext⟩

/-- One pass has something to do on a function, those before it have not, and all are idle on what it
makes: then the pipeline makes just that, and a second run has nothing to do. -/
theorem run_of_single (pl : Pipeline) {pre post : List Pass}
    (hpl : pl.passes = pre ++ pass :: post) (hf : p.func? id = some f)
    (hd : f.isDeclaration = false) (hpre : ∀ pass' ∈ pre, pass'.Passive p.types f)
    (hstuck : pass.stuckOn p.types f = false)
    (hidle : pl.Idle (pass.apply p.types f).types (pass.apply p.types f).func) :
    ∃ c, (pl.run p id).result = .ok c ∧
      Worked id f (pass.apply p.types f).func c p (pl.run p id).program ∧
      (pass.apply p.types f).types.Extends (pl.run p id).program.types := by
  have hpost : ∀ pass' ∈ post,
      pass'.Idle (pass.apply p.types f).types (pass.apply p.types f).func := fun pass' h =>
    hidle pass' (hpl ▸ List.mem_append_right _ (List.mem_cons_of_mem _ h))
  obtain ⟨c, hr, hw, htypes⟩ := round_of_single 0 pre hf hd hpre hstuck hpost
  rw [← hpl] at hr hw htypes
  refine ⟨c, ?_⟩
  cases c with
  | false =>
    have hrun : pl.run p id = round 0 id pl.passes p := rounds_of_unchanged 9 hr
    rw [hrun]
    exact ⟨hr, hw, htypes⟩
  | true =>
    obtain ⟨hresult, hprogram⟩ := rounds_of_changed 9 hr
    obtain ⟨hr', hw'⟩ := rounds_of_idle pl 9 1 hw.after (hw.defined hd) (hidle.mono htypes)
    change (pl.run p id).result = _ at hresult
    change (pl.run p id).program = _ at hprogram
    rw [hresult, hprogram, hr']
    exact ⟨rfl, hw.trans hw', htypes.trans hw'.types_extend⟩

/-! ## One function after the other -/

/-- Nothing is left to do on a function, and the verifier accepts it, whatever types are interned. -/
structure Settles (pl : Pipeline) (tt : TypeTable) (f : Func) : Prop where
  defined : f.isDeclaration = false
  verified : ∀ tt', tt.Extends tt' → f.verify tt' = .ok ()
  idle : pl.Idle tt f

theorem Settles.mono {pl : Pipeline} {tt' : TypeTable} (h : pl.Settles tt f)
    (he : tt.Extends tt') : pl.Settles tt' f :=
  ⟨h.defined, fun tt'' he' => h.verified tt'' (he.trans he'), h.idle.mono he⟩

/-- In every program whose types have grown from those at hand, the pipeline makes something of a
function that settles, and of which more may hold. -/
def Finishes (pl : Pipeline) (tt : TypeTable) (f : Func) (more : TypeTable → Func → Prop) : Prop :=
  ∀ p id, p.func? id = some f → tt.Extends p.types → p.types.Closed →
    ∃ g c, (pl.run p id).result = .ok c ∧ Worked id f g c p (pl.run p id).program ∧
      pl.Settles (pl.run p id).program.types g ∧ more (pl.run p id).program.types g

/-- The outcome of a pipeline on some functions in turn. -/
structure Finished (pl : Pipeline) (ids : List FuncId) (more : FuncId → TypeTable → Func → Prop)
    (p q : Program) : Prop where
  accrues : p.types.Accrues q.types
  size_eq : q.funcs.size = p.funcs.size
  others_eq : ∀ j ∉ ids, q.func? j = p.func? j
  settles : ∀ j ∈ ids, ∃ g, q.func? j = some g ∧ pl.Settles q.types g ∧ more j q.types g

/-- Induction on the functions that are left, each of which is as it was at the start. -/
theorem runAll_of_finishes (pl : Pipeline) {more : FuncId → TypeTable → Func → Prop}
    (hmono : ∀ j tt tt' g, tt.Extends tt' → more j tt g → more j tt' g) :
    ∀ (ids : List FuncId) {p : Program}, ids.Nodup → tt.Extends p.types → p.types.Closed →
    (∀ j ∈ ids, ∃ f, p.func? j = some f ∧ pl.Finishes tt f (more j)) →
    ∃ c, (pl.runAll ids p).result = .ok c ∧ pl.Finished ids more p (pl.runAll ids p).program
  | [], p, _, _, _, _ => ⟨false, rfl, .refl _, rfl, fun _ _ => rfl, nofun⟩
  | id :: ids, p, hnd, he, hc, h => by
    obtain ⟨hid, hnd⟩ := List.nodup_cons.mp hnd
    obtain ⟨f, hf, hfinish⟩ := h id List.mem_cons_self
    obtain ⟨g, c, hresult, hw, hset, hmore⟩ := hfinish p id hf he hc
    unfold runAll
    generalize pl.run p id = r at hresult hw hset hmore ⊢
    obtain ⟨result, q, log⟩ := r
    dsimp only at hresult hw hset hmore ⊢
    subst hresult
    obtain ⟨d, hr, hrest⟩ := runAll_of_finishes pl hmono ids hnd (he.trans hw.types_extend)
      (hw.accrues.closed hc) fun j hj => by
        rw [hw.others_eq j fun heq => hid (heq ▸ hj)]
        exact h j (List.mem_cons_of_mem _ hj)
    refine ⟨c || d, by simp only [hr, Except.map], hw.accrues.trans hrest.accrues,
      hrest.size_eq.trans hw.size_eq, fun j hj => ?_, fun j hj => ?_⟩
    · obtain ⟨hne, hj⟩ := not_or.mp fun h => hj (List.mem_cons.mpr h)
      exact (hrest.others_eq j hj).trans (hw.others_eq j hne)
    · rcases List.mem_cons.mp hj with rfl | hj
      · exact ⟨g, (hrest.others_eq j hid).trans hw.after, hset.mono hrest.accrues.ext,
          hmono _ _ _ _ hrest.accrues.ext hmore⟩
      · exact hrest.settles j hj

/-- A second run has nothing to do. -/
theorem runAll_of_settles (pl : Pipeline) : ∀ (ids : List FuncId) {p : Program},
    (∀ j ∈ ids, ∃ g, p.func? j = some g ∧ pl.Settles p.types g) →
    (pl.runAll ids p).result = .ok false
  | [], _, _ => rfl
  | id :: ids, p, h => by
    obtain ⟨g, hg, hset⟩ := h id List.mem_cons_self
    obtain ⟨hresult, hw⟩ := pl.run_of_idle hg hset.defined hset.idle
    unfold runAll
    generalize pl.run p id = r at hresult hw ⊢
    obtain ⟨result, q, log⟩ := r
    dsimp only at hresult hw ⊢
    subst hresult
    have hr := runAll_of_settles pl ids (p := q) fun j hj => by
      by_cases hid : j = id
      · exact ⟨g, hid ▸ hw.after, hset.mono hw.types_extend⟩
      · obtain ⟨g', hg', hset'⟩ := h j (List.mem_cons_of_mem _ hj)
        exact ⟨g', (hw.others_eq j hid).trans hg', hset'.mono hw.types_extend⟩
    simp only [hr, Except.map, Bool.or_self]

/-- The functions that a program defines. -/
theorem runProgram_eq (pl : Pipeline) (p : Program) : ∃ ids, ids.Nodup ∧
    (∀ j, j ∈ ids ↔ ∃ f, p.func? j = some f ∧ f.isDeclaration = false) ∧
    pl.runProgram p = pl.runAll ids p := by
  refine ⟨_, List.nodup_range.filter _, fun j => ?_, rfl⟩
  rw [List.mem_filter, List.mem_range]
  constructor
  · rintro ⟨-, hj⟩
    split at hj
    · rename_i f hf
      exact ⟨f, hf, by simpa using hj⟩
    · cases hj
  · rintro ⟨f, hf, hd⟩
    exact ⟨(Array.getElem?_eq_some_iff.mp hf).1, by simp [hf, hd]⟩

end Pipeline

/-- A program is accepted if its functions are. -/
theorem Program.verify_eq_ok (h : ∀ j f, p.func? j = some f → f.verify p.types = .ok ()) :
    p.verify = .ok () := by
  have hall : ∀ g ∈ p.funcs.toList, g.verify p.types = .ok () := fun g hg => by
    obtain ⟨j, hj⟩ := List.mem_iff_getElem?.mp hg
    exact h j g (by rwa [Program.func?, ← Array.getElem?_toList])
  unfold Program.verify
  generalize p.funcs.toList = l at hall
  induction l with
  | nil => rfl
  | cons g l ih =>
    rw [List.foldlM_cons, hall g List.mem_cons_self]
    exact ih fun g' hg' => hall g' (List.mem_cons_of_mem _ hg')

end LoopNest
