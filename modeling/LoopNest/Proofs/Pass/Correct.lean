import LoopNest.Proofs.Func.Linked
import LoopNest.Proofs.Pass.Padded

/-!
# Correct pipelines

A pipeline is correct on a program if no pass gets stuck, the verifier accepts the outcome, a second
run of the pipeline changes nothing, and the runs of a function that succeed still do, with the same
result and the same regions (`Pipeline.Correct`).  It is correct if it finishes each function on its
own (`Pipeline.correct_of_finishes`).  If it is run on one function only (`Pipeline.CorrectOn`), this
one must be finished (`Pipeline.correctOn_of_finishes`), and the others may be any.

A pipeline finishes a function that it leaves alone (`Func.Sturdy.finishes_of_idle`), and every preset
finishes an interwoven nest (`Func.Sturdy.finishes_interwoven`): at most the stack slots of the nest
are padded.  On a function without slots and nested loops (`Func.Plain`), all depends on what the
vectorizer makes of it (`Func.Plain.run_vectorizing`).
-/

namespace LoopNest

open Func

/-- Every run of a function that succeeds, from arguments and a memory of some kind, is like a run of
another function with enough steps: it gives the same, and leaves the same in all regions that were
there before. -/
def Program.RunsLike (p : Program) (f : Func) (q : Program) (g : Func)
    (ok : List Datum → Memory → Prop) : Prop :=
  ∀ args m, ok args m → ∀ limit d m₁ n₁, p.run f args m limit = ⟨.ok d, m₁, n₁⟩ →
    ∃ bound, ∀ limit', bound ≤ limit' → ∃ m₂ n₂, q.run g args m limit' = ⟨.ok d, m₂, n₂⟩ ∧
      ∀ r < m.regions.size, m₂.regions[r]? = m₁.regions[r]?

/-- The pipeline optimizes a program and keeps what a function of it does. -/
structure Pipeline.Correct (pl : Pipeline) (p : Program) (id : FuncId)
    (ok : List Datum → Memory → Prop) : Prop where
  succeeds : ∃ changed, (pl.runProgram p).result = .ok changed
  /-- No pass gets stuck on a function of the program. -/
  unstuck : ∀ k, pl.isStuck p k = false
  verified : (pl.runProgram p).program.verify = .ok ()
  /-- A second run has nothing to do. -/
  settled : (pl.runProgram (pl.runProgram p).program).result = .ok false
  runs : ∃ f g, p.func? id = some f ∧ (pl.runProgram p).program.func? id = some g ∧
    p.RunsLike f (pl.runProgram p).program g ok

/-- The pipeline optimizes a function of a program, and keeps what it does. -/
structure Pipeline.CorrectOn (pl : Pipeline) (p : Program) (id : FuncId)
    (ok : List Datum → Memory → Prop) : Prop where
  succeeds : ∃ changed, (pl.run p id).result = .ok changed
  /-- No pass gets stuck on the function. -/
  unstuck : pl.isStuck p id = false
  others_eq : ∀ j, j ≠ id → (pl.run p id).program.func? j = p.func? j
  /-- The outcome is accepted if the other functions were, with types of the program. -/
  verified : (∀ j, j ≠ id → ∀ g, p.func? j = some g →
    g.verify p.types = .ok () ∧ ∀ t ∈ g.tys, t < p.types.size) →
      (pl.run p id).program.verify = .ok ()
  /-- A second run has nothing to do. -/
  settled : (pl.run (pl.run p id).program id).result = .ok false
  runs : ∃ f g, p.func? id = some f ∧ (pl.run p id).program.func? id = some g ∧
    p.RunsLike f (pl.run p id).program g ok

/-- The pipeline of a level, or that of the basic level with a vectorizer behind it. -/
inductive Pipeline.IsPreset : Pipeline → Prop
  | level (level : OptLevel) : IsPreset level.pipeline
  | vectorize (config : VectorConfig) :
      IsPreset ⟨OptLevel.basic.pipeline.passes ++ [.vectorize config]⟩

/-- The last level is the basic one with the standard vectorizer. -/
theorem Pipeline.IsPreset.eq {pl : Pipeline} (h : pl.IsPreset) : pl = OptLevel.none.pipeline ∨
    pl = OptLevel.basic.pipeline ∨
    ∃ config, pl = ⟨OptLevel.basic.pipeline.passes ++ [.vectorize config]⟩ := by
  cases h with
  | level level =>
    cases level with
    | none => exact .inl rfl
    | basic => exact .inr (.inl rfl)
    | full => exact .inr (.inr ⟨.standard, rfl⟩)
  | vectorize config => exact .inr (.inr ⟨config, rfl⟩)

variable {p q r : Program} {id : FuncId} {f g h : Func} {c : Bool} {pl : Pipeline}
  {ok : List Datum → Memory → Prop} {tt tt' : TypeTable}

/-- What is accepted stays so when types are interned. -/
theorem Func.verify_extends (hv : f.verify tt = .ok ()) (htys : ∀ t ∈ f.tys, t < tt.size)
    (he : tt.Extends tt') : f.verify tt' = .ok () := by
  cases hd : f.isDeclaration with
  | true => exact verify_of_isDeclaration hd
  | false =>
    obtain ⟨hf, ht⟩ := (verify_eq_ok_iff hd).mp hv
    exact (verify_eq_ok_iff hd).mpr ⟨hf, ht.extends htys he⟩

/-! ## Runs that are like others -/

/-- Runs without calls see nothing of a program but its types, and nothing of a limit that they do not
reach. -/
theorem Func.Orderly.run_eq {used : BlockId → Prop} (hf : f.Orderly used) (ht : q.types = p.types)
    {args : List Datum} {m m₁ : Memory} {limit limit' n : Nat} {d : Datum} (hle : limit ≤ limit')
    (hrun : p.run f args m limit = ⟨.ok d, m₁, n⟩) :
    ∃ m₂, q.run f args m limit' = ⟨.ok d, m₂, n⟩ ∧ m₂.regions = m₁.regions := by
  obtain ⟨e, he, hargs, hn, hex⟩ := (Program.run_ok_iff hf).mp ⟨m₁, hrun, rfl⟩
  exact (Program.run_ok_iff hf).mpr ⟨e, he, hargs, Nat.le_trans hn hle, ht ▸ hex⟩

/-- Runs of a function without calls are like runs of one that mirrors it. -/
theorem Program.runsLike_of_mirrors {used : BlockId → Prop} (hf : f.Orderly (· ∈ f.layout))
    (hg : g.Orderly (· ∈ g.layout)) (he : p.types.Extends q.types) (hc : p.types.Closed)
    {slots : List Padding.Slot} (hm : Padding.Mirrors p.types q.types f f g slots used)
    (ok : List Datum → Memory → Prop) : p.RunsLike f q g ok := by
  intro args m _ limit d m₁ n₁ hrun
  refine ⟨2 * limit, fun limit' hlim => ?_⟩
  -- Both functions are taken out of their programs, where a call could reach others.
  let p₀ : Program := ⟨p.types, #[]⟩
  let q₀ : Program := ⟨q.types, #[]⟩
  have hp : Padding.ProgramMirrors p₀ q₀ f := ⟨he, hc, fun name k hk => by
    obtain ⟨j, -, hj⟩ := Option.bind_eq_some_iff.mp (Option.filter_eq_some_iff.mp hk).1
    simp [p₀, Program.func?] at hj⟩
  obtain ⟨m₁', hrun₁, heq₁⟩ := hf.run_eq (p := p) (q := p₀) rfl (Nat.le_refl limit) hrun
  obtain ⟨s, m₂, n₂, hinv, hrun₂, hlong⟩ := hp.run hlim hm hrun₁
  obtain ⟨_, _, _, _, _, _, rfl⟩ := Machine.invoke_eq_next_iff.mp hinv
  obtain ⟨m₃, hrun₃, heq₃⟩ := hg.run_eq (p := q₀) (q := q) rfl (Nat.le_refl limit') hrun₂
  refine ⟨m₃, n₂, hrun₃, fun r hr => ?_⟩
  rw [heq₃, ← heq₁]
  refine (hlong.region_eq r).resolve_right ?_
  -- Slots make regions behind those that were there before.
  rintro ⟨⟨t, _, hreach, _, _, _, hsize⟩, _⟩
  exact absurd hr (Nat.not_lt.mpr (hsize ▸ hreach.regions_size_le))

theorem Program.RunsLike.trans (h₁ : p.RunsLike f q g ok) (h₂ : q.RunsLike g r h ok) :
    p.RunsLike f r h ok := by
  intro args m hok limit d m₁ n₁ hrun
  obtain ⟨bound, hfirst⟩ := h₁ args m hok limit d m₁ n₁ hrun
  obtain ⟨m₂, n₂, hrun₂, hregions₂⟩ := hfirst bound (Nat.le_refl bound)
  obtain ⟨bound', hsecond⟩ := h₂ args m hok bound d m₂ n₂ hrun₂
  refine ⟨bound', fun limit' hle => ?_⟩
  obtain ⟨m₃, n₃, hrun₃, hregions₃⟩ := hsecond limit' hle
  exact ⟨m₃, n₃, hrun₃, fun k hk => (hregions₃ k hk).trans (hregions₂ k hk)⟩

/-- A function keeps what another one does, whatever programs they stand in. -/
def Func.KeepsRuns (f : Func) (tt : TypeTable) (ok : List Datum → Memory → Prop) (tt' : TypeTable)
    (g : Func) : Prop :=
  ∀ p q : Program, p.types = tt → tt'.Extends q.types → p.RunsLike f q g ok

/-! ## Programs of several functions -/

namespace Pipeline

theorem Finishes.weaken {more more' : TypeTable → Func → Prop} (h : pl.Finishes tt f more)
    (hmore : ∀ tt' g, more tt' g → more' tt' g) : pl.Finishes tt f more' := by
  intro p id hf he hc
  obtain ⟨g, c, hresult, hw, hset, hm⟩ := h p id hf he hc
  exact ⟨g, c, hresult, hw, hset, hmore _ _ hm⟩

theorem isStuck_of_ok (h : (pl.run p id).result = .ok c) : pl.isStuck p id = false := by
  rw [isStuck, h]

/-- A pipeline that finishes a function and keeps its runs is correct on it. -/
theorem correctOn_of_finishes (hc : p.types.Closed) (hf : p.func? id = some f)
    (hfin : pl.Finishes p.types f (f.KeepsRuns p.types ok)) : pl.CorrectOn p id ok := by
  obtain ⟨g, c, hresult, hw, hset, hruns⟩ := hfin p id hf (.refl _) hc
  exact {
    succeeds := ⟨c, hresult⟩
    unstuck := isStuck_of_ok hresult
    others_eq := hw.others_eq
    verified := fun hothers => Program.verify_eq_ok fun j k hk => by
      by_cases hj : j = id
      · subst hj
        cases hw.after.symm.trans hk
        exact hset.verified _ (.refl _)
      · rw [hw.others_eq j hj] at hk
        obtain ⟨hv, htys⟩ := hothers j hj k hk
        exact verify_extends hv htys hw.types_extend
    settled := (pl.run_of_idle hw.after hset.defined hset.idle).1
    runs := ⟨f, g, hf, hw.after, hruns p _ rfl (.refl _)⟩ }

/-- A pipeline does not get stuck on a program if it finishes all functions. -/
theorem unstuck_of_finishes (hc : p.types.Closed)
    (hall : ∀ j g, p.func? j = some g → g.isDeclaration = false →
      pl.Finishes p.types g fun _ _ => True) (k : FuncId) : pl.isStuck p k = false := by
  by_cases hundef : p.Undefined k
  · rcases pl.run_of_undefined hundef with ⟨-, hrun⟩ | ⟨-, e, hno, hrun⟩
    · rw [isStuck, hrun]
    · rw [isStuck, hrun]
      exact hno
  · obtain ⟨g, hg, hd⟩ : ∃ g, p.func? k = some g ∧ g.isDeclaration = false := by
      simpa [Program.Undefined] using hundef
    obtain ⟨-, c, hresult, -⟩ := hall k g hg hd p k hg (.refl _) hc
    exact isStuck_of_ok hresult

/-- What is defined in the end was defined at the start, so it settles. -/
theorem Finished.settles_of_defined {ids : List FuncId} {more : FuncId → TypeTable → Func → Prop}
    (hq : pl.Finished ids more p q)
    (hids : ∀ j, j ∈ ids ↔ ∃ f, p.func? j = some f ∧ f.isDeclaration = false) {j : FuncId}
    (hg : q.func? j = some g) (hd : g.isDeclaration = false) : pl.Settles q.types g := by
  by_cases hj : j ∈ ids
  · obtain ⟨g', hg', hset, -⟩ := hq.settles j hj
    cases hg.symm.trans hg'
    exact hset
  · rw [hq.others_eq j hj] at hg
    exact absurd ((hids j).mpr ⟨g, hg, hd⟩) hj

/-- A pipeline that finishes all functions of a program and keeps the runs of one of them is
correct. -/
theorem correct_of_finishes (hc : p.types.Closed) (hf : p.func? id = some f)
    (hd : f.isDeclaration = false) (hfin : pl.Finishes p.types f (f.KeepsRuns p.types ok))
    (hall : ∀ j g, p.func? j = some g → g.isDeclaration = false →
      pl.Finishes p.types g fun _ _ => True) : pl.Correct p id ok := by
  obtain ⟨ids, hnd, hids, heq⟩ := pl.runProgram_eq p
  have hmono : ∀ j tt tt' g, tt.Extends tt' → (j = id → f.KeepsRuns p.types ok tt g) →
      j = id → f.KeepsRuns p.types ok tt' g :=
    fun j tt tt' g he hr hj q₁ q₂ h₁ h₂ => hr hj q₁ q₂ h₁ (he.trans h₂)
  have hfinish : ∀ j ∈ ids, ∃ g, p.func? j = some g ∧
      pl.Finishes p.types g fun tt h => j = id → f.KeepsRuns p.types ok tt h := fun j hj => by
    obtain ⟨g, hg, hgd⟩ := (hids j).mp hj
    refine ⟨g, hg, ?_⟩
    by_cases hid : j = id
    · subst hid
      cases hf.symm.trans hg
      exact hfin.weaken fun _ _ h _ => h
    · exact (hall j g hg hgd).weaken fun _ _ _ h => absurd h hid
  obtain ⟨c, hresult, hq⟩ := pl.runAll_of_finishes hmono ids hnd (.refl _) hc hfinish
  rw [← heq] at hresult hq
  obtain ⟨g, hg, -, hruns⟩ := hq.settles id ((hids id).mpr ⟨f, hf, hd⟩)
  obtain ⟨ids', -, hids', heq'⟩ := pl.runProgram_eq (pl.runProgram p).program
  exact {
    succeeds := ⟨c, hresult⟩
    unstuck := unstuck_of_finishes hc hall
    verified := Program.verify_eq_ok fun j g hg => by
      cases hgd : g.isDeclaration with
      | true => exact Func.verify_of_isDeclaration hgd
      | false => exact (hq.settles_of_defined hids hg hgd).verified _ (.refl _)
    settled := by
      rw [heq']
      exact pl.runAll_of_settles ids' fun j hj => by
        obtain ⟨g, hg, hgd⟩ := (hids' j).mp hj
        exact ⟨g, hg, hq.settles_of_defined hids hg hgd⟩
    runs := ⟨f, g, hf, hg, hruns rfl _ _ rfl (.refl _)⟩ }

end Pipeline

/-! ## Functions that passes can rely on -/

namespace Func.Linked

theorem usesListed (h : f.Linked) : f.UsesListed := fun j _ b hb => (h.owner_iff j b).mp hb

theorem resolves (h : f.Linked) (htys : ∀ t ∈ f.tys, t < tt.size) : f.Resolves tt := by
  refine ⟨htys, fun k hk i hi => ?_⟩
  obtain ⟨b, hb⟩ := List.mem_iff_getElem?.mp hk
  rw [Array.getElem?_toList] at hb
  exact h.lt_of_mem (b := b) (by simpa [body, block, hb] using hi)

end Func.Linked

/-- A definition without calls that is sound, whose blocks and instructions agree on what belongs to
what, and whose slots are not too large. -/
structure Func.Sturdy (f : Func) (tt : TypeTable) : Prop where
  defined : f.isDeclaration = false
  sound : f.Sound tt
  linked : f.Linked
  callFree : f.CallFree
  fits : f.padStuck tt = false

theorem Func.Sturdy.extends (h : f.Sturdy tt) (hc : tt.Closed) (he : tt.Extends tt') :
    f.Sturdy tt' where
  defined := h.defined
  sound := h.sound.extends he
  linked := h.linked
  callFree := h.callFree
  fits := Padding.padStuck_extends he hc h.sound.wellTyped h.fits

namespace Func.Sturdy

theorem verify_extends (h : f.Sturdy tt) (he : tt.Extends tt') : f.verify tt' = .ok () :=
  (h.sound.extends he).verify_eq_ok

theorem orderly (h : f.Sturdy tt) : f.Orderly (· ∈ f.layout) :=
  h.sound.wellFormed.orderly h.callFree

/-- The function runs the same in programs with more types. -/
theorem runsLike_self (h : f.Sturdy p.types) (hc : p.types.Closed) (he : p.types.Extends q.types)
    (ok : List Datum → Memory → Prop) : p.RunsLike f q f ok :=
  Program.runsLike_of_mirrors h.orderly h.orderly he hc
    (Padding.mirrors_self f (h.linked.resolves h.sound.tys_lt)) ok

/-- A pipeline that has nothing to do finishes a function. -/
theorem finishes_of_idle (h : f.Sturdy tt) (hc : tt.Closed) (hidle : pl.Idle tt f) :
    pl.Finishes tt f (f.KeepsRuns tt ok) := by
  intro P id hf he _
  obtain ⟨hresult, hw⟩ := pl.run_of_idle hf h.defined (hidle.mono he)
  have hext := he.trans hw.types_extend
  refine ⟨f, false, hresult, hw, ⟨h.defined, fun tt' ht => h.verify_extends (hext.trans ht),
    hidle.mono hext⟩, ?_⟩
  rintro p q rfl hq
  exact h.runsLike_self hc (hext.trans hq) ok

/-- A pipeline that starts with padding finishes an interwoven nest: the other passes find nothing to
do before and after. -/
theorem finishes_interwoven (h : f.Sturdy tt) (hc : tt.Closed) {b : BlockId}
    (hi : f.Interwoven b) {rest : List Pass} (hpl : pl.passes = .padSlots :: rest)
    (hrest : ∀ pass ∈ rest, pass = .fuseLoops ∨ ∃ config, pass = .vectorize config) :
    pl.Finishes tt f (f.KeepsRuns tt ok) := by
  intro P id hf he hcP
  have hP := h.extends hc he
  obtain ⟨slots, hpad⟩ := Padding.widens_padSlots hP.sound.wellFormed hP.sound.wellTyped hcP
    h.linked.nodup_liveInsts
  have hwf := hpad.wellFormed'
  have hu := hpad.usesListed h.linked.usesListed
  have hinter := hpad.interwoven hi
  have hdefined : (f.padSlots P.types).func.isDeclaration = false :=
    isDeclaration_of_live hinter.live
  have hv : ∀ tt', (f.padSlots P.types).types.Extends tt' →
      (f.padSlots P.types).func.verify tt' = .ok () := fun tt' ht =>
    (verify_eq_ok_iff hdefined).mpr
      ⟨hwf, hpad.wellTyped_extends hP.sound.wellTyped hP.sound.tys_lt ht⟩
  have hidle : pl.Idle (f.padSlots P.types).types (f.padSlots P.types).func := by
    intro pass hpass
    rw [hpl, List.mem_cons] at hpass
    rcases hpass with rfl | hpass
    · exact hpad.padSlots_idle hP.sound.wellTyped
        (hpad.wellTyped' hP.sound.wellTyped hP.sound.tys_lt) hP.fits
    · rcases hrest pass hpass with rfl | ⟨config, rfl⟩
      · exact hinter.fuseLoops_idle hv hu
      · exact hinter.vectorize_idle hwf hu config
  have hsplit : pl.passes = [] ++ .padSlots :: rest := hpl
  obtain ⟨c, hresult, hw, htypes⟩ := pl.run_of_single hsplit hf h.defined nofun hP.fits hidle
  refine ⟨_, c, hresult, hw, ⟨hdefined, fun tt' ht => hv tt' (htypes.trans ht),
    hidle.mono htypes⟩, ?_⟩
  rintro p q rfl hq
  exact (h.runsLike_self hc he ok).trans (Program.runsLike_of_mirrors h.orderly
    (hwf.orderly (hpad.callFree h.callFree)) (hw.types_extend.trans hq) hcP
    (hpad.mirrors_extends hP.sound.wellTyped (htypes.trans hq)) ok)

end Func.Sturdy

/-! ## Functions for the vectorizer alone -/

/-- A function with no stack slot and no loop in a loop: only the vectorizer can have something to
do. -/
structure Func.Plain (f : Func) : Prop where
  slotless : f.liveInsts.any (fun i => (f.op i).isSlot) = false
  flat : ∀ i ∈ (LoopForest.forest (.ofFunc f)).ids, (LoopForest.forest (.ofFunc f)).parent? i = none

namespace Func.Plain

variable {config : VectorConfig}

theorem not_slot (h : f.Plain) {i : InstId} (hi : i ∈ f.liveInsts) (t : TyId) (a : Nat) :
    f.op i ≠ .alloca t a :=
  Op.isSlot_eq_false.mp (by simpa using List.any_eq_false.mp h.slotless i hi) t a

theorem padSlots_passive (h : f.Plain) (tt : TypeTable) : Pass.padSlots.Passive tt f := by
  have hcand : Padding.candidates tt f = [] := by
    refine List.eq_nil_iff_forall_not_mem.mpr fun c hc => ?_
    obtain ⟨hi, a, hop, -⟩ := Padding.mem_candidates.mp hc
    exact h.not_slot hi _ _ hop
  refine ⟨Padding.padStuck_eq_false_iff.mpr fun i hi t a hop => absurd hop (h.not_slot hi t a), ?_, ?_⟩
  · simp [Pass.apply, Func.padSlots, hcand, Padding.planSlots]
  · simp [Pass.apply, Func.padSlots, hcand, Padding.planSlots]

theorem not_nests (h : f.Plain) (o i : LoopId) : ¬ Fusion.Nests f o i := fun hn => by
  cases (h.flat i hn.inner_mem).symm.trans hn.parent_eq

theorem fuseLoops_passive (h : f.Plain) (tt : TypeTable) : Pass.fuseLoops.Passive tt f where
  unstuck := by
    change f.fuseStuck tt = false
    rw [Func.fuseStuck, Fusion.sweepStuck]
    split
    · rfl
    · rename_i o i hc
      exact absurd (Fusion.candidate?_first hc).1 (h.not_nests o i)
  unchanged := (Fusion.fuseLoops_eq tt f).2.trans
    (Fusion.sweep_of_refused (fun o i hn => absurd hn (h.not_nests o i)) _ _).2
  types_eq := rfl

/-- The basic level leaves a plain function alone, before and behind any other pass. -/
theorem basic (h : f.Plain) (tt : TypeTable) :
    ∀ pass ∈ OptLevel.basic.pipeline.passes, pass.Passive tt f := by
  intro pass hpass
  rcases List.mem_pair.mp hpass with rfl | rfl
  · exact h.padSlots_passive tt
  · exact h.fuseLoops_passive tt

theorem idle_basic (h : f.Plain) : OptLevel.basic.pipeline.Idle tt f := fun pass hpass =>
  ⟨fun tt' _ => (h.basic tt' pass hpass).unstuck, fun tt' _ => (h.basic tt' pass hpass).unchanged⟩

theorem idle_vectorize (h : f.Plain) (hvec : (Pass.vectorize config).Idle tt f) :
    Pipeline.Idle ⟨OptLevel.basic.pipeline.passes ++ [.vectorize config]⟩ tt f := by
  intro pass hpass
  rcases List.mem_append.mp hpass with hpass | hpass
  · exact h.idle_basic pass hpass
  · exact List.mem_singleton.mp hpass ▸ hvec

/-- The basic level and the vectorizer finish a plain function, if the vectorizer makes a sound and
plain function and leaves nothing to do. -/
theorem run_vectorizing (h : f.Plain) (hf : p.func? id = some f) (hd : f.isDeclaration = false)
    (hstuck : f.vectorizeStuck config p.types = false)
    (hfunc : (f.vectorize config p.types).func = g) (hg : g.Plain) (hgd : g.isDeclaration = false)
    (hsound : g.Sound (f.vectorize config p.types).types)
    (hidle : (Pass.vectorize config).Idle (f.vectorize config p.types).types g) :
    let pl : Pipeline := ⟨OptLevel.basic.pipeline.passes ++ [.vectorize config]⟩
    ∃ c, (pl.run p id).result = .ok c ∧ Worked id f g c p (pl.run p id).program ∧
      pl.Settles (pl.run p id).program.types g ∧
      (f.vectorize config p.types).types.Extends (pl.run p id).program.types := by
  intro pl
  have hall : pl.Idle (f.vectorize config p.types).types g := hg.idle_vectorize hidle
  subst hfunc
  have hsplit : pl.passes = OptLevel.basic.pipeline.passes ++ .vectorize config :: [] := rfl
  obtain ⟨c, hresult, hw, hext⟩ := pl.run_of_single hsplit hf hd (h.basic p.types) hstuck hall
  exact ⟨c, hresult, hw, ⟨hgd, fun tt' ht => (hsound.extends (hext.trans ht)).verify_eq_ok,
    hall.mono hext⟩, hext⟩

end Func.Plain

end LoopNest
