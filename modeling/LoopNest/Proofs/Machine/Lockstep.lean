import LoopNest.Proofs.Machine.Runs
import Mathlib.Tactic.Tauto

/-!
# Two runs in lockstep

A run is determined by where it starts (`Visit.functional`), and it depends on little of
that: on the values of the operands that are used before they are computed, and on the
regions that are read.  `Straight.lockstep` runs straight code a second time, from another
snapshot that agrees on these, and finds the same chunks written.

A `Segment` is a piece of an execution that stays inside some blocks.
-/

namespace LoopNest

/-! ## Determinism -/

section

variable {tt : TypeTable} {value : Operand → Option Datum} {tyOf : Operand → TyId} {ty : TyId}

theorem Computes.functional {op : Op} {rs rs₁ rs₂ : Array Region} {d₁ d₂ : Datum}
    {δ₁ δ₂ : List Chunk} (h₁ : Computes tt value tyOf ty op rs d₁ δ₁ rs₁)
    (h₂ : Computes tt value tyOf ty op rs d₂ δ₂ rs₂) : d₁ = d₂ ∧ δ₁ = δ₂ ∧ rs₁ = rs₂ := by
  cases h₁ with
  | pure hp₁ =>
    cases h₂ with
    | pure hp₂ =>
      rw [hp₁] at hp₂
      exact ⟨Option.some.inj hp₂, rfl, rfl⟩
    | alloca => cases hp₁
    | load _ _ => cases hp₁
    | store _ _ _ _ => cases hp₁
  | alloca =>
    cases h₂ with
    | pure hp₂ => cases hp₂
    | alloca => exact ⟨rfl, rfl, rfl⟩
  | load hp₁ hl₁ =>
    cases h₂ with
    | pure hp₂ => cases hp₂
    | load hp₂ hl₂ =>
      rw [hp₁] at hp₂
      cases hp₂
      rw [hl₁] at hl₂
      exact ⟨Except.ok.inj hl₂, rfl, rfl⟩
  | store hp₁ hv₁ hc₁ _ =>
    cases h₂ with
    | pure hp₂ => cases hp₂
    | store hp₂ hv₂ hc₂ _ =>
      rw [hp₁] at hp₂
      cases hp₂
      rw [hv₁] at hv₂
      cases hv₂
      rw [hc₁] at hc₂
      cases hc₂
      exact ⟨rfl, rfl, rfl⟩

variable {f : Func} {args : List Datum}

theorem Straight.functional {is : List InstId} {s s₁ : Snapshot} {δ₁ : List Chunk}
    (h₁ : Straight tt f args is s δ₁ s₁) : ∀ {s₂ : Snapshot} {δ₂ : List Chunk},
    Straight tt f args is s δ₂ s₂ → δ₁ = δ₂ ∧ s₁ = s₂ := by
  induction h₁ with
  | nil =>
    intro s₂ δ₂ h₂
    cases h₂
    exact ⟨rfl, rfl⟩
  | cons hc₁ _ ih =>
    intro s₂ δ₂ h₂
    cases h₂ with
    | cons hc₂ hr₂ =>
      obtain ⟨rfl, rfl, rfl⟩ := hc₁.functional hc₂
      obtain ⟨rfl, rfl⟩ := ih hr₂
      exact ⟨rfl, rfl⟩

theorem Visit.functional {source : Option BlockId} {b : BlockId} {s s₁ s₂ : Snapshot}
    {δ₁ δ₂ : List Chunk} {x₁ x₂ : Next} (h₁ : Visit tt f args source b s δ₁ s₁ x₁)
    (h₂ : Visit tt f args source b s δ₂ s₂ x₂) : δ₁ = δ₂ ∧ s₁ = s₂ ∧ x₁ = x₂ := by
  obtain ⟨rfl, rfl⟩ := h₁.straight.functional h₂.straight
  obtain ⟨t, ht, hl₁⟩ := h₁.leaves
  obtain ⟨t', ht', hl₂⟩ := h₂.leaves
  rw [ht] at ht'
  cases ht'
  exact ⟨rfl, rfl, hl₁.functional hl₂⟩

end

/-! ## Segments -/

section

variable (tt : TypeTable) (f : Func) (args : List Datum)

/-- Visits of blocks of a kind, up to the entry of a block, with the chunks written and the
number of instructions executed. -/
inductive Segment (ok : BlockId → Prop) : Option BlockId → BlockId → Snapshot → List Chunk →
    Option BlockId → BlockId → Snapshot → Nat → Prop where
  /-- No visit. -/
  | refl {source : Option BlockId} {b : BlockId} {s : Snapshot} :
      Segment ok source b s [] source b s 0
  /-- A visit and the rest. -/
  | step {source source' : Option BlockId} {b b' c : BlockId} {s s₁ s' : Snapshot}
      {δ δ' : List Chunk} {n : Nat} : ok b → Visit tt f args source b s δ s₁ (.goto c) →
      Segment ok (some b) c s₁ δ' source' b' s' n →
      Segment ok source b s (δ ++ δ') source' b' s' (f.cost b + n)

end

section

variable {tt : TypeTable} {f : Func} {args : List Datum} {ok : BlockId → Prop}

/-- An execution goes along every segment from its start. -/
theorem Segment.advance {source source' : Option BlockId} {b b' : BlockId} {s s' : Snapshot}
    {δ : List Chunk} {k : Nat} (h : Segment tt f args ok source b s δ source' b' s' k) :
    ∀ {d : Datum} {rs : Array Region} {n : Nat}, Executes tt f args source b s d rs n →
    ∃ n', n = k + n' ∧ Executes tt f args source' b' s' d rs n' := by
  induction h with
  | refl => exact fun hex => ⟨_, (Nat.zero_add _).symm, hex⟩
  | step _ hv _ ih =>
    intro d rs n hex
    cases hex with
    | ret hv' => cases (hv.functional hv').2.2
    | goto hv' hrest =>
      obtain ⟨rfl, rfl, hx⟩ := hv.functional hv'
      cases hx
      obtain ⟨n', rfl, hex'⟩ := ih hrest
      exact ⟨n', (Nat.add_assoc _ _ _).symm, hex'⟩

/-- A segment in front of an execution. -/
theorem Segment.executes {source source' : Option BlockId} {b b' : BlockId} {s s' : Snapshot}
    {δ : List Chunk} {k : Nat} (h : Segment tt f args ok source b s δ source' b' s' k)
    {d : Datum} {rs : Array Region} {n : Nat} (hex : Executes tt f args source' b' s' d rs n) :
    Executes tt f args source b s d rs (k + n) := by
  induction h with
  | refl =>
    rw [Nat.zero_add]
    exact hex
  | step _ hv _ ih =>
    rw [Nat.add_assoc]
    exact .goto hv (ih hex)

/-- A block that returns leads nowhere. -/
theorem Visit.successors_of_ret {source : Option BlockId} {b : BlockId} {s s' : Snapshot}
    {δ : List Chunk} {d : Datum} (hv : Visit tt f args source b s δ s' (.ret d)) :
    f.successors b = [] := by
  obtain ⟨t, ht, hl⟩ := hv.leaves
  refine List.eq_nil_iff_forall_not_mem.mpr fun c hc => ?_
  rw [Func.mem_successors_iff ht] at hc
  generalize f.op t = op at hl hc
  cases hl <;> exact absurd hc List.not_mem_nil

theorem Visit.mem_successors {source : Option BlockId} {b c : BlockId} {s s' : Snapshot}
    {δ : List Chunk} (hv : Visit tt f args source b s δ s' (.goto c)) : c ∈ f.successors b := by
  obtain ⟨t, ht, hl⟩ := hv.leaves
  exact (Func.mem_successors_iff ht).mpr hl.mem_targets

variable (ok) in
/-- An execution that starts inside some blocks, which are left by one edge only, reaches that
edge. -/
theorem Executes.exists_segment {source : Option BlockId} {b : BlockId} {s : Snapshot} {d : Datum}
    {rs : Array Region} {n : Nat} {last next : BlockId} (h : Executes tt f args source b s d rs n)
    (hret : ∀ x, ok x → f.successors x ≠ [])
    (hnext : ∀ x, ok x → ∀ y ∈ f.successors x, ok y ∨ x = last ∧ y = next) (hb : ok b) :
    ∃ δ s' k n', Segment tt f args ok source b s δ (some last) next s' k ∧
      Executes tt f args (some last) next s' d rs n' ∧ n = k + n' := by
  induction h with
  | ret hv => exact absurd hv.successors_of_ret (hret _ hb)
  | @goto source b c s s' δ d rs n hv hrest ih =>
    rcases hnext b hb c hv.mem_successors with hc | ⟨rfl, rfl⟩
    · obtain ⟨δ', s'', k, n', hseg, hex, rfl⟩ := ih hc
      exact ⟨δ ++ δ', s'', f.cost b + k, n', .step hb hv hseg, hex, (Nat.add_assoc _ _ _).symm⟩
    · exact ⟨δ ++ [], s', f.cost b + 0, n, .step hb hv .refl, hrest, rfl⟩

end

/-! ## Agreement -/

/-- The regions are equally many and equally long, and some of them are the same. -/
def SameOn (R : Nat → Prop) (rs rt : Array Region) : Prop :=
  SameExtents rs rt ∧ ∀ r, R r → rs[r]? = rt[r]?

theorem SameOn.refl (R : Nat → Prop) (rs : Array Region) : SameOn R rs rs :=
  ⟨.refl rs, fun _ _ => rfl⟩

theorem SameOn.symm {R : Nat → Prop} {rs rt : Array Region} (h : SameOn R rs rt) :
    SameOn R rt rs := ⟨h.1.symm, fun r hr => (h.2 r hr).symm⟩

theorem SameOn.trans {R : Nat → Prop} {rs rt ru : Array Region} (h : SameOn R rs rt)
    (h' : SameOn R rt ru) : SameOn R rs ru :=
  ⟨h.1.trans h'.1, fun r hr => (h.2 r hr).trans (h'.2 r hr)⟩

/-- Regions that are the same everywhere are equal. -/
theorem SameOn.eq {R : Nat → Prop} {rs rt : Array Region} (h : SameOn R rs rt) (hr : ∀ r, R r) :
    rs = rt := Array.ext_getElem? fun _ => h.2 _ (hr _)

theorem getElem?_writeChunks_congr : ∀ (cs : List Chunk) {rs rt : Array Region} {r : Nat},
    rs[r]? = rt[r]? → (writeChunks rs cs)[r]? = (writeChunks rt cs)[r]?
  | [], _, _, _, h => h
  | c :: cs, rs, rt, r, h => by
    refine getElem?_writeChunks_congr cs ?_
    rw [getElem?_writeChunk, getElem?_writeChunk, h]

/-- A region that no chunk goes to stays. -/
theorem getElem?_writeChunks_of_ne : ∀ (cs : List Chunk) {rs : Array Region} {r : Nat},
    (∀ c ∈ cs, c.place.region ≠ r) → (writeChunks rs cs)[r]? = rs[r]?
  | [], _, _, _ => rfl
  | c :: cs, rs, r, h => by
    rw [writeChunks_cons, getElem?_writeChunks_of_ne cs fun x hx => h x (List.mem_cons_of_mem _ hx),
      getElem?_writeChunk, if_neg (h c List.mem_cons_self)]

/-- Chunks for different regions are written in any order. -/
theorem writeChunks_comm {rs : Array Region} {cs ds : List Chunk}
    (h : ∀ c ∈ cs, ∀ d ∈ ds, c.place.region ≠ d.place.region) :
    writeChunks (writeChunks rs cs) ds = writeChunks (writeChunks rs ds) cs := by
  refine Array.ext_getElem? fun r => ?_
  by_cases hr : ∃ c ∈ cs, c.place.region = r
  · obtain ⟨c, hc, rfl⟩ := hr
    have hds : ∀ rs : Array Region, (writeChunks rs ds)[c.place.region]? = rs[c.place.region]? :=
      fun rs => getElem?_writeChunks_of_ne ds fun d hd => Ne.symm (h c hc d hd)
    rw [hds]
    exact getElem?_writeChunks_congr cs (hds rs).symm
  · have hcs : ∀ rs : Array Region, (writeChunks rs cs)[r]? = rs[r]? :=
      fun rs => getElem?_writeChunks_of_ne cs fun c hc heq => hr ⟨c, hc, heq⟩
    rw [hcs]
    exact getElem?_writeChunks_congr ds (hcs rs)

theorem SameOn.writeChunks {R : Nat → Prop} {rs rt : Array Region} (h : SameOn R rs rt)
    (cs : List Chunk) : SameOn R (writeChunks rs cs) (writeChunks rt cs) :=
  ⟨((sameExtents_writeChunks cs rs).symm.trans h.1).trans (sameExtents_writeChunks cs rt),
    fun r hr => getElem?_writeChunks_congr cs (h.2 r hr)⟩

/-- Writing elsewhere keeps regions the same. -/
theorem sameOn_writeChunks {R : Nat → Prop} (rs : Array Region) {cs : List Chunk}
    (h : ∀ c ∈ cs, ¬ R c.place.region) : SameOn R rs (writeChunks rs cs) :=
  ⟨sameExtents_writeChunks cs rs, fun _ hr =>
    (getElem?_writeChunks_of_ne cs fun c hc heq => h c hc (heq ▸ hr)).symm⟩

theorem SameOn.push {R : Nat → Prop} {rs rt : Array Region} (h : SameOn R rs rt) (a : Region) :
    SameOn R (rs.push a) (rt.push a) := by
  have hpush : ∀ r : Nat, rs[r]? = rt[r]? → (rs.push a)[r]? = (rt.push a)[r]? := by
    intro r hr
    rw [Array.getElem?_push, Array.getElem?_push, h.1.1, hr]
  refine ⟨⟨by simp [h.1.1], fun r => ?_⟩, fun r hr => hpush r (h.2 r hr)⟩
  have := h.1.2 r
  unfold extentOf at this ⊢
  rw [Array.getElem?_push, Array.getElem?_push, h.1.1]
  split
  · rfl
  · exact this

section

variable {tt : TypeTable} {value value' : Operand → Option Datum} {tyOf : Operand → TyId} {ty : TyId}

theorem pureResult_congr {op : Op} (h : ∀ v ∈ op.operands, value v = value' v) :
    pureResult tt value tyOf ty op = pureResult tt value' tyOf ty op := by
  cases op <;> simp_all [pureResult, Op.operands]

/-- An instruction does the same when its operands and what it reads are the same. -/
theorem Computes.lockstep {op : Op} {rs rs' rt : Array Region} {d : Datum} {δ : List Chunk}
    {R : Nat → Prop} (h : Computes tt value tyOf ty op rs d δ rs')
    (hops : ∀ v ∈ op.operands, value v = value' v) (hrs : SameOn R rs rt)
    (hload : ∀ p q, op = .load p → value p = some (.ptr q) → R q.region) :
    ∃ rt', Computes tt value' tyOf ty op rt d δ rt' ∧ SameOn R rs' rt' := by
  cases h with
  | pure hp => exact ⟨rt, .pure (pureResult_congr hops ▸ hp), hrs⟩
  | alloca => exact ⟨_, hrs.1.1 ▸ .alloca, hrs.push _⟩
  | @load p q _ _ hp hl =>
    refine ⟨rt, .load (hops p (by simp [Op.operands]) ▸ hp) ?_, hrs⟩
    rw [← hl]
    exact (Memory.load_congr_region hrs.1.1 (hrs.2 _ (hload p q rfl hp))).symm
  | @store v p _ _ _ _ hp hv hc hf =>
    refine ⟨_, .store (hops p (by simp [Op.operands]) ▸ hp) (hops v (by simp [Op.operands]) ▸ hv) hc
      fun c hc => hrs.1.fits.mp (hf c hc), hrs.writeChunks _⟩

end

section

variable {tt : TypeTable} {f : Func} {args : List Datum} {ok : BlockId → Prop}

/-- The values of some instructions are the same. -/
def Values.Agree (S : InstId → Prop) (ρ σ : Values) : Prop := ∀ j, S j → ρ j = σ j

theorem Values.Agree.value {S : InstId → Prop} {ρ σ : Values} (h : ρ.Agree S σ) {v : Operand}
    (hv : ∀ j, v = .inst j → S j) : f.value tt args ρ v = f.value tt args σ v := by
  cases v with
  | inst j => exact h j (hv j rfl)
  | param k => rfl
  | const c => rfl

theorem Values.Agree.set {S : InstId → Prop} {ρ σ : Values} (h : ρ.Agree S σ) (i : InstId)
    (d : Datum) : (ρ.set i d).Agree (fun j => S j ∨ j = i) (σ.set i d) := by
  intro j hj
  by_cases hji : j = i
  · subst hji
    simp
  · rw [Values.set_of_ne hji, Values.set_of_ne hji]
    exact h j (hj.resolve_right hji)

theorem Straight.values_of_not_mem {is : List InstId} {s s' : Snapshot} {δ : List Chunk}
    (h : Straight tt f args is s δ s') {j : InstId} (hj : j ∉ is) :
    s'.values j = s.values j := by
  induction h with
  | nil => rfl
  | cons _ _ ih =>
    rw [List.mem_cons, not_or] at hj
    rw [ih hj.2]
    exact Values.set_of_ne hj.1

/-- The value of an instruction after straight code is what it computed last, with operands
from outside the code as they were before. -/
theorem Straight.computes_of_mem {is : List InstId} {s s' : Snapshot} {δ : List Chunk}
    (h : Straight tt f args is s δ s') {i : InstId} (hi : i ∈ is) :
    ∃ (s₁ : Snapshot) (d : Datum) (δ₁ : List Chunk) (rs : Array Region),
      Computes tt (f.value tt args s₁.values) f.tyOf (f.inst i).ty (f.op i) s₁.regions
        d δ₁ rs ∧ s'.values i = some d ∧ ∀ j, j ∉ is → s₁.values j = s.values j := by
  induction h with
  | nil => exact absurd hi List.not_mem_nil
  | @cons k is s s' d δ δ' rs hc hrest ih =>
    by_cases hmem : i ∈ is
    · obtain ⟨s₁, e, δ₁, rs₁, hc₁, he, hv⟩ := ih hmem
      refine ⟨s₁, e, δ₁, rs₁, hc₁, he, fun j hj => ?_⟩
      rw [List.mem_cons, not_or] at hj
      rw [hv j hj.2]
      exact Values.set_of_ne hj.1
    · obtain rfl := (List.mem_cons.mp hi).resolve_right hmem
      refine ⟨s, d, δ, rs, hc, ?_, fun j _ => rfl⟩
      rw [hrest.values_of_not_mem hmem]
      exact Values.set_self _ _ _

/-- A property of snapshots that each of some instructions keeps. -/
def Keeps (tt : TypeTable) (f : Func) (args : List Datum) (is : List InstId)
    (P : Snapshot → Prop) : Prop :=
  ∀ i ∈ is, ∀ s, P s → ∀ d δ rs,
    Computes tt (f.value tt args s.values) f.tyOf (f.inst i).ty (f.op i) s.regions d δ rs →
    P ⟨s.values.set i d, rs⟩

theorem Straight.keeps {is : List InstId} {s s' : Snapshot} {δ : List Chunk} {P : Snapshot → Prop}
    (h : Straight tt f args is s δ s') (hP : Keeps tt f args is P) (hs : P s) : P s' := by
  induction h with
  | nil => exact hs
  | cons hc _ ih =>
    exact ih (fun j hj => hP j (List.mem_cons_of_mem _ hj))
      (hP _ List.mem_cons_self _ hs _ _ _ hc)

/-- Straight code does the same from a snapshot that agrees on what is used before it is
computed, and on the regions that are read. -/
theorem Straight.lockstep {is : List InstId} {s s' : Snapshot} {δ : List Chunk}
    {P : Snapshot → Prop} {R : Nat → Prop} (h : Straight tt f args is s δ s')
    (hP : Keeps tt f args is P) (hs : P s)
    (hload : ∀ i ∈ is, ∀ p, f.op i = .load p → ∀ s, P s → ∀ q,
      f.value tt args s.values p = some (.ptr q) → R q.region) :
    ∀ {S : InstId → Prop} {t : Snapshot}, s.values.Agree S t.values →
    (∀ pre i post, is = pre ++ i :: post → ∀ j, Operand.inst j ∈ (f.op i).operands →
      S j ∨ j ∈ pre) → SameOn R s.regions t.regions →
    ∃ t', Straight tt f args is t δ t' ∧ s'.values.Agree (fun j => S j ∨ j ∈ is) t'.values ∧
      SameOn R s'.regions t'.regions := by
  induction h with
  | nil =>
    intro S t hag _ hrs
    exact ⟨t, .nil, fun j hj => hag j (hj.resolve_right List.not_mem_nil), hrs⟩
  | @cons i is s s' d δ δ' rs hc _ ih =>
    intro S t hag hops hrs
    have hval : ∀ v ∈ (f.op i).operands,
        f.value tt args s.values v = f.value tt args t.values v := by
      intro v hv
      refine hag.value fun j hj => ?_
      subst hj
      exact (hops [] i is rfl j hv).resolve_right List.not_mem_nil
    obtain ⟨rt, hc', hrs'⟩ := hc.lockstep hval hrs fun p q hop hq =>
      hload i List.mem_cons_self p hop s hs q hq
    have hops' : ∀ pre k post, is = pre ++ k :: post → ∀ j, Operand.inst j ∈ (f.op k).operands →
        (S j ∨ j = i) ∨ j ∈ pre := by
      intro pre k post heq j hj
      have := hops (i :: pre) k post (by rw [heq]; rfl) j hj
      rw [List.mem_cons] at this
      tauto
    obtain ⟨t', hst, hag', hrs''⟩ := ih (fun j hj => hP j (List.mem_cons_of_mem _ hj))
      (hP i List.mem_cons_self s hs _ _ _ hc) (fun j hj => hload j (List.mem_cons_of_mem _ hj))
      (t := ⟨t.values.set i d, rt⟩) (hag.set i d) hops' hrs'
    refine ⟨t', .cons hc' hst, fun j hj => hag' j ?_, hrs''⟩
    simp only [List.mem_cons] at hj
    tauto

/-- Without stack slots, the regions change by the chunks alone. -/
theorem Straight.regions_eq {is : List InstId} {s s' : Snapshot} {δ : List Chunk}
    (h : Straight tt f args is s δ s') (hal : f.SlotFree is) :
    s'.regions = writeChunks s.regions δ := by
  induction h with
  | nil => rfl
  | @cons i is s s' d δ δ' rs hc _ ih =>
    rw [ih fun j hj => hal j (List.mem_cons_of_mem _ hj), writeChunks_append]
    have hi := hal i List.mem_cons_self
    generalize f.op i = op at hc hi
    cases hc with
    | pure _ => rfl
    | alloca => exact absurd rfl (hi _ _)
    | load _ _ => rfl
    | store _ _ _ _ => rfl

/-- Without stack slots, the chunks fit from the start. -/
theorem Straight.fits {is : List InstId} {s s' : Snapshot} {δ : List Chunk}
    (h : Straight tt f args is s δ s') (hal : f.SlotFree is) :
    ∀ c ∈ δ, c.Fits s.regions := by
  induction h with
  | nil => exact fun c hc => absurd hc List.not_mem_nil
  | @cons i is s s' d δ δ' rs hc _ ih =>
    have hi := hal i List.mem_cons_self
    have hrest := ih fun j hj => hal j (List.mem_cons_of_mem _ hj)
    intro c hmem
    generalize f.op i = op at hc hi
    cases hc with
    | pure _ => exact hrest c hmem
    | alloca => exact absurd rfl (hi _ _)
    | load _ _ => exact hrest c hmem
    | store _ _ _ hf =>
      rcases List.mem_append.mp hmem with hmem | hmem
      · exact hf c hmem
      · exact (sameExtents_writeChunks δ s.regions).fits.mpr (hrest c hmem)

theorem Visit.values_of_not_mem {source : Option BlockId} {b : BlockId} {s s' : Snapshot}
    {δ : List Chunk} {x : Next} (hv : Visit tt f args source b s δ s' x) {j : InstId}
    (hp : j ∉ f.phis b) (hc : j ∉ f.code b) : s'.values j = s.values j := by
  rw [hv.straight.values_of_not_mem hc]
  exact if_neg hp

theorem Visit.values_of_not_mem_body {source : Option BlockId} {b : BlockId} {s s' : Snapshot}
    {δ : List Chunk} {x : Next} (hv : Visit tt f args source b s δ s' x) {j : InstId}
    (hj : j ∉ f.body b) : s'.values j = s.values j :=
  hv.values_of_not_mem (fun hm => hj (Func.mem_body_of_phis hm))
    fun hm => hj (Func.mem_body_of_code hm)

/-- A segment changes the values of its blocks only. -/
theorem Segment.values_of_not_mem {source source' : Option BlockId} {b b' : BlockId}
    {s s' : Snapshot} {δ : List Chunk} {n : Nat}
    (h : Segment tt f args ok source b s δ source' b' s' n) {j : InstId}
    (hj : ∀ b, ok b → j ∉ f.body b) : s'.values j = s.values j := by
  induction h with
  | refl => rfl
  | step hb hv _ ih => rw [ih, hv.values_of_not_mem_body (hj _ hb)]

theorem Segment.regions_eq {source source' : Option BlockId} {b b' : BlockId} {s s' : Snapshot}
    {δ : List Chunk} {n : Nat} (h : Segment tt f args ok source b s δ source' b' s' n)
    (hal : ∀ b, ok b → f.SlotFree (f.code b)) :
    s'.regions = writeChunks s.regions δ := by
  induction h with
  | refl => rfl
  | step hb hv _ ih => rw [ih, hv.straight.regions_eq (hal _ hb), writeChunks_append]

theorem Segment.fits {source source' : Option BlockId} {b b' : BlockId} {s s' : Snapshot}
    {δ : List Chunk} {n : Nat} (h : Segment tt f args ok source b s δ source' b' s' n)
    (hal : ∀ b, ok b → f.SlotFree (f.code b)) :
    ∀ c ∈ δ, c.Fits s.regions := by
  induction h with
  | refl => exact fun c hc => absurd hc List.not_mem_nil
  | @step _ _ _ _ _ s _ _ δ _ _ hb hv _ ih =>
    intro c hc
    rcases List.mem_append.mp hc with hc | hc
    · exact hv.straight.fits (hal _ hb) c hc
    · have := ih c hc
      rw [hv.straight.regions_eq (hal _ hb)] at this
      exact (sameExtents_writeChunks δ s.regions).fits.mpr this

end

/-! ## Visits in lockstep -/

/-- The block has the same phis, code and place of the terminator in both functions, and the
operands of the code mean the same. -/
structure Func.SameCode (tt : TypeTable) (f F : Func) (b : BlockId) : Prop where
  phis_eq : F.phis b = f.phis b
  code_eq : F.code b = f.code b
  terminator?_eq : F.terminator? b = f.terminator? b
  inst_eq : ∀ i ∈ f.code b, F.op i = f.op i ∧ (F.inst i).ty = (f.inst i).ty
  tyOf_eq : ∀ i ∈ f.code b, ∀ v ∈ (f.op i).operands, F.tyOf v = f.tyOf v
  value_eq : ∀ i, i ∈ f.code b ∨ f.terminator? b = some i → ∀ v ∈ (f.op i).operands,
    ∀ args ρ, F.value tt args ρ v = f.value tt args ρ v

/-- What a block uses is computed in it before, or is one of some instructions. -/
structure Func.ReadsFrom (f : Func) (b : BlockId) (S : InstId → Prop) : Prop where
  code : ∀ pre i post, f.code b = pre ++ i :: post → ∀ j, Operand.inst j ∈ (f.op i).operands →
    S j ∨ j ∈ f.phis b ∨ j ∈ pre
  terminator : ∀ t, f.terminator? b = some t → ∀ j, Operand.inst j ∈ (f.op t).operands →
    S j ∨ j ∈ f.phis b ∨ j ∈ f.code b

section

variable {tt : TypeTable} {f F : Func} {args : List Datum} {b : BlockId}

theorem pureResult_congr_tyOf {value : Operand → Option Datum} {tyOf tyOf' : Operand → TyId}
    {ty : TyId} {op : Op} (h : ∀ v ∈ op.operands, tyOf' v = tyOf v) :
    pureResult tt value tyOf' ty op = pureResult tt value tyOf ty op := by
  cases op <;> simp_all [pureResult, Op.operands]

theorem Computes.congr {value value' : Operand → Option Datum} {tyOf tyOf' : Operand → TyId}
    {ty : TyId} {op : Op} {rs rs' : Array Region} {d : Datum} {δ : List Chunk}
    (h : Computes tt value tyOf ty op rs d δ rs') (hv : ∀ v ∈ op.operands, value' v = value v)
    (ht : ∀ v ∈ op.operands, tyOf' v = tyOf v) : Computes tt value' tyOf' ty op rs d δ rs' := by
  cases h with
  | pure hp =>
    refine .pure ?_
    rw [pureResult_congr_tyOf ht, pureResult_congr hv]
    exact hp
  | alloca => exact .alloca
  | @load p _ _ _ hp hl =>
    refine .load ?_ hl
    rw [hv p (by simp [Op.operands])]
    exact hp
  | @store v p q e _ _ hp hd hc hf =>
    have hp' : value' p = some (.ptr q) := (hv p (by simp [Op.operands])).trans hp
    have hd' : value' v = some e := (hv v (by simp [Op.operands])).trans hd
    refine .store hp' hd' ?_ hf
    rw [ht v (by simp [Op.operands])]
    exact hc

/-- Code runs the same in another function where it stands and its operands mean the same. -/
theorem Straight.congr {is : List InstId} {s s' : Snapshot} {δ : List Chunk}
    (h : Straight tt f args is s δ s')
    (hinst : ∀ i ∈ is, F.op i = f.op i ∧ (F.inst i).ty = (f.inst i).ty)
    (hty : ∀ i ∈ is, ∀ v ∈ (f.op i).operands, F.tyOf v = f.tyOf v)
    (hval : ∀ i ∈ is, ∀ v ∈ (f.op i).operands, ∀ ρ, F.value tt args ρ v = f.value tt args ρ v) :
    Straight tt F args is s δ s' := by
  induction h with
  | nil => exact .nil
  | @cons i is s s' d δ δ' rs hc _ ih =>
    refine .cons ?_ (ih (fun j hj => hinst j (List.mem_cons_of_mem _ hj))
      (fun j hj => hty j (List.mem_cons_of_mem _ hj)) fun j hj => hval j (List.mem_cons_of_mem _ hj))
    obtain ⟨hop, hi⟩ := hinst i List.mem_cons_self
    rw [hop, hi]
    exact hc.congr (fun v hv => hval i List.mem_cons_self v hv s.values) (hty i List.mem_cons_self)

/-- Where a terminator leads depends on its operands. -/
theorem Leaves.congr {value value' : Operand → Option Datum} {op : Op} {x : Next}
    (h : Leaves value op x) (hv : ∀ v ∈ op.operands, value' v = value v) : Leaves value' op x := by
  cases h with
  | br => exact .br
  | @condBr c _ _ _ hc =>
    refine .condBr ?_
    rw [hv c (by simp [Op.operands])]
    exact hc
  | retVoid => exact .retVoid
  | @ret v _ hd =>
    refine .ret ?_
    rw [hv v (by simp [Op.operands])]
    exact hd

/-- Lockstep up to the end of the code of a block. -/
theorem Visit.lockstep_code {source source' : Option BlockId} {s s' t : Snapshot} {δ : List Chunk}
    {x : Next} {S : InstId → Prop} {R : Nat → Prop} {P : Snapshot → Prop}
    (hv : Visit tt f args source b s δ s' x) (hphis : F.phis b = f.phis b)
    (hinst : ∀ i ∈ f.code b, F.op i = f.op i ∧ (F.inst i).ty = (f.inst i).ty)
    (hty : ∀ i ∈ f.code b, ∀ v ∈ (f.op i).operands, F.tyOf v = f.tyOf v)
    (hval : ∀ i ∈ f.code b, ∀ v ∈ (f.op i).operands, ∀ ρ, F.value tt args ρ v = f.value tt args ρ v)
    (hS : f.ReadsFrom b S) (hag : s.values.Agree S t.values)
    (hphi : ∀ i ∈ f.phis b,
      phiValue tt F args source' t.values i = phiValue tt f args source s.values i)
    (hP : Keeps tt f args (f.code b) P) (hs : P ⟨entered tt f args source b s.values, s.regions⟩)
    (hload : ∀ i ∈ f.code b, ∀ p, f.op i = .load p → ∀ s, P s → ∀ q,
      f.value tt args s.values p = some (.ptr q) → R q.region)
    (hrs : SameOn R s.regions t.regions) :
    ∃ t', (∀ i ∈ F.phis b, (phiValue tt F args source' t.values i).isSome) ∧
      Straight tt F args (f.code b) ⟨entered tt F args source' b t.values, t.regions⟩ δ t' ∧
      s'.values.Agree (fun j => S j ∨ j ∈ f.phis b ∨ j ∈ f.code b) t'.values ∧
      SameOn R s'.regions t'.regions := by
  have hent : (entered tt f args source b s.values).Agree (fun j => S j ∨ j ∈ f.phis b)
      (entered tt F args source' b t.values) := by
    intro j hj
    unfold entered
    rw [hphis]
    by_cases hp : j ∈ f.phis b
    · rw [if_pos hp, if_pos hp, hphi j hp]
    · rw [if_neg hp, if_neg hp]
      exact hag j (hj.resolve_right hp)
  obtain ⟨t', hst, hag', hrs'⟩ := hv.straight.lockstep hP hs hload hent
    (fun pre i post heq j hj => or_assoc.mpr (hS.code pre i post heq j hj))
    (t := ⟨entered tt F args source' b t.values, t.regions⟩) hrs
  refine ⟨t', fun j hj => ?_, hst.congr hinst hty hval, fun j hj => hag' j (or_assoc.mpr hj), hrs'⟩
  rw [hphis] at hj
  rw [hphi j hj]
  exact hv.ready j hj

/-- A visit does the same in the other function, from a snapshot that agrees on what the block
uses and reads, along edges that give the phis the same values. -/
theorem Visit.lockstep {source source' : Option BlockId} {s s' t : Snapshot} {δ : List Chunk}
    {x x' : Next} {S : InstId → Prop} {R : Nat → Prop} {P : Snapshot → Prop}
    (hv : Visit tt f args source b s δ s' x) (hF : f.SameCode tt F b) (hS : f.ReadsFrom b S)
    (hag : s.values.Agree S t.values)
    (hphi : ∀ i ∈ f.phis b,
      phiValue tt F args source' t.values i = phiValue tt f args source s.values i)
    (hP : Keeps tt f args (f.code b) P) (hs : P ⟨entered tt f args source b s.values, s.regions⟩)
    (hload : ∀ i ∈ f.code b, ∀ p, f.op i = .load p → ∀ s, P s → ∀ q,
      f.value tt args s.values p = some (.ptr q) → R q.region)
    (hrs : SameOn R s.regions t.regions)
    (hnext : ∀ i value, f.terminator? b = some i → Leaves value (f.op i) x →
      Leaves value (F.op i) x') :
    ∃ t', Visit tt F args source' b t δ t' x' ∧
      s'.values.Agree (fun j => S j ∨ j ∈ f.phis b ∨ j ∈ f.code b) t'.values ∧
      SameOn R s'.regions t'.regions := by
  obtain ⟨t', hready, hst, hag', hrs'⟩ := hv.lockstep_code hF.phis_eq hF.inst_eq hF.tyOf_eq
    (fun i hi v hv => hF.value_eq i (.inl hi) v hv args) hS hag hphi hP hs hload hrs
  obtain ⟨i, hi, hl⟩ := hv.leaves
  refine ⟨t', ⟨hready, hF.code_eq ▸ hst, i, hF.terminator?_eq.trans hi, ?_⟩, hag', hrs'⟩
  refine hnext i _ hi (hl.congr fun v hvm => ?_)
  rw [hF.value_eq i (.inr hi) v hvm]
  refine (hag'.value fun j hj => ?_).symm
  subst hj
  exact hS.terminator i hi j hvm

end

end LoopNest
