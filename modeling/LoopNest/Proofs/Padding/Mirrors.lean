import LoopNest.Proofs.Machine.Longer
import LoopNest.Proofs.Machine.Steps
import LoopNest.Proofs.Padding.Accepted

/-!
# Runs with padded stack slots

A run of a program is mirrored by one of the program with padded slots.  `Padding.Mirrors` says
what two functions have in common for that.  The frames of the two runs are at the same places
with the same values, up to the names of casts (`FrameMirrors`), and the regions are the same
up to zeros behind those that padded slots made.

Every step is followed by one step, or by two when it executes a padded slot
(`ProgramMirrors.step`), so a run that succeeds is followed to its end (`ProgramMirrors.run`).
-/

namespace LoopNest

namespace Padding

/-- Both functions do the same in the blocks in use, up to the replacement of slots.  Only the
function `f₀` has slots that are replaced. -/
structure Mirrors (tt tt' : TypeTable) (f₀ f g : Func) (slots : List Slot) (used : BlockId → Prop) :
    Prop where
  params_eq : g.params = f.params
  constants_eq : g.constants = f.constants
  layout_eq : g.layout = f.layout
  size_eq : g.insts.size = f.insts.size + 2 * slots.length
  entry_used : ∀ b, f.entry? = some b → used b
  next_used : ∀ b, used b → ∀ i ∈ f.body b, ∀ c ∈ (f.op i).targets, used c
  inst_lt : ∀ b, used b → ∀ i ∈ f.body b, i < f.insts.size
  types_in : f.TypesIn tt used
  phis_eq : ∀ b, used b → g.phis b = f.phis b
  afterPhis_eq : ∀ b, used b →
    g.afterPhis b = (f.afterPhis b).flatMap (expand f.insts.size slots)
  tyOf_eq : ∀ b, used b → ∀ i ∈ f.body b, ∀ v ∈ (f.op i).operands,
    g.tyOf (renameOperand f.insts.size slots v) = f.tyOf v
  old : ∀ b, used b → ∀ i ∈ f.body b, replacement? f.insts.size slots i = none →
    g.op i = (f.op i).mapOperands (renameOperand f.insts.size slots) ∧
      (g.inst i).ty = (f.inst i).ty
  slot : ∀ i a c, replacement? f.insts.size slots i = some (a, c) → f = f₀ ∧
    ∃ t al t' al', f.op i = .alloca t al ∧ IsPadded tt f i ∧ g.op a = .alloca t' al' ∧
      g.op c = .bitcast (.inst a) ∧ tt.paddedSize t ≤ tt'.paddedSize t'

/-- The values of `n` instructions are found under their new names. -/
def Carries (n : Nat) (slots : List Slot) (ρ ρ' : Values) : Prop :=
  ∀ (j : Nat) d, ρ j = some d → j < n ∧ ρ' (rename n slots j) = some d

theorem Carries.set {n : Nat} {slots : List Slot} {ρ ρ' : Values} (h : Carries n slots ρ ρ')
    {i : Nat} (hi : i < n) (d : Datum) :
    Carries n slots (ρ.set i d) (ρ'.set (rename n slots i) d) := by
  intro j e he
  by_cases hji : j = i
  · subst hji
    rw [Values.set_self] at he ⊢
    exact ⟨hi, he⟩
  · rw [Values.set_of_ne hji] at he
    obtain ⟨hj, he⟩ := h j e he
    rw [Values.set_of_ne fun heq => hji (rename_injective hj hi heq)]
    exact ⟨hj, he⟩

/-- New slots are not the new name of an instruction. -/
theorem Carries.set_wide {n : Nat} {slots : List Slot} {ρ ρ' : Values} (h : Carries n slots ρ ρ')
    (k : Nat) (d : Datum) : Carries n slots ρ (ρ'.set (n + 2 * k) d) := by
  intro j e he
  obtain ⟨hj, he⟩ := h j e he
  refine ⟨hj, ?_⟩
  rw [Values.set_of_ne fun heq => ?_]
  · exact he
  · have heq : rename n slots j = n + 2 * k := heq
    rcases rename_cases n slots j with ⟨_, hr⟩ | ⟨l, _, _, _, _, hr⟩ <;> omega

/-- A frame has the arguments and the values of another one, under their new names. -/
structure FrameAgrees (tt tt' : TypeTable) (f₀ : Func) (slots : List Slot)
    (used : BlockId → Prop) (fr fr' : Frame) : Prop where
  funcs : Mirrors tt tt' f₀ fr.func fr'.func slots used
  args_eq : fr'.args = fr.args
  size_eq : fr.results.size = fr.func.insts.size
  size_eq' : fr'.results.size = fr'.func.insts.size
  values : Carries fr.func.insts.size slots fr.values fr'.values

/-- The frames are at the same place of a block. -/
structure FrameMirrors (tt tt' : TypeTable) (f₀ : Func) (slots : List Slot)
    (used : BlockId → Prop) (fr fr' : Frame) : Prop extends
    FrameAgrees tt tt' f₀ slots used fr fr' where
  used_block : used fr.block
  block_eq : fr'.block = fr.block
  rest_mem : ∀ i ∈ fr.rest, i ∈ fr.func.body fr.block
  rest_eq : fr'.rest = fr.rest.flatMap (expand fr.func.insts.size slots)

section

variable {tt tt' : TypeTable} {f₀ f g : Func} {slots : List Slot} {used : BlockId → Prop}
  {fr fr' : Frame} {i : InstId} {rest : List InstId}

theorem rename_of_none {n : Nat} (h : replacement? n slots i = none) : rename n slots i = i := by
  simp [rename, h]

/-- What a phi with renamed operands takes. -/
theorem incoming?_rename {k : Operand → Operand} (hop : g.op i = (f.op i).mapOperands k)
    (q : BlockId) : g.incoming? i q = (f.incoming? i q).map k := by
  unfold Func.incoming?
  rw [hop]
  cases f.op i with
  | phi incoming =>
    simp only [Op.mapOperands, List.find?_map, Option.map_map]
    rfl
  | _ => rfl

namespace FrameAgrees

/-- Renamed operands have the same values. -/
theorem value_rename (h : FrameAgrees tt tt' f₀ slots used fr fr') (ht : tt.Extends tt')
    {v : Operand} {d : Datum} (hv : fr.value tt v = some d) :
    fr'.value tt' (renameOperand fr.func.insts.size slots v) = some d := by
  cases v with
  | inst j => exact (h.values j d hv).2
  | param k =>
    have hk : fr.args[k]? = some d := hv
    simpa only [Frame.value, renameOperand, Func.value, h.args_eq] using hk
  | const c =>
    have hc : fr.func.value tt' fr.args fr.values (.const c) = some d := Func.value_extends ht hv
    simpa only [Frame.value, renameOperand, Func.value, Func.constantValue, h.funcs.constants_eq]
      using hc

theorem mapM_eval (h : FrameAgrees tt tt' f₀ slots used fr fr') (ht : tt.Extends tt') :
    ∀ {vs : List Operand} {ds : List Datum}, vs.mapM (fr.eval tt) = .ok ds →
    (vs.map (renameOperand fr.func.insts.size slots)).mapM (fr'.eval tt') = .ok ds
  | [], _, hds => hds
  | v :: vs, ds, hds => by
    rw [List.mapM_cons, bind_eq_ok_iff] at hds
    obtain ⟨d, hd, hds⟩ := hds
    obtain ⟨ds', hds', heq⟩ := bind_eq_ok_iff.mp hds
    rw [List.map_cons, List.mapM_cons, bind_eq_ok_iff]
    refine ⟨d, Frame.eval_eq_ok.mpr (h.value_rename ht (Frame.eval_eq_ok.mp hd)), ?_⟩
    exact bind_eq_ok_iff.mpr ⟨ds', h.mapM_eval ht hds', heq⟩

/-- Frames of new activations. -/
theorem activate (h : Mirrors tt tt' f₀ f g slots used) (args : List Datum) :
    FrameAgrees tt tt' f₀ slots used (Frame.activate f args) (Frame.activate g args) where
  funcs := h
  args_eq := rfl
  size_eq := (Frame.at_activate f args).size_eq
  size_eq' := (Frame.at_activate g args).size_eq
  values j d hd := by
    rw [(Frame.at_activate f args).values_eq] at hd
    cases hd

/-- Entering a block. -/
theorem enter (h : FrameAgrees tt tt' f₀ slots used fr fr') (ht : tt.Extends tt')
    {source : Option BlockId} {c : BlockId} (hc : used c) {limit limit' n n' k : Nat} {fr₂ : Frame}
    (hn : n ≤ limit) (henter : fr.enter tt limit source c n = (.ok fr₂, k))
    (hlim : n' + (fr.func.phis c).length ≤ limit') :
    ∃ fr₂', fr'.enter tt' limit' source c n' = (.ok fr₂', n' + (fr.func.phis c).length) ∧
      FrameMirrors tt tt' f₀ slots used fr₂ fr₂' := by
  have hphis := h.funcs.phis_eq c hc
  have hlt : ∀ i ∈ fr.func.phis c, i < fr.func.insts.size := fun i hi =>
    h.funcs.inst_lt c hc i (Func.mem_body_of_phis hi)
  have hold : ∀ i ∈ fr.func.phis c, replacement? fr.func.insts.size slots i = none := by
    intro i hi
    cases hr : replacement? fr.func.insts.size slots i with
    | none => rfl
    | some x =>
      obtain ⟨_, t, al, _, _, hop, _⟩ := h.funcs.slot i x.1 x.2 hr
      have := Func.isPhi_of_mem_phis hi
      rw [hop] at this
      cases this
  obtain ⟨_, _, hready, hat⟩ := (Frame.at_self fr h.size_eq).of_enter hlt hn henter
  -- The phis of both functions take the same values.
  have hphi : ∀ i ∈ fr.func.phis c, ∀ d, phiValue tt fr.func fr.args source fr.values i = some d →
      phiValue tt' fr'.func fr'.args source fr'.values i = some d := by
    intro i hi d hd
    obtain ⟨hop, _⟩ := h.funcs.old c hc i (Func.mem_body_of_phis hi) (hold i hi)
    unfold phiValue at hd ⊢
    obtain ⟨v, hsource, hv⟩ := Option.bind_eq_some_iff.mp hd
    obtain ⟨q, rfl, hin⟩ := Option.bind_eq_some_iff.mp hsource
    rw [Option.bind_some, incoming?_rename hop, hin]
    exact h.value_rename ht hv
  have hready' : ∀ i ∈ fr'.func.phis c,
      (phiValue tt' fr'.func fr'.args source fr'.values i).isSome := by
    rw [hphis]
    intro i hi
    obtain ⟨d, hd⟩ := Option.isSome_iff_exists.mp (hready i hi)
    rw [hphi i hi d hd]
    rfl
  have hlt' : ∀ i ∈ fr'.func.phis c, i < fr'.func.insts.size := by
    rw [hphis, h.funcs.size_eq]
    exact fun i hi => Nat.lt_of_lt_of_le (hlt i hi) (Nat.le_add_right _ _)
  rw [← hphis] at hlim ⊢
  obtain ⟨fr₂', henter', hat'⟩ := (Frame.at_self fr' h.size_eq').enter n' hlt' hlim hready'
  refine ⟨fr₂', henter', ⟨?_, ?_, ?_, ?_, ?_⟩, ?_, ?_, ?_, ?_⟩
  · rw [hat.func_eq, hat'.func_eq]
    exact h.funcs
  · rw [hat.args_eq, hat'.args_eq, h.args_eq]
  · rw [hat.size_eq, hat.func_eq]
  · rw [hat'.size_eq, hat'.func_eq]
  · rw [hat.func_eq, hat.values_eq, hat'.values_eq]
    intro j d hd
    by_cases hj : j ∈ fr.func.phis c
    · rw [entered, if_pos hj] at hd
      rw [rename_of_none (hold j hj), entered, if_pos (hphis ▸ hj)]
      exact ⟨hlt j hj, hphi j hj d hd⟩
    · rw [entered_of_not_mem hj] at hd
      obtain ⟨hjlt, hd⟩ := h.values j d hd
      rw [entered_of_not_mem fun hmem => ?_]
      · exact ⟨hjlt, hd⟩
      · rw [hphis] at hmem
        have hrlt : rename fr.func.insts.size slots j < fr.func.insts.size := hlt _ hmem
        rcases rename_cases fr.func.insts.size slots j with ⟨_, hr⟩ | ⟨l, _, _, _, _, hr⟩
        · exact hj (hr ▸ hmem)
        · omega
  · rw [hat.block_eq]
    exact hc
  · rw [hat.block_eq, hat'.block_eq]
  · rw [hat.func_eq, hat.block_eq, hat.rest_eq]
    exact fun i hi => Func.mem_body_of_afterPhis hi
  · rw [hat.func_eq, hat.rest_eq, hat'.rest_eq]
    exact h.funcs.afterPhis_eq c hc

end FrameAgrees

namespace FrameMirrors

theorem next_mem (h : FrameMirrors tt tt' f₀ slots used fr fr') (hrest : fr.rest = i :: rest) :
    i ∈ fr.func.body fr.block := h.rest_mem i (by simp [hrest])

/-- Recording a result under the new name. -/
theorem record (h : FrameMirrors tt tt' f₀ slots used fr fr') (hi : i < fr.func.insts.size)
    (hi' : rename fr.func.insts.size slots i < fr'.func.insts.size) (d : Datum) :
    FrameMirrors tt tt' f₀ slots used (fr.record i d)
      (fr'.record (rename fr.func.insts.size slots i) d) where
  funcs := h.funcs
  used_block := h.used_block
  args_eq := h.args_eq
  block_eq := h.block_eq
  size_eq := (Frame.size_record _ _ _).trans h.size_eq
  size_eq' := (Frame.size_record _ _ _).trans h.size_eq'
  rest_mem := h.rest_mem
  rest_eq := h.rest_eq
  values := by
    rw [Frame.values_record (h.size_eq ▸ hi), Frame.values_record (h.size_eq' ▸ hi')]
    exact h.values.set hi d

/-- Taking off the next instruction, which stays. -/
theorem past (h : FrameMirrors tt tt' f₀ slots used fr fr') (hrest : fr.rest = i :: rest)
    (hnone : replacement? fr.func.insts.size slots i = none) :
    fr'.rest = i :: rest.flatMap (expand fr.func.insts.size slots) ∧
      FrameMirrors tt tt' f₀ slots used fr.past fr'.past := by
  have hrest' : fr'.rest = i :: rest.flatMap (expand fr.func.insts.size slots) := by
    rw [h.rest_eq, hrest, List.flatMap_cons, expand_of_none hnone]
    rfl
  refine ⟨hrest', ⟨h.funcs, h.args_eq, h.size_eq, h.size_eq', h.values⟩, h.used_block, h.block_eq,
    ?_, ?_⟩
  · intro j hj
    rw [Frame.rest_past hrest] at hj
    exact h.rest_mem j (by simp [hrest, hj])
  · rw [Frame.rest_past hrest, Frame.rest_past hrest']
    rfl

/-- An instruction that stays computes the same. -/
theorem computes (h : FrameMirrors tt tt' f₀ slots used fr fr') (ht : tt.Extends tt')
    (hc : tt.Closed) (hi : i ∈ fr.func.body fr.block)
    (hnone : replacement? fr.func.insts.size slots i = none) {made : Nat → Prop}
    {rs rs' rt : Array Region} {d : Datum} {δ : List Chunk} (hl : Longer made rs rt)
    (hcomp : Computes tt (fr.value tt) fr.func.tyOf (fr.func.inst i).ty (fr.func.op i) rs d δ rs') :
    ∃ rt', Computes tt' (fr'.value tt') fr'.func.tyOf (fr'.func.inst i).ty (fr'.func.op i) rt d δ rt' ∧
      Longer made rs' rt' := by
  obtain ⟨hop, hty⟩ := h.funcs.old _ h.used_block i hi hnone
  have hext : Computes tt' (fr'.value tt' ∘ renameOperand fr.func.insts.size slots) fr.func.tyOf
      (fr.func.inst i).ty (fr.func.op i) rs d δ rs' :=
    hcomp.extends ht hc (h.funcs.types_in.ty_lt _ h.used_block i hi)
      (h.funcs.types_in.slot_lt _ h.used_block i hi) fun v d hv => h.value_rename ht hv
  rw [hop, hty]
  refine (Computes.mapOperands (hext.congr (fun _ _ => rfl) fun v hv => ?_)).longer hl
  exact h.funcs.tyOf_eq _ h.used_block i hi v hv

/-- A terminator leads to the same place. -/
theorem leaves (h : FrameMirrors tt tt' f₀ slots used fr fr') (ht : tt.Extends tt')
    (hrest : fr.rest = i :: rest) (hnone : replacement? fr.func.insts.size slots i = none) {x : Next}
    (hl : Leaves (fr.value tt) (fr.func.op i) x) : Leaves (fr'.value tt') (fr'.func.op i) x := by
  rw [(h.funcs.old _ h.used_block i (h.next_mem hrest) hnone).1]
  exact (hl.mono fun v d hv => h.value_rename ht hv).mapOperands

/-- Executing a slot that is replaced takes two steps: one makes the new slot, the other casts its
address. -/
theorem slot {p : Program} (h : FrameMirrors tt p.types f₀ slots used fr fr')
    (hrest : fr.rest = i :: rest) {a c : Nat}
    (hr : replacement? fr.func.insts.size slots i = some (a, c)) {rs rs' : Array Region}
    {n : Memory} {d : Datum} {δ : List Chunk} {made : Nat → Prop} (hl : Longer made rs n.regions)
    (hmade : made rs.size)
    (hcomp : Computes tt (fr.value tt) fr.func.tyOf (fr.func.inst i).ty (fr.func.op i) rs d δ rs')
    {limit k : Nat} (hk : k + 2 ≤ limit) (cs : List Caller) :
    ∃ fr₂ n₂, Machine.Reaches p limit (fun _ => True) ⟨fr', cs, n, k⟩ ⟨fr₂, cs, n₂, k + 2⟩ ∧
      FrameMirrors tt p.types f₀ slots used (fr.past.record i d) fr₂ ∧
      Longer made rs' n₂.regions := by
  obtain ⟨_, t, al, t', al', hop, _, hwide, hcast, hsize⟩ := h.funcs.slot i _ _ hr
  have hren : rename fr.func.insts.size slots i = c := by simp [rename, hr]
  obtain ⟨l, s, hls, _, ha, hc⟩ := replacement?_eq_some hr
  have hilt := h.funcs.inst_lt _ h.used_block i (h.next_mem hrest)
  have hclt : c < fr'.func.insts.size := by
    have := (List.getElem?_eq_some_iff.mp hls).1
    rw [h.funcs.size_eq, hc]
    omega
  have halt : a < fr'.past.results.size := h.size_eq' ▸ (by omega)
  have hrest' : fr'.rest = a :: c :: rest.flatMap (expand fr.func.insts.size slots) := by
    rw [h.rest_eq, hrest, List.flatMap_cons]
    simp [expand, hr]
  rw [hop] at hcomp
  obtain ⟨rfl, hrs'⟩ := hcomp.of_alloca
  -- The new slot.
  have hnew : Computes p.types (fr'.value p.types) fr'.func.tyOf (fr'.func.inst a).ty
      (fr'.func.op a) n.regions (.ptr ⟨rs.size, 0⟩) []
      (n.regions.push (Array.replicate (p.types.paddedSize t') 0)) := by
    rw [hwide, ← hl.size_eq]
    exact .alloca
  obtain ⟨n₁, hn₁, hstep₁⟩ := Machine.exists_advances_of_computes hrest'
    (show k + 1 ≤ limit by omega) cs hnew
  -- The cast.
  obtain ⟨fr₁, hfr₁⟩ : ∃ fr₁, fr'.past.record a (.ptr ⟨rs.size, 0⟩) = fr₁ := ⟨_, rfl⟩
  have hvalues₁ : fr₁.values = fr'.values.set a (.ptr ⟨rs.size, 0⟩) :=
    hfr₁ ▸ Frame.values_record halt _
  have hrest₁ : fr₁.rest = c :: rest.flatMap (expand fr.func.insts.size slots) :=
    hfr₁ ▸ Frame.rest_past hrest'
  have hfunc₁ : fr₁.func = fr'.func := hfr₁ ▸ rfl
  have hsize₁ : fr₁.results.size = fr'.func.insts.size :=
    hfr₁ ▸ (Frame.size_record _ _ _).trans h.size_eq'
  rw [hfr₁] at hstep₁
  have hpure : Computes p.types (fr₁.value p.types) fr₁.func.tyOf (fr₁.func.inst c).ty
      (fr₁.func.op c) n₁.regions (.ptr ⟨rs.size, 0⟩) [] n₁.regions := by
    rw [hfunc₁, hcast]
    refine .pure ?_
    change fr₁.values a = _
    rw [hvalues₁, Values.set_self]
  obtain ⟨n₂, hn₂, hstep₂⟩ := Machine.exists_advances_of_computes hrest₁ hk cs hpure
  refine ⟨_, n₂, .cons trivial hstep₁ (.cons trivial hstep₂ .refl),
    ⟨⟨?_, ?_, ?_, ?_, ?_⟩, h.used_block, ?_, ?_, ?_⟩, ?_⟩
  · rw [Frame.func_record, Frame.func_record, Frame.func_past, Frame.func_past, hfunc₁]
    exact h.funcs
  · rw [Frame.args_record, Frame.args_past, ← hfr₁]
    exact h.args_eq
  · exact (Frame.size_record _ _ _).trans h.size_eq
  · rw [Frame.size_record, Frame.func_record, Frame.func_past, hfunc₁]
    exact hsize₁
  · have hilt' : i < fr.past.results.size := h.size_eq ▸ hilt
    have hclt' : c < fr₁.past.results.size := hsize₁ ▸ hclt
    rw [Frame.values_record hilt', Frame.values_record hclt', Frame.values_past, Frame.values_past,
      hvalues₁, ← hren, ha]
    exact (h.values.set_wide l _).set hilt _
  · rw [Frame.block_record, Frame.block_past, ← hfr₁]
    exact h.block_eq
  · intro j hj
    rw [Frame.rest_record, Frame.rest_past hrest] at hj
    exact h.rest_mem j (by simp [hrest, hj])
  · rw [Frame.rest_record, Frame.rest_record, Frame.rest_past hrest, Frame.rest_past hrest₁]
    rfl
  · rw [hn₂, hn₁, hrs']
    exact hl.push hsize fun _ => hmade

end FrameMirrors

end

/-! ## Steps -/

/-- A waiting frame, and the one of the function with slots replaced. -/
def CallerMirrors (tt tt' : TypeTable) (f₀ : Func) (c c' : Caller) : Prop :=
  ∃ slots used, FrameMirrors tt tt' f₀ slots used c.frame c'.frame ∧ c'.call = c.call ∧
    c.call < c.frame.func.insts.size ∧ replacement? c.frame.func.insts.size slots c.call = none

/-- A state, and the one of the program with slots replaced. -/
structure StateMirrors (tt tt' : TypeTable) (f₀ : Func) (made : Nat → Prop) (s s' : State) :
    Prop where
  frame : ∃ slots used, FrameMirrors tt tt' f₀ slots used s.frame s'.frame
  callers : List.Forall₂ (CallerMirrors tt tt' f₀) s.callers s'.callers
  regions : Longer made s.memory.regions s'.memory.regions
  steps_le : s'.steps ≤ 2 * s.steps

/-- The defined functions of a program, and those of the program with slots replaced. -/
structure ProgramMirrors (p p' : Program) (f₀ : Func) : Prop where
  types_extend : p.types.Extends p'.types
  closed : p.types.Closed
  callee : ∀ name h, Machine.callee? p name = some h → ∃ h' slots used,
    Machine.callee? p' name = some h' ∧ Mirrors p.types p'.types f₀ h h' slots used

section

variable {p p' : Program} {f₀ : Func} {made : Nat → Prop} {limit limit' : Nat}

/-- Only slots are replaced. -/
theorem FrameMirrors.replacement?_of_not_isSlot {tt tt' : TypeTable} {slots : List Slot}
    {used : BlockId → Prop} {fr fr' : Frame} (h : FrameMirrors tt tt' f₀ slots used fr fr')
    {i : InstId} (hi : (fr.func.op i).isSlot = false) :
    replacement? fr.func.insts.size slots i = none := by
  cases hr : replacement? fr.func.insts.size slots i with
  | none => rfl
  | some x =>
    obtain ⟨_, t, al, _, _, hop, _⟩ := h.funcs.slot i x.1 x.2 hr
    rw [hop] at hi
    cases hi

/-- Computing a result. -/
theorem ProgramMirrors.plain (hp : ProgramMirrors p p' f₀) {fr fr' : Frame} {slots : List Slot}
    {used : BlockId → Prop} (h : FrameMirrors p.types p'.types f₀ slots used fr fr') {i : InstId}
    {rest : List InstId} (hrest : fr.rest = i :: rest) {m m' n : Memory} {d : Datum}
    (hplain : (fr.func.op i).isPlain = true)
    (hcomp : fr.past.compute p.types (fr.func.inst i) m = (.ok d, m'))
    (hl : Longer made m.regions n.regions)
    (hmade : fr.func = f₀ → IsPadded p.types f₀ i → made m.regions.size) {k : Nat}
    (hk : k + 2 ≤ limit') (cs : List Caller) :
    ∃ fr₂ n₂ k₂, Machine.Reaches p' limit' (fun _ => True) ⟨fr', cs, n, k⟩ ⟨fr₂, cs, n₂, k₂⟩ ∧
      FrameMirrors p.types p'.types f₀ slots used (fr.past.record i d) fr₂ ∧
      Longer made m'.regions n₂.regions ∧ k₂ ≤ k + 2 := by
  obtain ⟨δ, hold⟩ := (Frame.compute_ok_iff hplain).mp ⟨m', hcomp, rfl⟩
  have hi := h.next_mem hrest
  cases hr : replacement? fr.func.insts.size slots i with
  | none =>
    obtain ⟨rt, hnew, hl'⟩ := h.computes hp.types_extend hp.closed hi hr hl hold
    obtain ⟨hrest', hpast⟩ := h.past hrest hr
    have hilt := h.funcs.inst_lt _ h.used_block i hi
    obtain ⟨n₂, rfl, hstep⟩ := Machine.exists_advances_of_computes hrest'
      (show k + 1 ≤ limit' by omega) cs hnew
    have hren := rename_of_none hr
    refine ⟨_, n₂, k + 1, .cons trivial hstep .refl, ?_, hl', by omega⟩
    have hrec := hpast.record (i := i) hilt (by
      rw [Frame.func_past, Frame.func_past, hren, h.funcs.size_eq]
      exact Nat.lt_of_lt_of_le hilt (Nat.le_add_right _ _)) d
    rwa [Frame.func_past, hren] at hrec
  | some x =>
    obtain ⟨a, c⟩ := x
    obtain ⟨hf₀, t, _, _, _, _, hpadded, _⟩ := h.funcs.slot i a c hr
    obtain ⟨fr₂, n₂, hreach, hframe₂, hl'⟩ := h.slot hrest hr hl
      (hmade hf₀ (hf₀ ▸ hpadded)) hold hk cs
    exact ⟨fr₂, n₂, k + 2, hreach, hframe₂, hl', Nat.le_refl _⟩

/-- Every step is followed by one step or two. -/
theorem ProgramMirrors.step (hp : ProgramMirrors p p' f₀) (hlim : 2 * limit ≤ limit')
    {s t s' : State} (h : StateMirrors p.types p'.types f₀ made s s')
    (hmade : ∀ i rest, s.frame.rest = i :: rest → s.frame.func = f₀ →
      IsPadded p.types f₀ i → made s.memory.regions.size)
    (hstep : Machine.Advances p limit s t) :
    ∃ t', Machine.Reaches p' limit' (fun _ => True) s' t' ∧
      StateMirrors p.types p'.types f₀ made t t' := by
  obtain ⟨⟨slots, used, hframe⟩, hcallers, hregions, hsteps⟩ := h
  have hlt := hstep.steps_lt
  obtain ⟨fr', cs', n', k'⟩ := s'
  cases hstep with
  | @plain fr i rest cs m m' n d hrest hn hplain hcomp =>
    dsimp only at hframe hcallers hregions hsteps hlt
    obtain ⟨fr₂, n₂, k₂, hreach, hframe₂, hl, hk₂⟩ := hp.plain hframe hrest hplain hcomp hregions
      (hmade i rest hrest) (show k' + 2 ≤ limit' by omega) cs'
    exact ⟨_, hreach, ⟨slots, used, hframe₂⟩, hcallers, hl, by dsimp only; omega⟩
  | @jump fr fr₂ i rest cs m n k c hrest hn hl he =>
    dsimp only at hframe hcallers hregions hsteps hlt
    have hnone := hframe.replacement?_of_not_isSlot (Op.not_isSlot_of_isTerminator hl.isTerminator)
    have hi := hframe.next_mem hrest
    obtain ⟨hrest', hpast⟩ := hframe.past hrest hnone
    have hused := hframe.funcs.next_used _ hframe.used_block i hi c hl.mem_targets
    obtain ⟨hk, hkle⟩ := Machine.enter_steps hn he
    obtain ⟨fr₂', henter, hframe₂⟩ := hpast.enter hp.types_extend hused hn he
      (show k' + 1 + (fr.past.func.phis c).length ≤ limit' by omega)
    have hl' := hframe.leaves hp.types_extend hrest hnone hl
    rw [← hframe.block_eq] at henter
    exact ⟨_, .cons trivial (.jump hrest' (by omega) hl' henter) .refl, ⟨slots, used, hframe₂⟩,
      hcallers, hregions, by dsimp only; omega⟩
  | @call fr fr₂ i rest cs m n k name args ds g e hrest hn hop hg hds hent hsize henter =>
    dsimp only at hframe hcallers hregions hsteps hlt
    have hnone := hframe.replacement?_of_not_isSlot (by rw [hop]; rfl)
    have hi := hframe.next_mem hrest
    obtain ⟨hrest', hpast⟩ := hframe.past hrest hnone
    obtain ⟨g', slots', used', hg', hmirrors⟩ := hp.callee name g hg
    obtain ⟨hk, hkle⟩ := Machine.enter_steps hn henter
    obtain ⟨fr₂', henter', hframe₂⟩ := (FrameAgrees.activate hmirrors ds).enter hp.types_extend
      (hmirrors.entry_used e hent) hn henter
      (show k' + 1 + ((Frame.activate g ds).func.phis e).length ≤ limit' by omega)
    have hop' : fr'.func.op i =
        .call name (args.map (renameOperand fr.func.insts.size slots)) := by
      rw [(hframe.funcs.old _ hframe.used_block i hi hnone).1, hop]
      rfl
    have hent' : g'.entry? = some e := by
      rw [ Func.entry?, hmirrors.layout_eq]
      exact hent
    have hsize' : g'.params.size = ds.length := by rw [hmirrors.params_eq, hsize]
    refine ⟨_, .cons trivial (.call hrest' (by omega) hop' hg'
      (hframe.mapM_eval hp.types_extend hds) hent' hsize' henter') .refl, ⟨slots', used', hframe₂⟩,
      .cons ⟨slots, used, hpast, rfl, ?_, hnone⟩ hcallers, hregions, by dsimp only; omega⟩
    exact hframe.funcs.inst_lt _ hframe.used_block i hi
  | @ret fr i rest c cs m n d hrest hn hl =>
    dsimp only at hframe hcallers hregions hsteps hlt
    have hnone := hframe.replacement?_of_not_isSlot (Op.not_isSlot_of_isTerminator hl.isTerminator)
    obtain ⟨hrest', _⟩ := hframe.past hrest hnone
    cases hcallers with
    | @cons _ c' _ cs' hcaller hcallers =>
      obtain ⟨slots', used', hframe', hcall, hlt', hnone'⟩ := hcaller
      have hren := rename_of_none hnone'
      have hrec := hframe'.record hlt' (by
        rw [hren, hframe'.funcs.size_eq]
        exact Nat.lt_of_lt_of_le hlt' (Nat.le_add_right _ _)) d
      rw [hren.trans hcall.symm] at hrec
      refine ⟨_, .cons trivial (.ret hrest' (by omega) (hframe.leaves hp.types_extend hrest hnone hl))
        .refl, ⟨slots', used', hrec⟩, hcallers, hregions, by dsimp only; omega⟩

/-- A region that a padded slot of a function makes, in a run from a state. -/
def MadePadded (p : Program) (limit : Nat) (f : Func) (s : State) (r : Nat) : Prop :=
  ∃ t i, Machine.Reaches p limit (fun _ => True) s t ∧ t.frame.func = f ∧
    t.frame.rest.head? = some i ∧ IsPadded p.types f i ∧ t.memory.regions.size = r

/-- Both functions can be started. -/
theorem ProgramMirrors.invoke (hp : ProgramMirrors p p' f₀) (hlim : limit ≤ limit') {h h' : Func}
    {slots : List Slot} {used : BlockId → Prop}
    (hm : Mirrors p.types p'.types f₀ h h' slots used) {args : List Datum} {m : Memory} {s : State}
    (hinv : Machine.invoke p limit h args [] m 0 = .next s) :
    ∃ s', Machine.invoke p' limit' h' args [] m 0 = .next s' ∧ s'.steps ≤ limit' ∧
      StateMirrors p.types p'.types f₀ made s s' := by
  obtain ⟨e, fr, k, hent, hsize, henter, rfl⟩ := Machine.invoke_eq_next_iff.mp hinv
  obtain ⟨hk, hkle⟩ := Machine.enter_steps (Nat.zero_le _) henter
  obtain ⟨fr', henter', hframe⟩ := (FrameAgrees.activate hm args).enter hp.types_extend
    (hm.entry_used e hent) (Nat.zero_le _) henter (Nat.le_trans (hk ▸ hkle) hlim)
  have hent' : h'.entry? = some e := by
    rw [ Func.entry?, hm.layout_eq]
    exact hent
  have hsize' : h'.params.size = args.length := by rw [hm.params_eq, hsize]
  rw [← hk] at henter'
  exact ⟨⟨fr', [], m, k⟩,
    Machine.invoke_eq_next_iff.mpr ⟨e, fr', k, hent', hsize', henter', rfl⟩,
    Nat.le_trans hkle hlim, ⟨slots, used, hframe⟩, .nil, .refl _ _, by dsimp only; omega⟩

/-- Every state of a run is mirrored. -/
theorem ProgramMirrors.reaches (hp : ProgramMirrors p p' f₀) (hlim : 2 * limit ≤ limit')
    {s s' t : State}
    (h : StateMirrors p.types p'.types f₀ (MadePadded p limit f₀ s) s s')
    (ht : Machine.Reaches p limit (fun _ => True) s t) :
    ∃ t', Machine.Reaches p' limit' (fun _ => True) s' t' ∧
      StateMirrors p.types p'.types f₀ (MadePadded p limit f₀ s) t t' := by
  refine ht.invariant (motive := fun t => ∃ t', Machine.Reaches p' limit' (fun _ => True) s' t' ∧
    StateMirrors p.types p'.types f₀ (MadePadded p limit f₀ s) t t') ⟨s', .refl, h⟩
    fun v w hv _ hstep ⟨v', hv', hvv'⟩ => ?_
  obtain ⟨w', hw', hww'⟩ := hp.step hlim hvv' (fun i rest hrest hfunc hpadded =>
    ⟨v, i, hv, hfunc, by rw [hrest]; rfl, hpadded, rfl⟩) hstep
  exact ⟨w', hv'.trans hw', hww'⟩

/-- A run that succeeds is followed to its end. -/
theorem ProgramMirrors.run (hp : ProgramMirrors p p' f₀) (hlim : 2 * limit ≤ limit') {h h' : Func}
    {slots : List Slot} {used : BlockId → Prop}
    (hm : Mirrors p.types p'.types f₀ h h' slots used) {args : List Datum} {m m' : Memory}
    {d : Datum} {n : Nat} (hrun : p.run h args m limit = ⟨.ok d, m', n⟩) :
    ∃ s m'' n', Machine.invoke p limit h args [] m 0 = .next s ∧
      p'.run h' args m limit' = ⟨.ok d, m'', n'⟩ ∧
      Longer (MadePadded p limit f₀ s) m'.regions m''.regions := by
  unfold Program.run at hrun
  split at hrun
  · rename_i s hinv
    obtain ⟨s', hinv', hle, hstart⟩ := hp.invoke (show limit ≤ limit' by omega) hm hinv
    obtain ⟨t, ht, hlast⟩ := Machine.exists_of_run p limit (limit + 1) s
    rw [hrun] at hlast
    replace hlast := hlast.resolve_right fun heq => by cases congrArg Halt.result heq
    obtain ⟨t', ht', ⟨slots', used', hframe⟩, hcallers, hregions, hsteps⟩ := hp.reaches hlim hstart ht
    -- The last step is a return to no one in both runs.
    obtain ⟨i, rest, hrest, hn, hl, hcs, rfl, rfl⟩ := Machine.step_eq_halt_ok_iff.mp hlast
    have hnone := hframe.replacement?_of_not_isSlot (Op.not_isSlot_of_isTerminator hl.isTerminator)
    rw [hcs] at hcallers
    have hlast' := Machine.step_eq_halt_ok_iff.mpr ⟨i, _, (hframe.past hrest hnone).1,
      (show t'.steps + 1 ≤ limit' by omega), hframe.leaves hp.types_extend hrest hnone hl,
      List.forall₂_nil_left_iff.mp hcallers, rfl, rfl⟩
    refine ⟨s, t'.memory, t'.steps + 1, hinv, ?_, hregions⟩
    rw [Program.run, hinv']
    exact Machine.run_of_reaches (limit' + 1) ht' hlast' hle (by omega)
  · rename_i x hinv
    rw [hrun] at hinv
    exact absurd hinv Machine.invoke_ne_halt_ok

end

end Padding

end LoopNest
