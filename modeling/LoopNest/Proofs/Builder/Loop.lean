import LoopNest.Proofs.Builder.Rules

/-!
# The rule for loops

A loop is built in pieces that do not follow one another in the finished function: the header is
begun before the body and completed after it, and the latch comes last.  `Opened` and `Closed` say
what the pieces are.  In the finished function they make up a *cycle* (`World.Cycle`): a way from
before the loop to the header, a branch there, and a way from the end of the body back to the
header, with the induction value one higher.

The rule `World.Does.loop` has an invariant that is indexed by the induction value.  The body must
take the invariant of one value to that of the next.
-/

namespace LoopNest

theorem Func.afterPhis_eq_drop (f : Func) (b : BlockId) :
    f.afterPhis b = (f.body b).drop (f.phis b).length := by
  rw [← f.phis_append_afterPhis b, List.drop_left]

theorem Func.phis_of_body_nil {f : Func} {b : BlockId} (h : f.body b = []) : f.phis b = [] := by
  rw [phis, h]
  rfl

namespace World

variable {W : World} {s s' : Site} {here target : BlockId} {ρ : Values} {rs : Array Region}

/-! ## Jumps -/

theorem point_congr (h : s'.func.body here = s.func.body here) :
    W.point s' here ρ rs = W.point s here ρ rs := by
  rw [point, point, h]

/-- An emitted branch leads to a block. -/
theorem goes_of_leaves {op : Op} {u : Unit} (hop : op.isPhi = false)
    (h : Build.effect here op s = (.ok u, s')) (hw : s'.Within W.site)
    (hl : Leaves (W.value ρ) op (.goto target))
    (hlt : ∀ j ∈ W.func.phis target, j < W.func.insts.size)
    (hready : ∀ j ∈ W.func.phis target,
      (phiValue W.types W.func W.args (some here) ρ j).isSome) :
    W.Goes (W.point s here ρ rs) ⟨target, W.func.afterPhis target,
      entered W.types W.func W.args (some here) target ρ, rs⟩ := by
  obtain ⟨i, hi⟩ := Build.effect_eq_ok.mp h
  obtain ⟨ty, he⟩ := emitted hop hi hw
  obtain ⟨is, hrest, _⟩ := he.rest
  rw [point, hrest]
  refine .single ⟨fun j js b x hj hgep => ?_, .jump (he.op_eq ▸ hl) hlt hready⟩
  cases hj
  rw [← he.op_eq, hgep] at hl
  cases hl

/-- A block without phis is entered at its first instruction. -/
theorem goes_of_leaves_nil {op : Op} {u : Unit} {t : Site} (hop : op.isPhi = false)
    (h : Build.effect here op s = (.ok u, s')) (hw : s'.Within W.site)
    (hl : Leaves (W.value ρ) op (.goto target)) (ht : t.func.body target = [])
    (hlt : target < t.func.blocks.size) (hg : t.Grows W.site) :
    W.Goes (W.point s here ρ rs) (W.point t target ρ rs) := by
  have hphis : W.func.phis target = [] :=
    (hg.func.phis_eq target hlt).trans (Func.phis_of_body_nil ht)
  have hgo : W.Goes (W.point s here ρ rs) _ :=
    goes_of_leaves hop h hw hl (by simp [hphis]) (by simp [hphis])
  rw [Func.afterPhis_eq_drop, hphis, entered_of_nil hphis] at hgo
  rw [point, point, ht]
  exact hgo

/-- The one phi of a block takes the value of its entry. -/
theorem goes_of_leaves_phi {op : Op} {u : Unit} {t : Site} {φ : InstId} {v : Operand} {d : Datum}
    (hop : op.isPhi = false) (h : Build.effect here op s = (.ok u, s')) (hw : s'.Within W.site)
    (hl : Leaves (W.value ρ) op (.goto target)) (ht : t.func.body target = [φ])
    (hphis : t.func.phis target = [φ]) (hlt : target < t.func.blocks.size)
    (hφ : φ < t.func.insts.size) (hg : t.Grows W.site) (hv : W.func.incoming? φ here = some v)
    (hd : W.value ρ v = some d) :
    W.Goes (W.point s here ρ rs) (W.point t target (ρ.set φ d) rs) := by
  have hphis' : W.func.phis target = [φ] := (hg.func.phis_eq target hlt).trans hphis
  have hvalue : phiValue W.types W.func W.args (some here) ρ φ = some d := by
    simp only [phiValue, Option.bind_some, hv]
    exact hd
  have hlt' : φ < W.func.insts.size := Nat.lt_of_lt_of_le hφ hg.func.insts_le
  have hgo : W.Goes (W.point s here ρ rs) _ :=
    goes_of_leaves hop h hw hl (by simpa [hphis'] using hlt') (by simp [hphis', hvalue])
  rw [Func.afterPhis_eq_drop, hphis', entered_of_single hphis' hvalue] at hgo
  rw [point, point, ht]
  exact hgo

end World

/-! ## Opening -/

namespace Build

variable {s s' : Site} {here : BlockId}

theorem phi_eq_ok {ty : TyId} {incoming : List (Operand × BlockId)} {name : String} {v : Operand}
    (h : phi here ty incoming name s = (.ok v, s')) : v = .inst s.func.insts.size ∧
      s' = ⟨(s.types.insert (s.types.ty ty)).2, (s.func.insertPhi here incoming
        (s.types.insert (s.types.ty ty)).1 (some name)).2⟩ := by
  rw [phi, site_bind] at h
  obtain ⟨_, _, hty, hrest⟩ := bind_eq_ok.mp h
  obtain ⟨hty, rfl⟩ := check_eq_ok.mp hty
  obtain ⟨_, rfl⟩ := Typing.resultTy_phi.mp hty
  obtain ⟨_, _, ht, hrest⟩ := bind_eq_ok.mp hrest
  obtain ⟨rfl, rfl⟩ := internTy_eq_ok.mp ht
  obtain ⟨_, _, hedit, hv⟩ := bind_eq_ok.mp hrest
  obtain ⟨rfl, rfl⟩ := edit_eq_ok.mp hedit
  exact pure_eq_ok.mp hv

theorem boundScalar_eq_ok {start stop : Operand} {r : TyId × Scalar}
    (h : boundScalar start stop s = (.ok r, s')) : s' = s ∧ s.func.operandTy start = .ok r.1 ∧
      s.types.elementScalar? r.1 = some r.2 := by
  obtain ⟨ty, s₁, hstart, hafter⟩ := bind_eq_ok.mp h
  obtain ⟨hty, hs₁⟩ := operandTy_eq_ok.mp hstart
  rw [hs₁] at hafter
  obtain ⟨stopTy, s₂, hstop, hmatch⟩ := bind_eq_ok.mp hafter
  rw [(operandTy_eq_ok.mp hstop).2, site_bind] at hmatch
  cases hsc : s.types.elementScalar? ty with
  | none =>
    rw [hsc] at hmatch
    cases (Prod.mk.inj hmatch).1
  | some sc =>
    rw [hsc] at hmatch
    dsimp only at hmatch
    split at hmatch
    · obtain ⟨rfl, rfl⟩ := pure_eq_ok.mp hmatch
      exact ⟨rfl, hty, hsc⟩
    · cases (Prod.mk.inj hmatch).1

/-- A loop was opened between two sites.  At the site in the middle its header holds the phi and
nothing else. -/
structure Opened (s mid s' : Site) (here : BlockId) (start stop : Operand) (name : String)
    (l : OpenLoop) (φ : InstId) : Prop where
  header_eq : l.header = s.func.blocks.size
  body_eq : l.body = s.func.blocks.size + 1
  name_eq : l.name = name
  induction_eq : l.induction = .inst φ
  grows : s.Grows mid
  ready : mid.Ready l.header
  size_eq : mid.func.blocks.size = s.func.blocks.size + 2
  elsewhere : ∀ b < s.func.blocks.size, b ≠ here → mid.func.body b = s.func.body b
  stays : ∀ i < s.func.insts.size, mid.func.op i = s.func.op i
  body_here : ∃ i < mid.func.insts.size, mid.func.op i = .br l.header ∧
    mid.func.body here = s.func.body here ++ [i]
  body_header : mid.func.body l.header = [φ]
  body_body : mid.func.body l.body = []
  insts_le : s.func.insts.size ≤ φ
  lt : φ < mid.func.insts.size
  op_eq : mid.func.op φ = .phi [(start, here)]
  inst_name : (mid.func.inst φ).name = some (name ++ ".iv")
  typed : ∃ ty, s.func.operandTy start = .ok ty ∧ s.types.elementScalar? ty = some l.scalar ∧
    ∀ m : Meaning, m.OfType s.types ty → m.OfType mid.types (mid.func.inst φ).ty
  branch : ∃ a b, a.func.body here = s.func.body here ∧ br here l.header a = (.ok (), b) ∧
    b.Within mid
  test : icmp l.header .ult (.inst φ) stop (name ++ ".cond") mid = (.ok l.cond, s')

theorem opened {start stop : Operand} {name : String} {l : OpenLoop} (hs : s.Ready here)
    (h : openLoop here start stop name s = (.ok l, s')) :
    ∃ mid φ, Opened s mid s' here start stop name l φ := by
  obtain ⟨⟨ty, sc⟩, s₀, hbound, hrest⟩ := bind_eq_ok.mp h
  obtain ⟨hs₀, hty, hsc⟩ := boundScalar_eq_ok hbound
  rw [hs₀] at hrest
  obtain ⟨header, a₀, hheader, hrest₁⟩ := bind_eq_ok.mp hrest
  obtain ⟨rfl, hsize₀, hbody₀, hsa₀⟩ := continues_of_block hs hheader
  obtain ⟨body, a, hbody, hrest₂⟩ := bind_eq_ok.mp hrest₁
  obtain ⟨rfl, hsize₁, hbody₁, haa⟩ := continues_of_block hsa₀.ready hbody
  obtain ⟨_, b, hbr, hrest₃⟩ := bind_eq_ok.mp hrest₂
  obtain ⟨_, mid, hphi, hrest₄⟩ := bind_eq_ok.mp hrest₃
  obtain ⟨rfl, hmid⟩ := phi_eq_ok hphi
  obtain ⟨_, _, htest, hl⟩ := bind_eq_ok.mp hrest₄
  obtain ⟨rfl, rfl⟩ := pure_eq_ok.mp hl
  have hsa := hsa₀.trans haa
  have hbody_a : ∀ c, a.func.body c = s.func.body c := fun c => (hbody₁ c).trans (hbody₀ c)
  have hab := continues_of_effect rfl hsa.ready.listed hbr
  have hsb := hsa.trans hab
  have hsize_b := blocks_size_of_effect hbr
  have hempty : ∀ c, s.func.blocks.size ≤ c → c < a.func.blocks.size → b.func.body c = [] := by
    intro c hle hlt
    have hne : c ≠ here := Nat.ne_of_gt (Nat.lt_of_lt_of_le hs.lt hle)
    rw [hab.elsewhere c hlt hne, hbody_a, Func.body_of_le hle]
  have hlt : s.func.blocks.size < b.func.blocks.size := by omega
  have hbody_mid : ∀ c, mid.func.body c =
      if c = s.func.blocks.size then [b.func.insts.size] else b.func.body c := by
    intro c
    rw [hmid]
    show (b.func.insertInst _ _ _).2.body c = _
    rw [Func.body_insertInst _ _ _ hlt, hempty _ (Nat.le_refl _) (by omega), List.take_nil,
      List.drop_nil, List.nil_append]
  have hbody_body : mid.func.body a₀.func.blocks.size = [] := by
    have hne : a₀.func.blocks.size ≠ s.func.blocks.size := by omega
    rw [hbody_mid, if_neg hne, hempty _ (by omega) (by omega)]
  have hinst_mid : ∀ i, mid.func.inst i = if i = b.func.insts.size then
      ⟨.phi [(start, here)], (b.types.insert (b.types.ty ty)).1, some (name ++ ".iv"),
        some s.func.blocks.size⟩ else b.func.inst i := by
    rw [hmid]
    exact Func.inst_insertInst _ _ _ _
  exact ⟨mid, b.func.insts.size, {
    header_eq := rfl
    body_eq := hsize₀
    name_eq := rfl
    induction_eq := rfl
    grows := by
      rw [hmid]
      exact ⟨hsb.grows.types.trans (b.types.extends_insert _),
        hsb.grows.func.insertInst hab.ready.listed (Nat.le_refl _) hlt _ _⟩
    ready := by
      rw [hmid]
      exact ⟨Func.listed_insertInst hab.ready.listed hlt _ _,
        (Func.blocks_size_insertInst ..).symm ▸ hlt⟩
    size_eq := by
      rw [hmid]
      rw [Func.insertPhi, Func.blocks_size_insertInst]
      omega
    elsewhere := fun c hc hne => by
      rw [hbody_mid, if_neg (Nat.ne_of_lt hc), hsb.elsewhere c hc hne]
    stays := fun i hi => by
      have hib : i < b.func.insts.size := Nat.lt_of_lt_of_le hi hsb.grows.func.insts_le
      rw [Func.op, hinst_mid i, if_neg (Nat.ne_of_lt hib)]
      exact hsb.op_eq i hi
    body_here := by
      obtain ⟨i, _, hi, hop, hbody⟩ := body_of_effect hbr
      have hle := hinst_mid i
      rw [if_neg (Nat.ne_of_lt hi)] at hle
      refine ⟨i, ?_, by rw [Func.op, hle]; exact hop, ?_⟩
      · rw [hmid, Func.insertPhi, Func.insts_size_insertInst]
        exact Nat.lt_succ_of_lt hi
      · rw [hbody_mid, if_neg (Nat.ne_of_lt hs.lt), hbody, if_pos rfl, hbody_a]
    body_header := by rw [hbody_mid, if_pos rfl]
    body_body := hbody_body
    insts_le := hsb.grows.func.insts_le
    lt := by
      rw [hmid]
      exact (Func.insts_size_insertInst ..).symm ▸ Nat.lt_succ_self _
    op_eq := by rw [Func.op, hinst_mid, if_pos rfl]
    inst_name := by rw [hinst_mid, if_pos rfl]
    typed := ⟨ty, hty, hsc, fun m hm => by
      rw [hinst_mid, if_pos rfl, hmid]
      exact (hm.extends hsb.grows.types).insert⟩
    branch := ⟨a, b, hbody_a here, hbr, by
      rw [hmid]
      exact ⟨b.types.extends_insert _,
        (Func.Within.refl _).insertInst (hempty _ (Nat.le_refl _) (by omega)) hlt _ _⟩⟩
    test := htest }⟩

/-! ## Closing -/

/-- Counts the induction value of a loop up. -/
def countUp (l : OpenLoop) (latch : BlockId) : Build Operand := do
  let one ← int l.scalar 1
  add latch l.induction one (l.name ++ ".next")

theorem continues_of_countUp {l : OpenLoop} {latch : BlockId} {next : Operand}
    (hs : s.Ready latch) (h : countUp l latch s = (.ok next, s')) : s.Continues s' latch latch := by
  obtain ⟨_, _, hone, hadd⟩ := bind_eq_ok.mp h
  obtain ⟨rfl, rfl⟩ := constant_eq_ok.mp hone
  obtain ⟨i, rfl, hi⟩ := value_eq_ok.mp hadd
  have hconst : s.Continues ⟨(s.types.intern (.scalar l.scalar)).2,
      (s.func.addConstant (s.types.intern (.scalar l.scalar)).1 (.int 1)).2⟩ latch latch :=
    ⟨⟨s.types.extends_intern _, s.func.grows_addConstant _ _⟩, ⟨hs.listed, hs.lt⟩, fun _ _ _ => rfl,
      fun _ _ => rfl, .inl rfl⟩
  exact hconst.trans (continues_of_emit rfl hs.listed hi)

theorem blocks_size_of_countUp {l : OpenLoop} {latch : BlockId} {next : Operand}
    (h : countUp l latch s = (.ok next, s')) : s'.func.blocks.size = s.func.blocks.size := by
  obtain ⟨_, _, hone, hadd⟩ := bind_eq_ok.mp h
  obtain ⟨rfl, rfl⟩ := constant_eq_ok.mp hone
  obtain ⟨i, rfl, hi⟩ := value_eq_ok.mp hadd
  exact (blocks_size_of_emit hi).trans rfl

/-- A loop was closed between two sites. -/
structure Closed (s s' : Site) (l : OpenLoop) (e : BlockId) (r : BuiltLoop) (φ : InstId) :
    Prop where
  header_eq : r.header = l.header
  body_eq : r.body = l.body
  induction_eq : r.induction = l.induction
  latch_eq : r.latch = s.func.blocks.size
  exit_eq : r.exit = s.func.blocks.size + 1
  grows : s.Grows s'
  ready : s'.Ready r.exit
  size_eq : s'.func.blocks.size = s.func.blocks.size + 2
  elsewhere : ∀ b < s.func.blocks.size, b ≠ e → b ≠ l.header → s'.func.body b = s.func.body b
  stays : ∀ i < s.func.insts.size, i ≠ φ → s'.func.op i = s.func.op i
  body_exit : s'.func.body r.exit = []
  body_end : ∃ i < s'.func.insts.size, s'.func.op i = .br r.latch ∧
    s'.func.body e = s.func.body e ++ [i]
  body_header : ∃ i < s'.func.insts.size, s.func.insts.size ≤ i ∧
    s'.func.op i = .condBr l.cond l.body r.exit ∧
    s'.func.body l.header = s.func.body l.header ++ [i]
  body_latch : ∃ i < s'.func.insts.size, ∃ j < s'.func.insts.size, ∃ one,
    s'.func.op i = .binary .add l.induction (.const one) ∧ s'.func.op j = .br l.header ∧
    s'.func.body r.latch = [i, j]
  leave : ∃ a b, a.func.body e = s.func.body e ∧ br e r.latch a = (.ok (), b) ∧ b.Grows s'
  branch : ∃ a b, a.func.body l.header = s.func.body l.header ∧
    condBr l.header l.cond l.body r.exit a = (.ok (), b) ∧ b.Grows s'
  count : ∃ a b next c, s.Grows a ∧ a.Ready r.latch ∧ a.func.body r.latch = [] ∧
    countUp l r.latch a = (.ok next, b) ∧ b.Grows s' ∧
    c.func.body r.latch = b.func.body r.latch ∧ br r.latch l.header c = (.ok (), s') ∧
    s'.func.incoming? φ r.latch = some next ∧
    ∀ incoming, s.func.op φ = .phi incoming → s'.func.op φ = .phi (incoming ++ [(next, r.latch)])

theorem op_addIncoming {f : Func} {φ : InstId} (v : Operand) (b : BlockId)
    {incoming : List (Operand × BlockId)} (hφ : φ < f.insts.size) (hop : f.op φ = .phi incoming) :
    (f.addIncoming φ v b).op φ = .phi (incoming ++ [(v, b)]) := by
  rw [Func.addIncoming, f.op_modifyOp hφ, if_pos rfl, hop]

theorem incoming?_addIncoming {f : Func} {φ : InstId} {v : Operand} {b : BlockId}
    {incoming : List (Operand × BlockId)} (hφ : φ < f.insts.size) (hop : f.op φ = .phi incoming)
    (hb : ∀ e ∈ incoming, e.2 ≠ b) : (f.addIncoming φ v b).incoming? φ b = some v := by
  have hnone : incoming.find? (fun e => e.2 = b) = none := by simpa using hb
  rw [Func.incoming?, op_addIncoming v b hφ hop]
  simp [List.find?_append, hnone]

theorem closed {l : OpenLoop} {e : BlockId} {r : BuiltLoop} {φ : InstId} {start : Operand}
    (hs : s.Ready e) (hheader : l.header < s.func.blocks.size) (hne : e ≠ l.header)
    (hφ : l.induction = .inst φ) (hlt : φ < s.func.insts.size)
    (hop : s.func.op φ = .phi [(start, here)]) (hhere : here < s.func.blocks.size)
    (h : closeLoop l e s = (.ok r, s')) : Closed s s' l e r φ := by
  obtain ⟨_, a₀, hlatch, hrest⟩ := bind_eq_ok.mp h
  obtain ⟨rfl, hsize₀, hbody₀, hsa₀⟩ := continues_of_block hs hlatch
  obtain ⟨exit, a, hexit, hrest₁⟩ := bind_eq_ok.mp hrest
  obtain ⟨rfl, hsize₁, hbody₁, haa⟩ := continues_of_block hsa₀.ready hexit
  obtain ⟨_, b, hleave, hrest₂⟩ := bind_eq_ok.mp hrest₁
  obtain ⟨_, c, hbranch, hrest₃⟩ := bind_eq_ok.mp hrest₂
  obtain ⟨one, c', hone, hrest₄⟩ := bind_eq_ok.mp hrest₃
  obtain ⟨next, d, hadd, hrest₅⟩ := bind_eq_ok.mp hrest₄
  have hcount : countUp l s.func.blocks.size c = (.ok next, d) :=
    bind_eq_ok.mpr ⟨one, c', hone, hadd⟩
  obtain ⟨_, d', hentry, hrest₆⟩ := bind_eq_ok.mp hrest₅
  obtain ⟨_, _, hback, hr⟩ := bind_eq_ok.mp hrest₆
  obtain ⟨rfl, rfl⟩ := pure_eq_ok.mp hr
  obtain ⟨φ', hφ', _, hd'⟩ := addIncoming_eq_ok hentry
  cases hφ.symm.trans hφ'
  have hsa := hsa₀.trans haa
  have hbody_a : ∀ c, a.func.body c = s.func.body c := fun c => (hbody₁ c).trans (hbody₀ c)
  have hab := continues_of_effect rfl hsa.ready.listed hleave
  have hsb := hsa.trans hab
  have hbc := continues_of_effect rfl hab.ready.listed hbranch
  have hsize_b := blocks_size_of_effect hleave
  have hsize_c := blocks_size_of_effect hbranch
  have hlatch_lt : s.func.blocks.size < c.func.blocks.size := by omega
  have hready : c.Ready s.func.blocks.size := ⟨hbc.ready.listed, hlatch_lt⟩
  have hcd := continues_of_countUp hready hcount
  have hdd : d.Grows d' := by
    rw [hd']
    exact ⟨.refl _, Func.grows_addIncoming _ _ _⟩
  have hbody_d : ∀ b, d'.func.body b = d.func.body b := by
    intro b
    rw [hd']
    rfl
  have hlisted : d'.func.Listed := by
    intro b i hi
    rw [hbody_d] at hi
    exact Nat.lt_of_lt_of_le (hcd.ready.listed b i hi) hdd.func.insts_le
  have hds := continues_of_effect rfl hlisted hback
  have hφd : φ < d.func.insts.size :=
    Nat.lt_of_lt_of_le hlt ((hsb.grows.trans hbc.grows).trans hcd.grows).func.insts_le
  have hop_d : d.func.op φ = .phi [(start, here)] := by
    have hb := Nat.lt_of_lt_of_le hlt hsb.grows.func.insts_le
    rw [hcd.op_eq φ (Nat.lt_of_lt_of_le hb hbc.grows.func.insts_le), hbc.op_eq φ hb,
      hsb.op_eq φ hlt, hop]
  have hempty : ∀ x, s.func.blocks.size ≤ x → x < a.func.blocks.size → c.func.body x = [] := by
    intro x hle hlt
    have hne : x ≠ e := Nat.ne_of_gt (Nat.lt_of_lt_of_le hs.lt hle)
    have hne' : x ≠ l.header := Nat.ne_of_gt (Nat.lt_of_lt_of_le hheader hle)
    rw [hbc.elsewhere x (by omega) hne', hab.elsewhere x hlt hne, hbody_a, Func.body_of_le hle]
  have hcs : c.Grows s' := (hcd.grows.trans hdd).trans hds.grows
  have hsize_d := hcd.grows.func.blocks_le
  have hsize_d' := hdd.func.blocks_le
  have hexit_lt : a₀.func.blocks.size < s'.func.blocks.size := by
    have := hds.grows.func.blocks_le
    omega
  have hbody_latch : c.func.body s.func.blocks.size = [] := hempty _ (Nat.le_refl _) (by omega)
  have hexit_le : s.func.blocks.size ≤ a₀.func.blocks.size := by omega
  have hbody_exit : s'.func.body a₀.func.blocks.size = [] := by
    rw [hds.elsewhere _ (by omega) (by omega), hbody_d, hcd.elsewhere _ (by omega) (by omega),
      hempty _ (by omega) (by omega)]
  have hstay : ∀ x : Nat, x < s.func.blocks.size → s'.func.body x = c.func.body x := by
    intro x hx
    rw [hds.elsewhere x (by omega) (by omega), hbody_d, hcd.elsewhere x (by omega) (by omega)]
  exact {
    header_eq := rfl
    body_eq := rfl
    induction_eq := rfl
    latch_eq := rfl
    exit_eq := hsize₀
    grows := (hsb.grows.trans hbc.grows).trans hcs
    ready := ⟨hds.ready.listed, hexit_lt⟩
    size_eq := by
      rw [blocks_size_of_effect hback, hd']
      show d.func.blocks.size = _
      rw [blocks_size_of_countUp hcount]
      omega
    elsewhere := fun x hx hne hne' => by
      rw [hstay x hx, hbc.elsewhere x (by omega) hne', hsb.elsewhere x hx hne]
    stays := fun i hi hne => by
      have hb := Nat.lt_of_lt_of_le hi hsb.grows.func.insts_le
      have hc := Nat.lt_of_lt_of_le hb hbc.grows.func.insts_le
      have hd := Nat.lt_of_lt_of_le hc hcd.grows.func.insts_le
      rw [hds.op_eq i (Nat.lt_of_lt_of_le hd hdd.func.insts_le), hd', Func.addIncoming,
        Func.op_modifyOp _ hφd, if_neg (Ne.symm hne), hcd.op_eq i hc, hbc.op_eq i hb, hsb.op_eq i hi]
    body_exit := hbody_exit
    body_end := by
      obtain ⟨i, _, hi, hop, hbody⟩ := body_of_effect hleave
      have hle := (hbc.grows.trans hcs).func
      refine ⟨i, Nat.lt_of_lt_of_le hi hle.insts_le, (hle.op_eq hi (by rw [hop]; rfl)).trans hop, ?_⟩
      rw [hstay e hs.lt, hbc.elsewhere e (Nat.lt_of_lt_of_le hs.lt hsb.grows.func.blocks_le) hne, hbody, if_pos rfl, hbody_a]
    body_header := by
      obtain ⟨i, hfresh, hi, hop, hbody⟩ := body_of_effect hbranch
      refine ⟨i, Nat.lt_of_lt_of_le hi hcs.func.insts_le, hfresh ▸ hsb.grows.func.insts_le,
        (hcs.func.op_eq hi (by rw [hop]; rfl)).trans hop, ?_⟩
      rw [hstay l.header hheader, hbody, if_pos rfl, hsb.elsewhere l.header hheader (Ne.symm hne)]
    body_latch := by
      obtain ⟨rfl, rfl⟩ := constant_eq_ok.mp hone
      obtain ⟨i, rfl, hemit⟩ := value_eq_ok.mp hadd
      obtain ⟨-, hi, hop, hbody⟩ := body_of_emit hemit
      obtain ⟨j, -, hj, hop', hbody'⟩ := body_of_effect hback
      have hle := (hdd.trans hds.grows).func
      refine ⟨i, Nat.lt_of_lt_of_le hi hle.insts_le, j, hj, _,
        (hle.op_eq hi (by rw [hop]; rfl)).trans hop, hop', ?_⟩
      rw [hbody', if_pos rfl, hbody_d, hbody, if_pos rfl]
      exact congrArg (· ++ [i] ++ [j]) hbody_latch
    leave := ⟨a, b, hbody_a e, hleave, hbc.grows.trans hcs⟩
    branch := ⟨b, c, hsb.elsewhere _ hheader (Ne.symm hne), hbranch, hcs⟩
    count := ⟨c, d, next, d', hsb.grows.trans hbc.grows, hready, hbody_latch,
      hcount, hdd.trans hds.grows, hbody_d _, hback, by
        refine hds.grows.func.incoming?_eq (Nat.lt_of_lt_of_le hφd hdd.func.insts_le) ?_
        rw [hd']
        refine incoming?_addIncoming hφd hop_d fun e he => ?_
        rw [List.mem_singleton.mp he]
        exact Nat.ne_of_lt hhere, fun incoming hin => by
        cases hop.symm.trans hin
        rw [hds.op_eq φ (Nat.lt_of_lt_of_le hφd hdd.func.insts_le), hd',
          op_addIncoming _ _ hφd hop_d]⟩ }

section

variable {mid s₁ s₂ : Site} {e : BlockId} {start stop : Operand} {name : String} {l : OpenLoop}
  {r : BuiltLoop} {φ : InstId}

theorem Opened.body_lt (ho : Opened s mid s₁ here start stop name l φ) :
    l.body < mid.func.blocks.size := by
  rw [ho.size_eq, ho.body_eq]
  exact Nat.lt_succ_self _

theorem Opened.header_ne_body (ho : Opened s mid s₁ here start stop name l φ) :
    l.header ≠ l.body := by
  rw [ho.header_eq, ho.body_eq]
  exact Nat.ne_of_lt (Nat.lt_succ_self _)

/-- A loop was built from `s` to `s'`.  It was opened from `s` to `s₁`, with its phi alone in the
header at `mid`, and its body was built from there to `s₂`, where it ended in the block `e`. -/
structure Looped (s mid s₁ s₂ s' : Site) (here e : BlockId) (start stop : Operand) (name : String)
    (l : OpenLoop) (r : BuiltLoop) (φ : InstId) : Prop where
  opened : Opened s mid s₁ here start stop name l φ
  tested : mid.Continues s₁ l.header l.header
  filled : s₁.Continues s₂ l.body e
  closed : Closed s₂ s' l e r φ

/-- A loop is built from these parts when its body continues the site. -/
theorem looped_of_openLoop (hs : s.Ready here)
    (hopen : openLoop here start stop name s = (.ok l, s₁))
    (hbody : s₁.Ready l.body → s₁.Continues s₂ l.body e)
    (hclose : closeLoop l e s₂ = (.ok r, s')) :
    ∃ mid φ, Looped s mid s₁ s₂ s' here e start stop name l r φ := by
  obtain ⟨mid, φ, ho⟩ := Build.opened hs hopen
  obtain ⟨_, _, htest⟩ := value_eq_ok.mp ho.test
  have hmid := continues_of_emit rfl ho.ready.listed htest
  have hcont :=
    hbody ⟨hmid.ready.listed, Nat.lt_of_lt_of_le ho.body_lt hmid.grows.func.blocks_le⟩
  have hlt : φ < s₁.func.insts.size := Nat.lt_of_lt_of_le ho.lt hmid.grows.func.insts_le
  have hne : e ≠ l.header := by
    rcases hcont.there_eq_or_le with rfl | hle
    · exact Ne.symm ho.header_ne_body
    · exact Nat.ne_of_gt (Nat.lt_of_lt_of_le hmid.ready.lt hle)
  have hhere : here < s₂.func.blocks.size :=
    Nat.lt_of_lt_of_le hs.lt ((ho.grows.trans hmid.grows).trans hcont.grows).func.blocks_le
  have hc : Closed s₂ s' l e r φ :=
    Build.closed hcont.ready (Nat.lt_of_lt_of_le hmid.ready.lt hcont.grows.func.blocks_le) hne
      ho.induction_eq (Nat.lt_of_lt_of_le hlt hcont.grows.func.insts_le)
      ((hcont.op_eq φ hlt).trans ((hmid.op_eq φ ho.lt).trans ho.op_eq)) hhere hclose
  exact ⟨mid, φ, ho, hmid, hcont, hc⟩

/-- A loop whose body continues every site is built from these parts. -/
theorem looped {body : BlockId → Operand → Build BlockId} (hs : s.Ready here)
    (hbody : ∀ {t t' : Site} {first last : BlockId} {v : Operand}, t.Ready first →
      body first v t = (.ok last, t') → t.Continues t' first last)
    (h : loop here start stop name body s = (.ok r, s')) :
    ∃ mid s₁ s₂ e l φ, Looped s mid s₁ s₂ s' here e start stop name l r φ ∧
      body l.body (.inst φ) s₁ = (.ok e, s₂) := by
  obtain ⟨l, s₁, hopen, hrest⟩ := bind_eq_ok.mp h
  obtain ⟨e, s₂, hcode, hclose⟩ := bind_eq_ok.mp hrest
  obtain ⟨mid, φ, hloop⟩ := looped_of_openLoop hs hopen (fun ht => hbody ht hcode) hclose
  exact ⟨mid, s₁, s₂, e, l, φ, hloop, hloop.opened.induction_eq ▸ hcode⟩

/-- Before and after a loop nothing else has changed. -/
theorem Looped.continues (h : Looped s mid s₁ s₂ s' here e start stop name l r φ) :
    s.Continues s' here r.exit where
  grows := ((h.opened.grows.trans h.tested.grows).trans h.filled.grows).trans h.closed.grows
  ready := h.closed.ready
  elsewhere b hb hne := by
    have hmid : b < mid.func.blocks.size := Nat.lt_of_lt_of_le hb h.opened.grows.func.blocks_le
    have hlt : b < s₁.func.blocks.size := Nat.lt_of_lt_of_le hmid h.tested.grows.func.blocks_le
    have hheader : b ≠ l.header := h.opened.header_eq ▸ Nat.ne_of_lt hb
    have hl : b ≠ l.body := h.opened.body_eq ▸ Nat.ne_of_lt (Nat.lt_succ_of_lt hb)
    have he : b ≠ e := by
      rcases h.filled.there_eq_or_le with rfl | hle
      · exact hl
      · exact Nat.ne_of_lt (Nat.lt_of_lt_of_le hlt hle)
    rw [h.closed.elsewhere b (Nat.lt_of_lt_of_le hlt h.filled.grows.func.blocks_le) he hheader,
      h.filled.elsewhere b hlt hl, h.tested.elsewhere b hmid hheader, h.opened.elsewhere b hb hne]
  op_eq i hi := by
    have hmid : i < mid.func.insts.size := Nat.lt_of_lt_of_le hi h.opened.grows.func.insts_le
    have hlt : i < s₁.func.insts.size := Nat.lt_of_lt_of_le hmid h.tested.grows.func.insts_le
    have hφ : i ≠ φ := Nat.ne_of_lt (Nat.lt_of_lt_of_le hi h.opened.insts_le)
    rw [h.closed.stays i (Nat.lt_of_lt_of_le hlt h.filled.grows.func.insts_le) hφ,
      h.filled.op_eq i hlt, h.tested.op_eq i hmid, h.opened.stays i hi]
  there_eq_or_le := .inr (h.closed.exit_eq ▸ Nat.le_succ_of_le
    ((h.opened.grows.trans h.tested.grows).trans h.filled.grows).func.blocks_le)

end

end Build

/-! ## Cycles -/

namespace World

variable {W : World} {s mid s₁ s₂ s' : Site} {here e : BlockId} {start stop : Operand}
  {name : String} {φ : InstId} {sc : Scalar}

variable (W) in
/-- The ways around a loop of the finished function. -/
structure Cycle (s mid s₁ s₂ s' : Site) (here e : BlockId) (start cond : Operand) (sc : Scalar)
    (φ : InstId) (l : BuiltLoop) : Prop where
  enter : ∀ {ρ : Values} {rs : Array Region} {d : Datum}, W.value ρ start = some d →
    W.Goes (W.point s here ρ rs) (W.point mid l.header (ρ.set φ d) rs)
  again : ∀ {ρ : Values} {rs : Array Region}, W.value ρ cond = some (.bool true) →
    W.Goes (W.point s₁ l.header ρ rs) (W.point s₁ l.body ρ rs)
  leave : ∀ {ρ : Values} {rs : Array Region}, W.value ρ cond = some (.bool false) →
    W.Goes (W.point s₁ l.header ρ rs) (W.point s' l.exit ρ rs)
  next : ∀ {ρ : Values} (rs : Array Region) {i : Int},
    W.Knows s₂ ρ [.val (.inst φ) (.int sc i)] →
    ∃ ρ' : Values, W.Goes (W.point s₂ e ρ rs)
        (W.point mid l.header (ρ'.set φ (.int (sc.wrap (i + 1)))) rs) ∧
      ∀ j < s₂.func.insts.size, ρ' j = ρ j

/-- One is added to the induction value. -/
theorem Does.countUp {l : OpenLoop} {latch : BlockId} {rs : Array Region} {i : Int}
    (hφ : l.induction = .inst φ) (hl : l.scalar = sc) (hsc : sc.IsSigned) :
    W.Does (Build.countUp l latch) latch [.val (.inst φ) (.int sc i)] rs fun v there Γ rs' =>
      there = latch ∧ rs' = rs ∧ .val v (.int sc (i + 1)) ∈ Γ := by
  subst hl
  rw [Build.countUp, hφ]
  exact .bind (.int hsc (n := 1) (by decide) fun one =>
    .add fun v => ⟨rfl, rfl, List.mem_cons_self⟩)

theorem cycle {l : OpenLoop} {r : BuiltLoop}
    (h : Build.Looped s mid s₁ s₂ s' here e start stop name l r φ) (hl : l.scalar = sc)
    (hsc : sc.IsSigned) (hg : s'.Grows W.site) :
    W.Cycle s mid s₁ s₂ s' here e start l.cond sc φ r := by
  obtain ⟨ho, hmid, hbody, hc⟩ := h
  have hg₂ : s₂.Grows W.site := hc.grows.trans hg
  have hg₁ : s₁.Grows W.site := hbody.grows.trans hg₂
  have hg₀ : mid.Grows W.site := hmid.grows.trans hg₁
  have hphis : mid.func.phis l.header = [φ] := by
    rw [Func.phis, ho.body_header]
    simp [ho.op_eq, Op.isPhi]
  have hlt : l.header < s₁.func.blocks.size := hmid.ready.lt
  have hlt_body : l.body < s₁.func.blocks.size :=
    Nat.lt_of_lt_of_le ho.body_lt hmid.grows.func.blocks_le
  have hne := ho.header_ne_body
  have hbody_body : s₁.func.body l.body = [] :=
    (hmid.elsewhere _ ho.body_lt (Ne.symm hne)).trans ho.body_body
  obtain ⟨a, b, ha, hbranch, hb⟩ := hc.branch
  have hheader : a.func.body l.header = s₁.func.body l.header :=
    ha.trans (hbody.elsewhere _ hlt hne)
  refine ⟨fun {ρ rs d} hd => ?_, fun {ρ rs} hd => ?_, fun {ρ rs} hd => ?_, fun {ρ} rs {i} hi => ?_⟩
  · obtain ⟨a, b, ha, hbr, hw⟩ := ho.branch
    rw [hc.header_eq, ← point_congr ha]
    refine goes_of_leaves_phi rfl hbr (hw.trans hg₀.within) .br ho.body_header hphis ho.ready.lt
      ho.lt hg₀ (hg₀.func.incoming?_eq ho.lt ?_) hd
    simp [Func.incoming?, ho.op_eq]
  · rw [hc.header_eq, hc.body_eq, ← point_congr hheader]
    exact goes_of_leaves_nil rfl hbranch (hb.trans hg).within (.condBr hd) hbody_body hlt_body hg₁
  · rw [hc.header_eq, ← point_congr hheader]
    exact goes_of_leaves_nil rfl hbranch (hb.trans hg).within (.condBr hd) hc.body_exit
      hc.ready.lt hg
  · obtain ⟨a, b, ha, hbr, hw⟩ := hc.leave
    obtain ⟨x, y, next, z, hx, hready, hempty, hcount, hy, hz, hback, hin, _⟩ := hc.count
    have hdoes : W.Does (Build.countUp l r.latch) r.latch [.val (.inst φ) (.int sc i)] rs _ :=
      .countUp ho.induction_eq hl hsc
    obtain ⟨there, Γ, rs', ⟨hthere, hrs', hmem⟩, hcont, hrun⟩ := hdoes.outcome hready hcount
    subst there rs'
    have hgy : y.Grows W.site := hy.trans hg
    obtain ⟨ρ', hgo, hknow, hkeep⟩ := hrun hgy (hi.grows hx fun _ _ => rfl)
    have hleave : W.Goes (W.point a e ρ rs) (W.point x r.latch ρ rs) :=
      goes_of_leaves_nil rfl hbr (hw.trans hg).within .br hempty hready.lt (hcont.grows.trans hgy)
    have hlt' : φ < s'.func.insts.size :=
      Nat.lt_of_lt_of_le ho.lt ((hmid.grows.trans hbody.grows).trans hc.grows).func.insts_le
    have hagain : W.Goes (W.point y r.latch ρ' rs)
        (W.point mid l.header (ρ'.set φ (.int (sc.wrap (i + 1)))) rs) := by
      rw [← point_congr hz]
      exact goes_of_leaves_phi rfl hback hg.within .br ho.body_header hphis ho.ready.lt ho.lt hg₀
        (hg.func.incoming?_eq hlt' hin) (hknow _ hmem).2
    rw [hc.header_eq, ← point_congr ha]
    exact ⟨ρ', hleave.trans (hgo.trans hagain),
      fun j hj => hkeep j (Nat.lt_of_lt_of_le hj hx.func.insts_le)⟩

/-! ## The rule -/

variable {Γ : Facts} {rs : Array Region} {n : Nat}

/-- The test of a loop. -/
theorem exists_test {header : BlockId} {cond : Operand} {i : Nat} [Γ.Has (.inst φ) (.int sc i)]
    [Γ.Has stop (.int sc n)] (hi : i < 2 ^ sc.bits) (hn : n < 2 ^ sc.bits) (rs : Array Region)
    (hs : s.Ready header) (h : Build.icmp header .ult (.inst φ) stop name s = (.ok cond, s'))
    (hg : s'.Grows W.site) {ρ : Values} (hρ : W.Knows s ρ Γ) : ∃ ρ',
      W.Goes (W.point s header ρ rs) (W.point s' header ρ' rs) ∧
      W.value ρ' cond = some (.bool (decide (i < n))) ∧ ∀ j < s.func.insts.size, ρ' j = ρ j := by
  have hdoes : W.Does (Build.icmp header .ult (.inst φ) stop name) header Γ rs
      fun v there Γ' rs' => there = header ∧ rs' = rs ∧ .val v (.bool (decide (i < n))) ∈ Γ' := by
    refine .ult fun v => ⟨rfl, rfl, ?_⟩
    have hmod : ∀ {k : Nat}, k < 2 ^ sc.bits → (k : Int) % (2 ^ sc.bits : Nat) = k := fun hk =>
      Int.emod_eq_of_lt (Int.natCast_nonneg _) (Int.ofNat_lt.mpr hk)
    simp only [hmod hi, hmod hn, Int.ofNat_lt]
    exact List.mem_cons_self
  obtain ⟨there, Γ', rs', ⟨hthere, hrs', hmem⟩, _, hrun⟩ := hdoes.outcome hs h
  subst there rs'
  obtain ⟨ρ', hgo, hknow, hkeep⟩ := hrun hg hρ
  exact ⟨ρ', hgo, (hknow _ hmem).2, hkeep⟩

section

variable {l : OpenLoop} {ρ : Values} (ho : Build.Opened s mid s₁ here start stop name l φ)
include ho

theorem scalar_of_opened {k : Int} [Γ.Has start (.int sc k)] (hρ : W.Knows s ρ Γ) :
    l.scalar = sc ∧ sc.IsSigned := by
  obtain ⟨ty, hty, hel, _⟩ := ho.typed
  obtain ⟨t, ht, hshape, hsc⟩ := hρ.fits start
  cases hty.symm.trans ht
  rw [TypeTable.elementScalar_of_scalar hshape] at hel
  exact ⟨(Option.some.inj hel).symm, hsc⟩

/-- What is known in the header, with the phi at some value. -/
theorem knows_header {k : Int} [Γ.Has start (.int sc k)] (hg : mid.Grows W.site)
    (hρ : W.Knows s ρ Γ) {ρ' : Values} (hkeep : ∀ j < s.func.insts.size, ρ' j = ρ j) (i : Int) :
    W.Knows mid (ρ'.set φ (.int (sc.wrap i)))
      (.val (.inst φ) (.int sc i) :: .name (.inst φ) (name ++ ".iv") :: Γ) := by
  obtain ⟨ty, hty, _, hof⟩ := ho.typed
  obtain ⟨t, ht, hm⟩ := hρ.fits start
  cases hty.symm.trans ht
  refine .cons ⟨⟨_, Func.operandTy_inst ho.lt, hof (.int sc i) hm⟩, Values.set_self _ _ _⟩
    (.cons ⟨φ, rfl, ?_, (hg.func.name_eq φ ho.lt).trans ho.inst_name⟩
      (hρ.grows ho.grows fun j hj => ?_))
  · exact (hg.func.widens φ ho.lt).isPhi_eq.trans (ho.op_eq ▸ rfl)
  · rw [Values.set_of_ne (Nat.ne_of_lt (Nat.lt_of_lt_of_le hj ho.insts_le)), hkeep j hj]

end

section

variable {l : OpenLoop} {r : BuiltLoop} {ρ ρ' : Values} {i : Nat} [Γ.Has start (.int sc 0)]
  [Γ.Has stop (.int sc n)] (h : Build.Looped s mid s₁ s₂ s' here e start stop name l r φ)
  (hg : s'.Grows W.site) (hn : n < 2 ^ sc.bits) (hρ : W.Knows s ρ Γ)
  (hkeep : ∀ j < s.func.insts.size, ρ' j = ρ j)
include h hg hn hρ hkeep

/-- In the header the induction value is compared with the end. -/
theorem exists_tested (hi : i ≤ n) (rs : Array Region) : ∃ ρ₁ : Values,
    W.Goes (W.point mid r.header (ρ'.set φ (.int (sc.wrap i))) rs) (W.point s₁ r.header ρ₁ rs) ∧
    W.value ρ₁ l.cond = some (.bool (decide (i < n))) ∧
    W.Knows s₁ ρ₁ (.val (.inst φ) (.int sc i) :: .name (.inst φ) (name ++ ".iv") :: Γ) ∧
    ∀ j < s.func.insts.size, ρ₁ j = ρ j := by
  have hg₁ : s₁.Grows W.site := (h.filled.grows.trans h.closed.grows).trans hg
  have hknow := knows_header h.opened (h.tested.grows.trans hg₁) hρ hkeep i
  obtain ⟨ρ₁, hgo, hvalue, hkeep₁⟩ := exists_test (Nat.lt_of_le_of_lt hi hn) hn rs h.opened.ready
    h.opened.test hg₁ hknow
  refine ⟨ρ₁, h.closed.header_eq ▸ hgo, hvalue, hknow.grows h.tested.grows hkeep₁, fun j hj => ?_⟩
  rw [hkeep₁ j (Nat.lt_of_lt_of_le hj h.opened.grows.func.insts_le),
    Values.set_of_ne (Nat.ne_of_lt (Nat.lt_of_lt_of_le hj h.opened.insts_le)), hkeep j hj]

/-- One iteration, from the header back to the header. -/
theorem exists_iteration {rs' : Array Region} (hi : i < n)
    (hbody : ∀ {ρ₁ : Values},
      W.Knows s₁ ρ₁ (.val (.inst φ) (.int sc i) :: .name (.inst φ) (name ++ ".iv") :: Γ) →
      ∃ ρ₂ : Values, W.Goes (W.point s₁ l.body ρ₁ rs) (W.point s₂ e ρ₂ rs') ∧
        ∀ j < s₁.func.insts.size, ρ₂ j = ρ₁ j) :
    ∃ ρ'' : Values, W.Goes (W.point mid r.header (ρ'.set φ (.int (sc.wrap i))) rs)
        (W.point mid r.header (ρ''.set φ (.int (sc.wrap (i + 1 : Nat)))) rs') ∧
      ∀ j < s.func.insts.size, ρ'' j = ρ j := by
  obtain ⟨hl, hsc⟩ := scalar_of_opened h.opened hρ
  have hcycle := cycle h hl hsc hg
  obtain ⟨ρ₁, hgo₁, hvalue, hknow, hkeep₁⟩ := exists_tested h hg hn hρ hkeep (Nat.le_of_lt hi) rs
  rw [decide_eq_true hi] at hvalue
  obtain ⟨ρ₂, hgo₂, hkeep₂⟩ := hbody hknow
  have hphi : W.Knows s₂ ρ₂ [.val (.inst φ) (.int sc i)] := by
    intro f hf
    rw [List.mem_singleton.mp hf]
    exact (hknow _ List.mem_cons_self).grows h.filled.grows hkeep₂
  obtain ⟨ρ₃, hgo₃, hkeep₃⟩ := hcycle.next rs' hphi
  have hgo := hgo₁.trans (hcycle.again hvalue)
  rw [h.closed.body_eq] at hgo
  refine ⟨ρ₃, (hgo.trans hgo₂).trans hgo₃, fun j hj => ?_⟩
  have hlt : j < s₁.func.insts.size :=
    Nat.lt_of_lt_of_le hj (h.opened.grows.trans h.tested.grows).func.insts_le
  rw [hkeep₃ j (Nat.lt_of_lt_of_le hlt h.filled.grows.func.insts_le), hkeep₂ j hlt, hkeep₁ j hj]

end

/-- Code with a loop whose body keeps an invariant.  The invariant is indexed by the induction
value, which the body knows by its name. -/
theorem Does.loop {body : BlockId → Operand → Build BlockId} {I : Nat → Array Region → Prop}
    {Q : BuiltLoop → BlockId → Facts → Array Region → Prop} [Γ.Has start (.int sc 0)]
    [Γ.Has stop (.int sc n)] (hpos : 0 < n) (hn : n < 2 ^ sc.bits) (hI : I 0 rs)
    (hbody : ∀ i < n, ∀ rs, I i rs → ∀ here φ,
      W.Does (body here φ) here (.val φ (.int sc i) :: .name φ (name ++ ".iv") :: Γ) rs
        fun e there _ rs' => there = e ∧ I (i + 1) rs')
    (hQ : ∀ l rs', I n rs' → Q l l.exit Γ rs') :
    W.Does (Build.loop here start stop name body) here Γ rs Q := by
  refine ⟨fun {s s' r} hs h => ?_⟩
  -- What the body does to the site does not depend on the iteration.
  obtain ⟨mid, s₁, s₂, e, l, φ, hloop, hcode⟩ := Build.looped hs
    (fun {t t' first last v} ht hcode => by
    obtain ⟨there, _, _, ⟨hthere, _⟩, hcont, _⟩ := (hbody 0 hpos rs hI first v).outcome ht hcode
    exact hthere ▸ hcont) h
  have hready : s₁.Ready l.body := ⟨hloop.tested.ready.listed,
    Nat.lt_of_lt_of_le hloop.opened.body_lt hloop.tested.grows.func.blocks_le⟩
  have hiter : ∀ i ≤ n, ∃ rsᵢ, I i rsᵢ ∧ (s'.Grows W.site → ∀ {ρ : Values}, W.Knows s ρ Γ →
      ∃ ρ' : Values, W.Goes (W.point s here ρ rs)
          (W.point mid r.header (ρ'.set φ (.int (sc.wrap i))) rsᵢ) ∧
        ∀ j < s.func.insts.size, ρ' j = ρ j) := by
    intro i
    induction i with
    | zero =>
      refine fun _ => ⟨rs, hI, fun hg {ρ} hρ => ⟨ρ, ?_, fun _ _ => rfl⟩⟩
      obtain ⟨hl, hsc⟩ := scalar_of_opened hloop.opened hρ
      exact (cycle hloop hl hsc hg).enter (hρ.value_eq start)
    | succ i ih =>
      intro hi
      obtain ⟨rsᵢ, hIᵢ, hrun⟩ := ih (Nat.le_of_succ_le hi)
      obtain ⟨there, _, rs', ⟨hthere, hI'⟩, _, hbody_run⟩ :=
        (hbody i hi rsᵢ hIᵢ l.body (.inst φ)).outcome hready hcode
      subst there
      refine ⟨rs', hI', fun hg {ρ} hρ => ?_⟩
      obtain ⟨ρ₀, hgo₀, hkeep₀⟩ := hrun hg hρ
      obtain ⟨ρ₁, hgo₁, hkeep₁⟩ := exists_iteration hloop hg hn hρ hkeep₀ hi fun hknow => by
        obtain ⟨ρ₂, hgo₂, _, hkeep₂⟩ := hbody_run (hloop.closed.grows.trans hg) hknow
        exact ⟨ρ₂, hgo₂, hkeep₂⟩
      exact ⟨ρ₁, hgo₀.trans hgo₁, hkeep₁⟩
  obtain ⟨rs', hI', hrun⟩ := hiter n (Nat.le_refl n)
  refine ⟨r.exit, Γ, rs', hQ r rs' hI', hloop.continues, fun hg {ρ} hρ => ?_⟩
  obtain ⟨hl, hsc⟩ := scalar_of_opened hloop.opened hρ
  obtain ⟨ρ₀, hgo₀, hkeep₀⟩ := hrun hg hρ
  obtain ⟨ρ₁, hgo₁, hvalue, _, hkeep₁⟩ := exists_tested hloop hg hn hρ hkeep₀ (Nat.le_refl n) rs'
  rw [decide_eq_false (Nat.lt_irrefl n)] at hvalue
  exact ⟨ρ₁, (hgo₀.trans hgo₁).trans ((cycle hloop hl hsc hg).leave hvalue),
    hρ.grows hloop.continues.grows hkeep₁, hkeep₁⟩

end World

end LoopNest
