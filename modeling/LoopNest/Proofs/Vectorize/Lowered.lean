import LoopNest.Pass.Vectorize.Plan
import LoopNest.Proofs.Typing.Extends

/-!
# How the body of a loop is carried over

`Lowers` says what the decision about one instruction of the body is based on: the lane shapes
of its operands, and the vector types that were interned.  An instruction is kept as it is when
none of its operands is a vector.  Otherwise it is a load or store of consecutive elements, or an
operation that works lane by lane, and its uniform operands are splatted.

`lowers_of_lowerInst` and `lowersAll_of_lowerBody` read this off the decisions.
-/

namespace LoopNest

/-- Operations that work lane by lane. -/
def Op.isLanewise : Op → Bool
  | .binary _ _ _ | .fcmp _ _ _ | .select _ _ _ => true
  | _ => false

namespace Vectorize

variable {tt tt' : TypeTable}

/-! ## Decisions that succeed -/

section

variable {α β : Type}

theorem bind_eq_ok {x : Planning α} {k : α → Planning β} {b : β} :
    (x >>= k) tt = (.ok b, tt') ↔ ∃ a tt₁, x tt = (.ok a, tt₁) ∧ k a tt₁ = (.ok b, tt') := by
  change (match x tt with | (r, tt₁) => ExceptT.bindCont k r tt₁) = _ ↔ _
  cases hx : x tt with
  | mk r tt₁ =>
    cases r with
    | ok a =>
      refine ⟨fun h => ⟨a, tt₁, rfl, h⟩, ?_⟩
      rintro ⟨_, _, ⟨⟩, h⟩
      exact h
    | error e => exact ⟨nofun, nofun⟩

theorem pure_eq_ok {a b : α} : (pure a : Planning α) tt = (.ok b, tt') ↔ a = b ∧ tt = tt' := by
  constructor
  · rintro ⟨⟩
    exact ⟨rfl, rfl⟩
  · rintro ⟨rfl, rfl⟩
    rfl

theorem reject_eq_ok {r : VectorRejection} {a : α} : reject r tt = (.ok a, tt') ↔ False :=
  ⟨nofun, False.elim⟩

theorem ofExcept_eq_ok {r : Except VectorRejection α} {a : α} :
    ofExcept r tt = (.ok a, tt') ↔ r = .ok a ∧ tt = tt' := Prod.ext_iff

theorem types_eq_ok {a : TypeTable} : types tt = (.ok a, tt') ↔ tt = a ∧ tt = tt' := by
  constructor
  · rintro ⟨⟩
    exact ⟨rfl, rfl⟩
  · rintro ⟨rfl, rfl⟩
    rfl

theorem intern_eq_ok {s : Shape} {t : TyId} : intern s tt = (.ok t, tt') ↔ tt.intern s = (t, tt') := by
  constructor
  · rintro ⟨⟩
    rfl
  · intro h
    change (Except.ok (tt.intern s).1, (tt.intern s).2) = _
    rw [h]

end

/-! ## Relations -/

/-- The type of vectors whose lanes have a given type. -/
def VectorOf (tt : TypeTable) (width : Nat) (t v : TyId) : Prop :=
  ∃ s, tt.elementScalar? t = some s ∧ tt.lookup (Shape.vector width s).unnamed = some v

theorem VectorOf.mono {width : Nat} {t v : TyId} (h : VectorOf tt width t v)
    (ht : tt.Extends tt') : VectorOf tt' width t v := by
  obtain ⟨s, hs, hv⟩ := h
  exact ⟨s, ht.elementScalar_eq hs, ht.lookup_eq hv⟩

/-- An instruction of the body, by the lane shapes of what comes before: its own lane shape, and
how it is carried over. -/
inductive Lowers (tt : TypeTable) (c : Context) (shapes : LaneShapes) (i : InstId) :
    LaneShape → Lowering → Prop
  /-- It stays, since no operand is a vector. -/
  | scalar {s : LaneShape} (hphi : (c.func.op i).isPhi = false)
      (hterm : (c.func.op i).isTerminator = false) (hs : s ≠ .varying)
      (hops : ∀ v ∈ (c.func.op i).operands, ∃ s', laneShape c shapes v = .ok s' ∧ s' ≠ .varying) :
      Lowers tt c shapes i s .scalar
  /-- A load of consecutive elements. -/
  | load {ptr : Operand} {t : TyId} (hop : c.func.op i = .load ptr)
      (hptr : laneShape c shapes ptr = .ok (.address 1))
      (ht : VectorOf tt c.config.width (c.func.inst i).ty t) :
      Lowers tt c shapes i .varying (.widen t [])
  /-- A store to consecutive elements. -/
  | store {v ptr : Operand} {t : TyId} {splats : List (Operand × TyId)}
      (hop : c.func.op i = .store v ptr) (hptr : laneShape c shapes ptr = .ok (.address 1))
      (ht : VectorOf tt c.config.width (c.func.tyOf v) t)
      (hv : laneShape c shapes v = .ok .varying ∧ splats = [] ∨
        laneShape c shapes v = .ok .uniform ∧ splats = [(v, t)]) :
      Lowers tt c shapes i .uniform (.widen (c.func.inst i).ty splats)
  /-- An operation on vectors, with some of them splatted. -/
  | lanewise {t : TyId} {splats : List (Operand × TyId)}
      (hop : (c.func.op i).isLanewise = true)
      (ht : VectorOf tt c.config.width (c.func.inst i).ty t)
      (hops : ∀ v ∈ (c.func.op i).operands, laneShape c shapes v = .ok .varying ∨
        laneShape c shapes v = .ok .uniform ∧ ∃ u, (v, u) ∈ splats)
      (hsplats : ∀ v u, (v, u) ∈ splats → v ∈ (c.func.op i).operands ∧
        laneShape c shapes v = .ok .uniform ∧ VectorOf tt c.config.width (c.func.tyOf v) u) :
      Lowers tt c shapes i .varying (.widen t splats)

/-- The instructions of the body, one after the other. -/
inductive LowersAll (tt : TypeTable) (c : Context) :
    LaneShapes → List InstId → List (InstId × Lowering) → Prop
  | nil {shapes : LaneShapes} : LowersAll tt c shapes [] []
  | cons {shapes : LaneShapes} {i : InstId} {is : List InstId} {s : LaneShape} {low : Lowering}
      {steps : List (InstId × Lowering)} (h : Lowers tt c shapes i s low)
      (hs : LowersAll tt c ((.inst i, s) :: shapes) is steps) :
      LowersAll tt c shapes (i :: is) ((i, low) :: steps)

variable {c : Context} {shapes : LaneShapes} {i : InstId} {s : LaneShape} {low : Lowering}

theorem Lowers.mono (h : Lowers tt c shapes i s low) (ht : tt.Extends tt') :
    Lowers tt' c shapes i s low := by
  cases h with
  | scalar hphi hterm hs hops => exact .scalar hphi hterm hs hops
  | load hop hptr hv => exact .load hop hptr (hv.mono ht)
  | store hop hptr hty hv => exact .store hop hptr (hty.mono ht) hv
  | lanewise hop hty hops hsplats =>
    refine .lanewise hop (hty.mono ht) hops fun v u hmem => ?_
    obtain ⟨hv, hshape, hu⟩ := hsplats v u hmem
    exact ⟨hv, hshape, hu.mono ht⟩

theorem LowersAll.mono {is : List InstId} {steps : List (InstId × Lowering)}
    (h : LowersAll tt c shapes is steps) (ht : tt.Extends tt') : LowersAll tt' c shapes is steps := by
  induction h with
  | nil => exact .nil
  | cons h _ ih => exact .cons (h.mono ht) ih

/-! ## Reading decisions -/

theorem lookup_of_intern {s : Shape} {t : TyId} (h : intern s tt = (.ok t, tt')) :
    tt.Extends tt' ∧ tt'.lookup s.unnamed = some t := by
  have hintern := intern_eq_ok.mp h
  have hext := tt.extends_intern s
  have hlook := tt.lookup_intern s
  rw [hintern] at hext hlook
  exact ⟨hext, hlook⟩

theorem vectorOf_vectorTy {t v : TyId} (h : vectorTy c t i tt = (.ok v, tt')) :
    tt.Extends tt' ∧ VectorOf tt' c.config.width t v := by
  unfold vectorTy at h
  obtain ⟨_, _, htypes, h⟩ := bind_eq_ok.mp h
  obtain ⟨rfl, rfl⟩ := types_eq_ok.mp htypes
  cases hs : tt.elementScalar? t with
  | none =>
    simp only [hs, reject_eq_ok] at h
  | some s =>
    simp only [hs] at h
    split at h
    · exact (reject_eq_ok.mp h).elim
    · split at h
      · exact (reject_eq_ok.mp h).elim
      · obtain ⟨hext, hlook⟩ := lookup_of_intern h
        exact ⟨hext, s, hext.elementScalar_eq hs, hlook⟩

theorem forall₂_of_mapM_eq_ok {α β ε : Type} {k : α → Except ε β} :
    ∀ {as : List α} {bs : List β}, as.mapM k = .ok bs → List.Forall₂ (fun a b => k a = .ok b) as bs
  | [], _, h => by
    cases h
    exact .nil
  | a :: as, bs, h => by
    rw [List.mapM_cons, bind_eq_ok_iff] at h
    obtain ⟨b, hb, h⟩ := h
    obtain ⟨bs', hbs, h⟩ := bind_eq_ok_iff.mp h
    cases h
    exact .cons hb (forall₂_of_mapM_eq_ok hbs)

/-- The splats of a widened operation: its uniform operands, with vector types. -/
theorem splats_of_splatsFor {user : InstId} : ∀ {ops : List (Operand × LaneShape)}
    {done splats : List (Operand × TyId)} {tt : TypeTable},
    splatsFor c user ops done tt = (.ok splats, tt') →
    tt.Extends tt' ∧ (∀ x ∈ done, x ∈ splats) ∧
      (∀ v, (v, LaneShape.uniform) ∈ ops → ∃ u, (v, u) ∈ splats) ∧
      ∀ v u, (v, u) ∈ splats → (v, u) ∈ done ∨ (v, LaneShape.uniform) ∈ ops ∧
        VectorOf tt' c.config.width (c.func.tyOf v) u
  | [], done, splats, tt, h => by
    obtain ⟨rfl, rfl⟩ := pure_eq_ok.mp h
    exact ⟨.refl tt, fun _ hx => hx, fun _ hv => absurd hv List.not_mem_nil, fun _ _ hx => .inl hx⟩
  | (v, s) :: ops, done, splats, tt, h => by
    unfold splatsFor at h
    split at h
    · rename_i hcond
      obtain ⟨rfl, _⟩ := hcond
      obtain ⟨t, tt₁, ht, h⟩ := bind_eq_ok.mp h
      obtain ⟨hext₁, hvec⟩ := vectorOf_vectorTy ht
      obtain ⟨hext, hdone, hall, hfrom⟩ := splats_of_splatsFor h
      have hmem : (v, t) ∈ splats := hdone _ (by simp)
      refine ⟨hext₁.trans hext, fun x hx => hdone x (by simp [hx]), fun w hw => ?_,
        fun w u hwu => ?_⟩
      · rcases List.mem_cons.mp hw with heq | hw
        · cases heq
          exact ⟨t, hmem⟩
        · exact hall w hw
      · rcases hfrom w u hwu with hd | ⟨hw, hu⟩
        · rcases List.mem_append.mp hd with hd | hd
          · exact .inl hd
          · cases List.mem_singleton.mp hd
            exact .inr ⟨List.mem_cons_self, hvec.mono hext⟩
        · exact .inr ⟨List.mem_cons_of_mem _ hw, hu⟩
    · rename_i hcond
      obtain ⟨hext, hdone, hall, hfrom⟩ := splats_of_splatsFor h
      refine ⟨hext, hdone, fun w hw => ?_, fun w u hwu => ?_⟩
      · rcases List.mem_cons.mp hw with heq | hw
        · cases heq
          -- It is uniform and not splatted now, so it was splatted before.
          have hdup : ¬ done.all (fun d => d.1 ≠ v) = true := fun hall => hcond ⟨rfl, hall⟩
          simp only [List.all_eq_true, decide_eq_true_eq, not_forall, not_not] at hdup
          obtain ⟨⟨w', u⟩, hmem, heq⟩ := hdup
          cases heq
          exact ⟨u, hdone _ hmem⟩
        · exact hall w hw
      · exact (hfrom w u hwu).imp_right fun ⟨hw, hu⟩ => ⟨List.mem_cons_of_mem _ hw, hu⟩

/-- The lane shapes of the operands of an instruction. -/
def Shaped (c : Context) (shapes : LaneShapes) (i : InstId) (ops : List LaneShape) : Prop :=
  List.Forall₂ (fun v s => laneShape c shapes v = .ok s) (c.func.op i).operands ops

theorem exists_mem_zip {α β : Type} {r : α → β → Prop} {as : List α} {bs : List β}
    (h : List.Forall₂ r as bs) {a : α} (ha : a ∈ as) : ∃ b, (a, b) ∈ as.zip bs := by
  induction h with
  | nil => exact absurd ha List.not_mem_nil
  | cons _ _ ih =>
    rcases List.mem_cons.mp ha with rfl | ha
    · exact ⟨_, List.mem_cons_self⟩
    · obtain ⟨b, hb⟩ := ih ha
      exact ⟨b, List.mem_cons_of_mem _ hb⟩

theorem Shaped.of_mem_zip {ops : List LaneShape} (h : Shaped c shapes i ops) {v : Operand}
    (hv : (v, s) ∈ (c.func.op i).operands.zip ops) : laneShape c shapes v = .ok s :=
  List.forall₂_iff_zip.mp h |>.2 hv

/-- An instruction without vector operands. -/
theorem Shaped.scalar {ops : List LaneShape} (h : Shaped c shapes i ops)
    (hphi : (c.func.op i).isPhi = false) (hterm : (c.func.op i).isTerminator = false)
    (hops : LaneShape.varying ∉ ops) (hs : s ≠ .varying) : Lowers tt c shapes i s .scalar := by
  refine .scalar hphi hterm hs fun v hv => ?_
  obtain ⟨s', hmem⟩ := exists_mem_zip h hv
  exact ⟨s', h.of_mem_zip hmem, fun heq => hops (heq ▸ (List.of_mem_zip hmem).2)⟩

section

variable {ops : List LaneShape}

theorem lowers_of_lowerGep {base index : Operand} (hs : Shaped c shapes i ops)
    (hop : c.func.op i = .gep base index) (h : lowerGep c i ops tt = (.ok (s, low), tt')) :
    tt.Extends tt' ∧ Lowers tt' c shapes i s low := by
  unfold lowerGep at h
  split at h
  · obtain ⟨heq, rfl⟩ := pure_eq_ok.mp h
    cases heq
    exact ⟨.refl tt, hs.scalar (by rw [hop]; rfl) (by rw [hop]; rfl) (by simp) (by simp)⟩
  · obtain ⟨heq, rfl⟩ := pure_eq_ok.mp h
    cases heq
    exact ⟨.refl tt, hs.scalar (by rw [hop]; rfl) (by rw [hop]; rfl) (by simp) (by simp)⟩
  · exact (reject_eq_ok.mp h).elim

theorem lowers_of_lowerLoad {ptr : Operand} (hs : Shaped c shapes i ops)
    (hop : c.func.op i = .load ptr) (h : lowerLoad c i ops tt = (.ok (s, low), tt')) :
    tt.Extends tt' ∧ Lowers tt' c shapes i s low := by
  unfold lowerLoad at h
  split at h
  · obtain ⟨heq, rfl⟩ := pure_eq_ok.mp h
    cases heq
    exact ⟨.refl tt, hs.scalar (by rw [hop]; rfl) (by rw [hop]; rfl) (by simp) (by simp)⟩
  · rename_i stride
    split at h
    · rename_i hone
      subst hone
      obtain ⟨t, tt₁, ht, h⟩ := bind_eq_ok.mp h
      obtain ⟨heq, rfl⟩ := pure_eq_ok.mp h
      cases heq
      obtain ⟨hext, hvec⟩ := vectorOf_vectorTy ht
      unfold Shaped at hs
      rw [hop] at hs
      cases hs with
      | cons hptr _ => exact ⟨hext, .load hop hptr hvec⟩
    · exact (reject_eq_ok.mp h).elim
  · exact (reject_eq_ok.mp h).elim

theorem lowers_of_lowerStore {v ptr : Operand} (hs : Shaped c shapes i ops)
    (hop : c.func.op i = .store v ptr) (h : lowerStore c i v ops tt = (.ok (s, low), tt')) :
    tt.Extends tt' ∧ Lowers tt' c shapes i s low := by
  unfold lowerStore at h
  split at h
  · rename_i vs stride
    split at h
    · exact (reject_eq_ok.mp h).elim
    · rename_i hone
      obtain rfl := Decidable.not_not.mp hone
      obtain ⟨t, tt₁, ht, h⟩ := bind_eq_ok.mp h
      obtain ⟨hext, hvec⟩ := vectorOf_vectorTy ht
      unfold Shaped at hs
      rw [hop] at hs
      cases hs with
      | cons hv hs =>
        cases hs with
        | cons hptr _ =>
          split at h
          · obtain ⟨heq, rfl⟩ := pure_eq_ok.mp h
            cases heq
            exact ⟨hext, .store hop hptr hvec (.inl ⟨hv, rfl⟩)⟩
          · obtain ⟨heq, rfl⟩ := pure_eq_ok.mp h
            cases heq
            exact ⟨hext, .store hop hptr hvec (.inr ⟨hv, rfl⟩)⟩
          · exact (reject_eq_ok.mp h).elim
  · exact (reject_eq_ok.mp h).elim
  · exact (reject_eq_ok.mp h).elim

theorem lowers_of_lowerIndex (hs : Shaped c shapes i ops) (hphi : (c.func.op i).isPhi = false)
    (hterm : (c.func.op i).isTerminator = false) (h : lowerIndex c i ops tt = (.ok (s, low), tt')) :
    tt.Extends tt' ∧ Lowers tt' c shapes i s low := by
  unfold lowerIndex at h
  split at h
  · exact (reject_eq_ok.mp h).elim
  · rename_i hvar
    have hvar : LaneShape.varying ∉ ops := by simpa using hvar
    cases hstride : c.natural.stride? c.func c.dom (.inst i) c.loop.iv with
    | none =>
      simp only [hstride, reject_eq_ok] at h
    | some k =>
      simp only [hstride] at h
      split at h
      · obtain ⟨heq, rfl⟩ := pure_eq_ok.mp h
        cases heq
        exact ⟨.refl tt, hs.scalar hphi hterm hvar (by simp)⟩
      · obtain ⟨heq, rfl⟩ := pure_eq_ok.mp h
        cases heq
        exact ⟨.refl tt, hs.scalar hphi hterm hvar (by simp)⟩

theorem lowers_of_lowerCompare (hs : Shaped c shapes i ops) (hphi : (c.func.op i).isPhi = false)
    (hterm : (c.func.op i).isTerminator = false)
    (h : lowerCompare c i ops tt = (.ok (s, low), tt')) :
    tt.Extends tt' ∧ Lowers tt' c shapes i s low := by
  unfold lowerCompare at h
  split at h
  · rename_i hall
    obtain ⟨heq, rfl⟩ := pure_eq_ok.mp h
    cases heq
    refine ⟨.refl tt, hs.scalar hphi hterm (fun hmem => ?_) (by simp)⟩
    simpa using List.all_eq_true.mp hall _ hmem
  · exact (reject_eq_ok.mp h).elim

theorem lowers_of_lowerLanewise (hs : Shaped c shapes i ops)
    (hop : (c.func.op i).isLanewise = true)
    (h : lowerLanewise c i (c.func.op i).operands ops tt = (.ok (s, low), tt')) :
    tt.Extends tt' ∧ Lowers tt' c shapes i s low := by
  have hphi : (c.func.op i).isPhi = false := by
    cases hx : c.func.op i <;> rw [hx] at hop <;> first | rfl | cases hop
  have hterm : (c.func.op i).isTerminator = false := by
    cases hx : c.func.op i <;> rw [hx] at hop <;> first | rfl | cases hop
  unfold lowerLanewise at h
  split at h
  · exact (reject_eq_ok.mp h).elim
  · rename_i hstrided
    simp only [List.any_eq_true, not_exists, not_and] at hstrided
    split at h
    · obtain ⟨t, tt₁, ht, h⟩ := bind_eq_ok.mp h
      obtain ⟨splats, tt₂, hsplats, h⟩ := bind_eq_ok.mp h
      obtain ⟨heq, rfl⟩ := pure_eq_ok.mp h
      cases heq
      obtain ⟨hext₁, hvec⟩ := vectorOf_vectorTy ht
      obtain ⟨hext₂, _, hall, hfrom⟩ := splats_of_splatsFor hsplats
      refine ⟨hext₁.trans hext₂, .lanewise hop (hvec.mono hext₂) (fun v hv => ?_)
        fun v u hmem => ?_⟩
      · obtain ⟨s, hmem⟩ := exists_mem_zip hs hv
        have hshape := hs.of_mem_zip hmem
        have hstr := hstrided s (List.of_mem_zip hmem).2
        cases s with
        | uniform => exact .inr ⟨hshape, hall v hmem⟩
        | varying => exact .inl hshape
        | index k => exact absurd rfl hstr
        | address k => exact absurd rfl hstr
      · rcases hfrom v u hmem with hmem | ⟨hmem, hu⟩
        · exact absurd hmem List.not_mem_nil
        · exact ⟨(List.of_mem_zip hmem).1, hs.of_mem_zip hmem, hu⟩
    · rename_i hvar
      obtain ⟨heq, rfl⟩ := pure_eq_ok.mp h
      cases heq
      exact ⟨.refl tt, hs.scalar hphi hterm (by simpa using hvar) (by simp)⟩

/-- What the decision about an instruction is based on. -/
theorem lowers_of_lowerInst (h : lowerInst c shapes i tt = (.ok (s, low), tt')) :
    tt.Extends tt' ∧ Lowers tt' c shapes i s low := by
  unfold lowerInst at h
  obtain ⟨ops, tt₁, hok, h⟩ := bind_eq_ok.mp h
  obtain ⟨hmap, rfl⟩ := ofExcept_eq_ok.mp hok
  have hs : Shaped c shapes i ops := forall₂_of_mapM_eq_ok hmap
  cases hop : (c.func.inst i).op with
  | gep b x =>
    simp only [hop] at h
    exact lowers_of_lowerGep hs hop h
  | bitcast v =>
    simp only [hop] at h
    split at h
    · rename_i hops
      obtain ⟨heq, rfl⟩ := pure_eq_ok.mp h
      cases heq
      exact ⟨.refl tt, hs.scalar (by rw [ Func.op, hop]; rfl) (by rw [ Func.op, hop]; rfl)
        (by simp [hops]) (by simp)⟩
    · exact (reject_eq_ok.mp h).elim
  | load p =>
    simp only [hop] at h
    exact lowers_of_lowerLoad hs hop h
  | store v p =>
    simp only [hop] at h
    exact lowers_of_lowerStore hs hop h
  | binary o l r =>
    have hlane : (c.func.op i).isLanewise = true := by rw [ Func.op, hop]; rfl
    simp only [hop] at h
    obtain ⟨_, _, htypes, h⟩ := bind_eq_ok.mp h
    obtain ⟨rfl, rfl⟩ := types_eq_ok.mp htypes
    split at h
    · exact lowers_of_lowerIndex hs (by rw [ Func.op, hop]; rfl) (by rw [ Func.op, hop]; rfl) h
    · rw [← hop] at h
      exact lowers_of_lowerLanewise hs hlane h
  | icmp o l r =>
    simp only [hop] at h
    exact lowers_of_lowerCompare hs (by rw [ Func.op, hop]; rfl) (by rw [ Func.op, hop]; rfl) h
  | fcmp o l r =>
    have hlane : (c.func.op i).isLanewise = true := by rw [ Func.op, hop]; rfl
    simp only [hop] at h
    rw [← hop] at h
    exact lowers_of_lowerLanewise hs hlane h
  | select x l r =>
    have hlane : (c.func.op i).isLanewise = true := by rw [ Func.op, hop]; rfl
    simp only [hop] at h
    rw [← hop] at h
    exact lowers_of_lowerLanewise hs hlane h
  | _ =>
    simp only [hop, reject_eq_ok] at h

end

/-- What the decisions about the body are based on. -/
theorem lowersAll_of_lowerBody : ∀ {is : List InstId} {shapes : LaneShapes} {tt tt' : TypeTable}
    {steps : List (InstId × Lowering)}, lowerBody c shapes is tt = (.ok steps, tt') →
    tt.Extends tt' ∧ LowersAll tt' c shapes is steps
  | [], _, tt, _, _, h => by
    obtain ⟨rfl, rfl⟩ := pure_eq_ok.mp h
    exact ⟨.refl tt, .nil⟩
  | i :: is, shapes, tt, tt', steps, h => by
    unfold lowerBody at h
    obtain ⟨⟨s, low⟩, tt₁, hi, h⟩ := bind_eq_ok.mp h
    obtain ⟨rest, tt₂, hrest, h⟩ := bind_eq_ok.mp h
    obtain ⟨rfl, rfl⟩ := pure_eq_ok.mp h
    obtain ⟨hext₁, hlow⟩ := lowers_of_lowerInst hi
    obtain ⟨hext₂, hall⟩ := lowersAll_of_lowerBody hrest
    exact ⟨hext₁.trans hext₂, .cons (hlow.mono hext₂) hall⟩

end Vectorize

end LoopNest
