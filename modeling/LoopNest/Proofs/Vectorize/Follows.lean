import LoopNest.Proofs.Vectorize.Swept

/-!
# Decisions that accept what others accept

Whether a loop is accepted depends on the types of its values, but not on what else the type table
holds.  `Follows` compares two decisions in two tables that share a base: where the second accepts,
the first does, and the outcomes are related.  It goes through binds (`Follows.bind`), so there is
one lemma for each kind of decision.

The decisions about the body read little: operations, types, strides, and which operands the header
computes.  `SameUse` lists it.  If the second function has the instructions of the body as the
first one has them, it carries no body over that the first one does not (`follows_lowerBody`).

`Repeats` is the strict form of `Follows`: both decisions start with one table, and the outcomes are
equal, with the same new types.
-/

namespace LoopNest

theorem TypeTable.Extends.elementScalar?_eq {tt tt' : TypeTable} {t : TyId} (h : tt.Extends tt')
    (ht : t < tt.size) : tt'.elementScalar? t = tt.elementScalar? t := by
  rw [elementScalar?, elementScalar?, h.shape_eq_of_lt ht]

namespace Vectorize

variable {α β γ δ : Type} {base tt tt' : TypeTable} {r : α → β → Prop} {x : Planning α}
  {y : Planning β} {a : α} {b : β} {e : VectorRejection}

/-- Where the second decision accepts, so does the first, with a related outcome. -/
def Follows (base : TypeTable) (r : α → β → Prop) (x : Planning α) (y : Planning β) : Prop :=
  ∀ tt tt', base.Extends tt → base.Extends tt' → ∀ b tt₁', y tt' = (.ok b, tt₁') →
    base.Extends tt₁' ∧ ∃ a tt₁, x tt = (.ok a, tt₁) ∧ base.Extends tt₁ ∧ r a b

theorem follows_pure (h : r a b) : Follows base r (pure a) (pure b) := by
  intro tt tt' ht ht' b' tt₁' hb
  obtain ⟨rfl, rfl⟩ := pure_eq_ok.mp hb
  exact ⟨ht', a, tt, rfl, ht, h⟩

theorem follows_reject : Follows base r x (reject e) := fun _ _ _ _ _ _ hb =>
  (reject_eq_ok.mp hb).elim

theorem follows_ofExcept {o : Except VectorRejection α} {o' : Except VectorRejection β}
    (h : ∀ b, o' = .ok b → ∃ a, o = .ok a ∧ r a b) : Follows base r (ofExcept o) (ofExcept o') := by
  intro tt tt' ht ht' b tt₁' hb
  obtain ⟨rfl, rfl⟩ := ofExcept_eq_ok.mp hb
  obtain ⟨a, rfl, hr⟩ := h b rfl
  exact ⟨ht', a, tt, rfl, ht, hr⟩

theorem follows_types : Follows base (fun tt tt' => base.Extends tt ∧ base.Extends tt') types types := by
  intro tt tt' ht ht' b tt₁' hb
  obtain ⟨rfl, rfl⟩ := types_eq_ok.mp hb
  exact ⟨ht', tt, tt, rfl, ht, ht, ht'⟩

theorem follows_intern (s : Shape) : Follows base (fun _ _ => True) (intern s) (intern s) := by
  intro tt tt' ht ht' b tt₁' hb
  obtain ⟨hext, _⟩ := lookup_of_intern hb
  exact ⟨ht'.trans hext, _, _, rfl, ht.trans (tt.extends_intern s), trivial⟩

theorem Follows.bind {r' : γ → δ → Prop} {k : α → Planning γ} {k' : β → Planning δ}
    (h : Follows base r x y) (hk : ∀ a b, r a b → Follows base r' (k a) (k' b)) :
    Follows base r' (x >>= k) (y >>= k') := by
  intro tt tt' ht ht' d tt₂' hd
  obtain ⟨b, tt₁', hb, hd⟩ := bind_eq_ok.mp hd
  obtain ⟨ht₁', a, tt₁, ha, ht₁, hr⟩ := h tt tt' ht ht' b tt₁' hb
  rw [bind_of_ok ha]
  exact hk a b hr tt₁ tt₁' ht₁ ht₁' d tt₂' hd

/-! ## Instructions -/

/-- An instruction of the body, as the decisions about it see it, is the same in two contexts. -/
structure SameUse (base : TypeTable) (c c' : Context) (i : InstId) : Prop where
  op_eq : c'.func.op i = c.func.op i
  ty_eq : (c'.func.inst i).ty = (c.func.inst i).ty
  ty_lt : (c.func.inst i).ty < base.size
  tyOf_eq : ∀ v ∈ (c.func.op i).operands, c'.func.tyOf v = c.func.tyOf v
  tyOf_lt : ∀ v ∈ (c.func.op i).operands, c.func.tyOf v < base.size
  /-- The same operands are computed by the header. -/
  owner_iff : ∀ j, Operand.inst j ∈ (c.func.op i).operands →
    (c'.func.owner j = some c'.loop.header ↔ c.func.owner j = some c.loop.header)
  stride_eq : c'.natural.stride? c'.func c'.dom (.inst i) c'.loop.iv =
    c.natural.stride? c.func c.dom (.inst i) c.loop.iv

variable {c c' : Context} {i : InstId} {shapes : LaneShapes} {ops : List LaneShape}

/-- The outcomes of two decisions have the same lane shape. -/
abbrev SameShape (a b : LaneShape × Lowering) : Prop := a.1 = b.1

theorem follows_lowerGep : Follows base SameShape (lowerGep c i ops) (lowerGep c' i ops) := by
  unfold lowerGep
  split
  · exact follows_pure rfl
  · exact follows_pure rfl
  · exact follows_reject

theorem follows_lowerCompare :
    Follows base SameShape (lowerCompare c i ops) (lowerCompare c' i ops) := by
  unfold lowerCompare
  split
  · exact follows_pure rfl
  · exact follows_reject

section

variable (hconfig : c'.config = c.config)

include hconfig

theorem follows_vectorTy {t : TyId} (ht : t < base.size) (user : InstId) :
    Follows base (fun _ _ => True) (vectorTy c t user) (vectorTy c' t user) := by
  refine follows_types.bind fun tt tt' htt => ?_
  rw [htt.1.elementScalar?_eq ht, htt.2.elementScalar?_eq ht, hconfig]
  split
  · exact follows_reject
  · split
    · exact follows_reject
    · split
      · exact follows_reject
      · exact follows_intern _

theorem follows_splatsFor (user : InstId) : ∀ (ops : List (Operand × LaneShape))
    {done done' : List (Operand × TyId)}, done'.map Prod.fst = done.map Prod.fst →
    (∀ v ∈ ops.map Prod.fst, c'.func.tyOf v = c.func.tyOf v ∧ c.func.tyOf v < base.size) →
    Follows base (fun _ _ => True) (splatsFor c user ops done) (splatsFor c' user ops done')
  | [], _, _, _, _ => follows_pure trivial
  | (v, s) :: ops, done, done', hdone, hty => by
    obtain ⟨heq, hlt⟩ := hty v List.mem_cons_self
    have hrest := fun w hw => hty w (List.mem_cons_of_mem _ hw)
    have hall : done'.all (fun d => d.1 ≠ v) = done.all fun d => d.1 ≠ v := by
      rw [← Function.comp_def (fun w : Operand => decide (w ≠ v)) Prod.fst, ← List.all_map, hdone,
        List.all_map]
    unfold splatsFor
    rw [hall, heq]
    split
    · refine (follows_vectorTy hconfig hlt user).bind fun t t' _ => ?_
      exact follows_splatsFor user ops (by simp [hdone]) hrest
    · exact follows_splatsFor user ops hdone hrest

variable (h : SameUse base c c' i)

include h

theorem follows_lowerLoad : Follows base SameShape (lowerLoad c i ops) (lowerLoad c' i ops) := by
  unfold lowerLoad
  split
  · exact follows_pure rfl
  · split
    · rw [h.ty_eq]
      exact (follows_vectorTy hconfig h.ty_lt i).bind fun _ _ _ => follows_pure rfl
    · exact follows_reject
  · exact follows_reject

theorem follows_lowerStore {v : Operand} (hv : v ∈ (c.func.op i).operands) :
    Follows base SameShape (lowerStore c i v ops) (lowerStore c' i v ops) := by
  unfold lowerStore
  split
  · split
    · exact follows_reject
    · rw [h.tyOf_eq v hv]
      refine (follows_vectorTy hconfig (h.tyOf_lt v hv) i).bind fun _ _ _ => ?_
      split
      · exact follows_pure rfl
      · exact follows_pure rfl
      · exact follows_reject
  · exact follows_reject
  · exact follows_reject

theorem follows_lowerLanewise : Follows base SameShape
    (lowerLanewise c i (c.func.op i).operands ops) (lowerLanewise c' i (c.func.op i).operands ops) := by
  unfold lowerLanewise
  split
  · exact follows_reject
  · split
    · rw [h.ty_eq]
      refine (follows_vectorTy hconfig h.ty_lt i).bind fun _ _ _ =>
        (follows_splatsFor hconfig i _ rfl fun v hv => ?_).bind fun _ _ _ => follows_pure rfl
      have hv : v ∈ (c.func.op i).operands := by
        obtain ⟨x, hx, rfl⟩ := List.mem_map.mp hv
        exact (List.of_mem_zip hx).1
      exact ⟨h.tyOf_eq v hv, h.tyOf_lt v hv⟩
    · exact follows_pure rfl

end

section

variable (h : SameUse base c c' i)

include h

theorem follows_lowerIndex : Follows base SameShape (lowerIndex c i ops) (lowerIndex c' i ops) := by
  unfold lowerIndex
  split
  · exact follows_reject
  · rw [h.stride_eq]
    split
    · split
      · exact follows_pure rfl
      · exact follows_pure rfl
    · exact follows_reject

theorem SameUse.laneShape_eq {v : Operand} (hv : v ∈ (c.func.op i).operands) {s : LaneShape}
    (hs : laneShape c' shapes v = .ok s) : laneShape c shapes v = .ok s := by
  unfold laneShape at hs ⊢
  split at hs
  · exact hs
  · split at hs
    · simp only [h.owner_iff _ hv] at hs
      split at hs
      · cases hs
      · simpa only [if_neg ‹_›] using hs
    · exact hs

end

theorem mapM_eq_ok_of_imp {k k' : α → Except VectorRejection β} : ∀ {as : List α} {bs : List β},
    (∀ a ∈ as, ∀ b, k' a = .ok b → k a = .ok b) → as.mapM k' = .ok bs → as.mapM k = .ok bs
  | [], _, _, h => h
  | a :: as, bs, hk, h => by
    rw [List.mapM_cons, bind_eq_ok_iff] at h ⊢
    obtain ⟨b, hb, h⟩ := h
    obtain ⟨bs', hbs, h⟩ := bind_eq_ok_iff.mp h
    refine ⟨b, hk a List.mem_cons_self b hb, bind_eq_ok_iff.mpr ⟨bs', ?_, h⟩⟩
    exact mapM_eq_ok_of_imp (fun a ha => hk a (List.mem_cons_of_mem _ ha)) hbs

theorem follows_lowerInst (hconfig : c'.config = c.config) (h : SameUse base c c' i) :
    Follows base SameShape (lowerInst c shapes i) (lowerInst c' shapes i) := by
  have hop : (c'.func.inst i).op = (c.func.inst i).op := h.op_eq
  unfold lowerInst
  dsimp only
  rw [hop]
  refine Follows.bind (r := Eq) (follows_ofExcept fun ops hops => ⟨ops, ?_, rfl⟩) ?_
  · exact mapM_eq_ok_of_imp (fun v hv s hs => h.laneShape_eq hv hs) hops
  · rintro ops _ rfl
    split
    · exact follows_lowerGep
    · split
      · exact follows_pure rfl
      · exact follows_reject
    · exact follows_lowerLoad hconfig h
    · rename_i hx
      exact follows_lowerStore hconfig h (by rw [Func.op, hx]; simp [Op.operands])
    · refine follows_types.bind fun tt tt' htt => ?_
      rw [h.ty_eq, htt.1.elementScalar?_eq h.ty_lt, htt.2.elementScalar?_eq h.ty_lt]
      split
      · exact follows_lowerIndex h
      · exact follows_lowerLanewise hconfig h
    · exact follows_lowerCompare
    · exact follows_lowerLanewise hconfig h
    · exact follows_lowerLanewise hconfig h
    · exact follows_reject

theorem follows_lowerBody (hconfig : c'.config = c.config) : ∀ {is : List InstId}
    {shapes : LaneShapes}, (∀ i ∈ is, SameUse base c c' i) →
    Follows base (fun _ _ => True) (lowerBody c shapes is) (lowerBody c' shapes is)
  | [], _, _ => follows_pure trivial
  | i :: is, shapes, h => by
    refine (follows_lowerInst hconfig (h i List.mem_cons_self)).bind ?_
    rintro ⟨s, low⟩ ⟨s', low'⟩ heq
    obtain rfl : s = s' := heq
    exact (follows_lowerBody hconfig fun j hj => h j (List.mem_cons_of_mem _ hj)).bind fun _ _ _ =>
      follows_pure trivial

/-! ## Decisions that are made again -/

section

variable {α β : Type} {base tt tt' : TypeTable} {x y : Planning α} {c c' : Context} {i : InstId}
  {shapes : LaneShapes} {ops : List LaneShape}

/-- Where the second decision accepts, the first has the same outcome. -/
def Repeats (x y : Planning α) : Prop := ∀ tt a tt', y tt = (.ok a, tt') → x tt = (.ok a, tt')

theorem Repeats.refl (x : Planning α) : Repeats x x := fun _ _ _ h => h

theorem repeats_reject {e : VectorRejection} : Repeats x (reject e) :=
  fun _ _ _ h => (reject_eq_ok.mp h).elim

theorem repeats_ofExcept {o o' : Except VectorRejection α} (h : ∀ a, o' = .ok a → o = .ok a) :
    Repeats (ofExcept o) (ofExcept o') := fun _ _ _ heq =>
  have ⟨ho, ht⟩ := ofExcept_eq_ok.mp heq
  ofExcept_eq_ok.mpr ⟨h _ ho, ht⟩

theorem Repeats.bind {k k' : α → Planning β} (h : Repeats x y) (hk : ∀ a, Repeats (k a) (k' a)) :
    Repeats (x >>= k) (y >>= k') := by
  intro tt b tt' hb
  obtain ⟨a, tt₁, ha, hb⟩ := bind_eq_ok.mp hb
  exact bind_eq_ok.mpr ⟨a, tt₁, h _ _ _ ha, hk a _ _ _ hb⟩

theorem repeats_lowerGep : Repeats (lowerGep c i ops) (lowerGep c' i ops) := by
  unfold lowerGep
  split
  · exact .refl _
  · exact .refl _
  · exact repeats_reject

theorem repeats_lowerCompare : Repeats (lowerCompare c i ops) (lowerCompare c' i ops) := by
  unfold lowerCompare
  split
  · exact .refl _
  · exact repeats_reject

section

variable (hconfig : c'.config = c.config)

include hconfig

theorem repeats_vectorTy (t : TyId) (user : InstId) :
    Repeats (vectorTy c t user) (vectorTy c' t user) := by
  refine (Repeats.refl types).bind fun tt => ?_
  rw [hconfig]
  split
  · exact repeats_reject
  · split
    · exact repeats_reject
    · split
      · exact repeats_reject
      · exact .refl _

theorem repeats_splatsFor (user : InstId) : ∀ (ops : List (Operand × LaneShape))
    (done : List (Operand × TyId)), (∀ v ∈ ops.map Prod.fst, c'.func.tyOf v = c.func.tyOf v) →
    Repeats (splatsFor c user ops done) (splatsFor c' user ops done)
  | [], _, _ => .refl _
  | (v, s) :: ops, done, hty => by
    have hrest := fun w hw => hty w (List.mem_cons_of_mem _ hw)
    unfold splatsFor
    rw [hty v List.mem_cons_self]
    split
    · exact (repeats_vectorTy hconfig _ user).bind fun t => repeats_splatsFor user ops _ hrest
    · exact repeats_splatsFor user ops _ hrest

variable (h : SameUse base c c' i)

include h

theorem repeats_lowerLoad : Repeats (lowerLoad c i ops) (lowerLoad c' i ops) := by
  unfold lowerLoad
  split
  · exact .refl _
  · split
    · rw [h.ty_eq]
      exact (repeats_vectorTy hconfig _ i).bind fun _ => .refl _
    · exact repeats_reject
  · exact repeats_reject

theorem repeats_lowerStore {v : Operand} (hv : v ∈ (c.func.op i).operands) :
    Repeats (lowerStore c i v ops) (lowerStore c' i v ops) := by
  unfold lowerStore
  split
  · split
    · exact repeats_reject
    · rw [h.tyOf_eq v hv, h.ty_eq]
      refine (repeats_vectorTy hconfig _ i).bind fun t => ?_
      split
      · exact .refl _
      · exact .refl _
      · exact repeats_reject
  · exact repeats_reject
  · exact repeats_reject

theorem repeats_lowerLanewise : Repeats (lowerLanewise c i (c.func.op i).operands ops)
    (lowerLanewise c' i (c.func.op i).operands ops) := by
  unfold lowerLanewise
  split
  · exact repeats_reject
  · split
    · rw [h.ty_eq]
      refine (repeats_vectorTy hconfig _ i).bind fun _ =>
        (repeats_splatsFor hconfig i _ _ fun v hv => ?_).bind fun _ => .refl _
      obtain ⟨x, hx, rfl⟩ := List.mem_map.mp hv
      exact h.tyOf_eq _ (List.of_mem_zip hx).1
    · exact .refl _

end

theorem repeats_lowerIndex (h : SameUse base c c' i) :
    Repeats (lowerIndex c i ops) (lowerIndex c' i ops) := by
  unfold lowerIndex
  split
  · exact repeats_reject
  · rw [h.stride_eq]
    split
    · split
      · exact .refl _
      · exact .refl _
    · exact repeats_reject

theorem repeats_lowerInst (hconfig : c'.config = c.config) (h : SameUse base c c' i) :
    Repeats (lowerInst c shapes i) (lowerInst c' shapes i) := by
  have hop : (c'.func.inst i).op = (c.func.inst i).op := h.op_eq
  unfold lowerInst
  dsimp only
  rw [hop]
  refine (repeats_ofExcept fun ops hops => ?_).bind fun ops => ?_
  · exact mapM_eq_ok_of_imp (fun v hv s hs => h.laneShape_eq hv hs) hops
  · split
    · exact repeats_lowerGep
    · split
      · exact .refl _
      · exact repeats_reject
    · exact repeats_lowerLoad hconfig h
    · rename_i hx
      exact repeats_lowerStore hconfig h (by rw [Func.op, hx]; simp [Op.operands])
    · refine (Repeats.refl types).bind fun tt => ?_
      rw [h.ty_eq]
      split
      · exact repeats_lowerIndex h
      · exact repeats_lowerLanewise hconfig h
    · exact repeats_lowerCompare
    · exact repeats_lowerLanewise hconfig h
    · exact repeats_lowerLanewise hconfig h
    · exact repeats_reject

/-- The body is carried over in the same way. -/
theorem repeats_lowerBody (hconfig : c'.config = c.config) : ∀ {is : List InstId}
    {shapes : LaneShapes}, (∀ i ∈ is, SameUse base c c' i) →
    Repeats (lowerBody c shapes is) (lowerBody c' shapes is)
  | [], _, _ => .refl _
  | i :: _, _, h => (repeats_lowerInst hconfig (h i List.mem_cons_self)).bind fun _ =>
    (repeats_lowerBody hconfig fun j hj => h j (List.mem_cons_of_mem _ hj)).bind fun _ => .refl _

end

end Vectorize

end LoopNest
