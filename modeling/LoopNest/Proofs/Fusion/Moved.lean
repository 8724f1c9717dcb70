import LoopNest.Proofs.Func.Edit
import LoopNest.Proofs.Fusion.Nest

/-!
# The function after a move

Moving the inner loop of an accepted nest changes three terminators and one phi: the inner
preheader leads to the inner exit, the outer header leaves to the inner header, the inner
header leaves to the outer exit, and the inner induction value comes from the outer header.
Everything else stays, up to the order of the layout.
-/

namespace LoopNest

namespace Fusion

variable {tt : TypeTable} {f : Func} {outer inner : NaturalLoop} {p : Plan}

theorem relinked_moveAll (before : BlockId) : ∀ (bs : List BlockId) (f : Func),
    Func.Relinked f (bs.foldl (fun f b => f.moveBlockBefore b before) f)
  | [], _ => .refl
  | b :: bs, f => (f.relinked_moveBlockBefore b before).trans (relinked_moveAll before bs _)

theorem op_moveAll (before : BlockId) (j : InstId) : ∀ (bs : List BlockId) (f : Func),
    (bs.foldl (fun f b => f.moveBlockBefore b before) f).op j = f.op j
  | [], _ => rfl
  | b :: bs, f => by
    rw [List.foldl_cons, op_moveAll before j bs]
    exact f.op_moveBlockBefore b before j

theorem mem_layout_moveAll (before c : BlockId) : ∀ (bs : List BlockId) (f : Func),
    (∀ b ∈ bs, b ∈ f.layout) → before ∈ f.layout →
    (c ∈ (bs.foldl (fun f b => f.moveBlockBefore b before) f).layout ↔ c ∈ f.layout)
  | [], _, _, _ => Iff.rfl
  | b :: bs, f, hbs, hb => by
    have hb' := hbs b List.mem_cons_self
    rw [List.foldl_cons, mem_layout_moveAll before c bs _
      (fun x hx => (f.mem_layout_moveBlockBefore hb' hb).mpr (hbs x (List.mem_cons_of_mem _ hx)))
      ((f.mem_layout_moveBlockBefore hb' hb).mpr hb)]
    exact f.mem_layout_moveBlockBefore hb' hb

theorem nodup_layout_moveAll (before : BlockId) : ∀ (bs : List BlockId) (f : Func),
    f.layout.Nodup → (bs.foldl (fun f b => f.moveBlockBefore b before) f).layout.Nodup
  | [], _, h => h
  | _ :: bs, f, h => nodup_layout_moveAll before bs _ (f.nodup_layout_moveBlockBefore h)

theorem head?_layout_moveAll {before e : BlockId} (hbefore : before ≠ e) :
    ∀ (bs : List BlockId) (f : Func), (∀ b ∈ bs, b ≠ e) → f.layout.head? = some e →
    (bs.foldl (fun f b => f.moveBlockBefore b before) f).layout.head? = some e
  | [], _, _, h => h
  | b :: bs, f, hbs, h => by
    rw [List.foldl_cons]
    exact head?_layout_moveAll hbefore bs _ (fun x hx => hbs x (List.mem_cons_of_mem _ hx))
      (f.head?_layout_moveBlockBefore h (hbs b List.mem_cons_self) hbefore)

/-- The function with the four changes, before its layout is changed. -/
def relink (f : Func) (p : Plan) : Func :=
  (((f.retarget p.inner.preheader p.inner.header p.inner.exit).retarget p.outer.header p.outer.exit
    p.inner.header).retarget p.inner.header p.inner.exit p.outer.exit).renamePredecessor
      p.inner.header p.inner.preheader p.outer.header

theorem apply_eq (f : Func) (p : Plan) : apply f p =
    p.innerBlocks.foldl (fun f b => f.moveBlockBefore b p.outer.exit) (relink f p) := rfl

theorem relinked_relink (f : Func) (p : Plan) : Func.Relinked f (relink f p) :=
  (((f.relinked_retarget _ _ _).trans (Func.relinked_retarget _ _ _ _)).trans
    (Func.relinked_retarget _ _ _ _)).trans (Func.relinked_renamePredecessor _ _ _ _)

theorem relinked_apply (f : Func) (p : Plan) : Func.Relinked f (apply f p) :=
  (relinked_relink f p).trans (relinked_moveAll _ _ _)

/-- What the move keeps of each operation: all that does not name blocks. -/
theorem apply_keeps {α : Type} {P : Op → α} (hr : ∀ a b o, P (Op.retarget a b o) = P o)
    (hn : ∀ a b o, P (Func.renameIncoming a b o) = P o) (f : Func) (p : Plan) (j : InstId) :
    P ((apply f p).op j) = P (f.op j) := by
  rw [apply_eq, op_moveAll]
  unfold relink Func.renamePredecessor
  rw [Func.modifyOps_keeps (hn _ _), Func.retarget_keeps _ hr, Func.retarget_keeps _ hr,
    Func.retarget_keeps _ hr]

theorem operands_apply (f : Func) (p : Plan) (j : InstId) :
    ((apply f p).op j).operands = (f.op j).operands :=
  apply_keeps Func.operands_retarget Func.operands_renameIncoming f p j

theorem targets_retarget (source target : BlockId) (o : Op) :
    (o.retarget source target).targets =
      o.targets.map fun t => if t = source then target else t := by
  cases o <;> rfl

theorem layout_relink (f : Func) (p : Plan) : (relink f p).layout = f.layout := by
  unfold relink Func.renamePredecessor
  rw [Func.layout_modifyOps, Func.layout_retarget, Func.layout_retarget, Func.layout_retarget]

namespace Shape

variable (h : Shape f outer inner p)

include h

theorem innerHeader_eq : p.inner.header = inner.header := h.inner_counted.header_eq

theorem outerHeader_eq : p.outer.header = outer.header := h.outer_counted.header_eq

theorem preheader_live : p.inner.preheader ∈ f.layout :=
  ((f.mem_predecessors _ _).mp h.inner_counted.preheader_mem).1

theorem outerExit_live : p.outer.exit ∈ f.layout :=
  h.framed.successor_live _ (CountedLoop.live_of_mem h.outer_loop h.outer_loop.header_mem) _
    ((CountedLoop.header_successors h.outer_counted).mpr (.inr rfl))

/-- Terminators of different blocks are different. -/
theorem terminator_ne {a b : BlockId} {t u : InstId} (ha : a ∈ f.layout) (hb : b ∈ f.layout)
    (ht : f.terminator? a = some t) (hu : f.terminator? b = some u) (hne : a ≠ b) : t ≠ u := by
  rintro rfl
  have h₁ := h.framed.owner_eq a ha t (Func.mem_body_of_terminator ht).1
  have h₂ := h.framed.owner_eq b hb t (Func.mem_body_of_terminator hu).1
  rw [h₁] at h₂
  exact hne (Option.some.inj h₂)

theorem terminator_lt {a : BlockId} {t : InstId} (ha : a ∈ f.layout)
    (ht : f.terminator? a = some t) : t < f.insts.size :=
  h.framed.inst_lt ha (Func.mem_body_of_terminator ht).1

/-- What each operation is after the move. -/
theorem op_apply {ti tp tu : InstId} (hti : f.terminator? inner.header = some ti)
    (htp : f.terminator? p.inner.preheader = some tp)
    (htu : f.terminator? outer.header = some tu) (j : InstId) :
    (apply f p).op j =
      if p.inner.induction = j then
        Func.renameIncoming p.inner.preheader outer.header (f.op j)
      else if ti = j then .condBr (.inst p.inner.cond) p.inner.bodyEntry p.outer.exit
      else if tu = j then .condBr (.inst p.outer.cond) p.outer.bodyEntry inner.header
      else if tp = j then (f.op j).retarget inner.header p.inner.exit
      else f.op j := by
  have hli := CountedLoop.live_of_mem h.inner_loop h.inner_loop.header_mem
  have hlo := CountedLoop.live_of_mem h.outer_loop h.outer_loop.header_mem
  have hlp := h.preheader_live
  have hip : ti ≠ tp := h.terminator_ne hli hlp hti htp fun heq =>
    h.inner_counted.preheader_out (heq ▸ h.inner_loop.header_mem)
  have hiu : ti ≠ tu := h.terminator_ne hli hlo hti htu h.header_ne
  have hup : tu ≠ tp := h.terminator_ne hlo hlp htu htp (Ne.symm h.preheader_ne)
  have hphi : p.inner.induction ∈ f.body inner.header :=
    Func.mem_body_of_phis (h.inner_counted.phis_eq ▸ List.mem_singleton.mpr rfl)
  have hphi_op : (f.op p.inner.induction).isPhi = true :=
    Func.isPhi_of_mem_phis (h.inner_counted.phis_eq ▸ List.mem_singleton.mpr rfl)
  have hphi_ne : ∀ {a : BlockId} {t : InstId}, f.terminator? a = some t →
      p.inner.induction ≠ t := by
    rintro a t ht rfl
    have := Op.not_isPhi_of_isTerminator (Func.mem_body_of_terminator ht).2
    rw [hphi_op] at this
    cases this
  -- The function after one, two and three of the changes.
  have r₁ := f.relinked_retarget p.inner.preheader p.inner.header p.inner.exit
  have r₂ := r₁.trans (Func.relinked_retarget _ p.outer.header p.outer.exit p.inner.header)
  have r₃ := r₂.trans (Func.relinked_retarget _ p.inner.header p.inner.exit p.outer.exit)
  have o₁ := f.op_retarget htp (h.terminator_lt hlp htp) p.inner.header p.inner.exit
  have o₂ := Func.op_retarget _
    ((r₁.terminator?_eq p.outer.header).trans (by rw [h.outerHeader_eq]; exact htu))
    (r₁.size_eq ▸ h.terminator_lt hlo htu) p.outer.exit p.inner.header
  have o₃ := Func.op_retarget _
    ((r₂.terminator?_eq p.inner.header).trans (by rw [h.innerHeader_eq]; exact hti))
    (r₂.size_eq ▸ h.terminator_lt hli hti) p.inner.exit p.outer.exit
  have o₄ := Func.op_renamePredecessor _
    ((r₃.phis_eq p.inner.header).trans (by rw [h.innerHeader_eq]; exact h.inner_counted.phis_eq))
    (r₃.size_eq ▸ h.framed.inst_lt hli hphi) p.inner.preheader p.outer.header
  obtain ⟨ti', hti', hopi⟩ := h.inner_counted.exitBranch
  obtain ⟨tu', htu', hopu⟩ := h.outer_counted.exitBranch
  rw [hti] at hti'
  rw [htu] at htu'
  cases hti'
  cases htu'
  have hbi := CountedLoop.bodyEntry_ne_exit h.inner_counted
  have hbo := CountedLoop.bodyEntry_ne_exit h.outer_counted
  rw [apply_eq, op_moveAll, relink, o₄, o₃, o₂, o₁, h.innerHeader_eq, h.outerHeader_eq]
  by_cases h₁ : p.inner.induction = j
  · subst h₁
    rw [if_pos rfl, if_neg (Ne.symm (hphi_ne hti)), if_neg (Ne.symm (hphi_ne htu)),
      if_neg (Ne.symm (hphi_ne htp)), if_pos rfl]
  · rw [if_neg h₁, if_neg h₁]
    by_cases h₂ : ti = j
    · subst h₂
      rw [if_pos rfl, if_neg (Ne.symm hiu), if_neg (Ne.symm hip), if_pos rfl, hopi]
      simp [Op.retarget, hbi]
    · rw [if_neg h₂, if_neg h₂]
      by_cases h₃ : tu = j
      · subst h₃
        rw [if_pos rfl, if_neg (Ne.symm hup), if_pos rfl, hopu]
        simp [Op.retarget, hbo]
      · rw [if_neg h₃, if_neg h₃]

theorem mem_layout_apply (c : BlockId) : c ∈ (apply f p).layout ↔ c ∈ f.layout := by
  rw [apply_eq, mem_layout_moveAll, layout_relink]
  · intro b hb
    rw [layout_relink]
    rw [h.innerBlocks_eq] at hb
    exact CountedLoop.live_of_mem h.inner_loop hb
  · rw [layout_relink]
    exact h.outerExit_live

/-- A block with a predecessor is not the entry. -/
theorem ne_entry {e b a : BlockId} (he : f.entry? = some e) (ha : a ∈ f.layout)
    (hs : b ∈ f.successors a) : b ≠ e := by
  rintro rfl
  have hmem : a ∈ f.predecessors b := (f.mem_predecessors a b).mpr ⟨ha, hs⟩
  rw [h.framed.entry_predecessors b he] at hmem
  exact absurd hmem List.not_mem_nil

theorem entry_apply : Func.entry? (apply f p) = f.entry? := by
  have hlo := CountedLoop.live_of_mem h.outer_loop h.outer_loop.header_mem
  unfold Func.entry?
  cases he : f.layout.head? with
  | none =>
    rw [List.head?_eq_none_iff] at he
    rw [he] at hlo
    exact absurd hlo List.not_mem_nil
  | some e =>
    rw [apply_eq]
    refine head?_layout_moveAll ?_ _ _ (fun b hb => ?_) (by rw [layout_relink]; exact he)
    · exact h.ne_entry he hlo ((CountedLoop.header_successors h.outer_counted).mpr (.inr rfl))
    · rw [h.innerBlocks_eq] at hb
      rintro rfl
      exact CountedLoop.entry_not_mem h.framed.entry_predecessors h.inner_loop h.inner_counted he hb

theorem exists_terminator {b : BlockId} (hb : b ∈ f.layout) : ∃ t, f.terminator? b = some t :=
  h.framed.ends b hb

/-- Every operation outside the four places stays. -/
theorem op_apply_of_ne {j : InstId} (hphi : p.inner.induction ≠ j)
    (hi : f.terminator? inner.header ≠ some j) (hu : f.terminator? outer.header ≠ some j)
    (hp : f.terminator? p.inner.preheader ≠ some j) : (apply f p).op j = f.op j := by
  obtain ⟨ti, hti⟩ := h.exists_terminator
    (CountedLoop.live_of_mem h.inner_loop h.inner_loop.header_mem)
  obtain ⟨tu, htu⟩ := h.exists_terminator
    (CountedLoop.live_of_mem h.outer_loop h.outer_loop.header_mem)
  obtain ⟨tp, htp⟩ := h.exists_terminator h.preheader_live
  rw [h.op_apply hti htp htu, if_neg hphi, if_neg, if_neg, if_neg]
  · rintro rfl
    exact hp htp
  · rintro rfl
    exact hu htu
  · rintro rfl
    exact hi hti

theorem induction_not_terminator {b : BlockId} : f.terminator? b ≠ some p.inner.induction := by
  intro ht
  have hphi : (f.op p.inner.induction).isPhi = true :=
    Func.isPhi_of_mem_phis (h.inner_counted.phis_eq ▸ List.mem_singleton.mpr rfl)
  rw [Op.not_isPhi_of_isTerminator (Func.mem_body_of_terminator ht).2] at hphi
  cases hphi

/-- The terminators of other blocks stay. -/
theorem op_terminator {b : BlockId} {t : InstId} (hb : b ∈ f.layout)
    (ht : f.terminator? b = some t) (hi : b ≠ inner.header) (hu : b ≠ outer.header)
    (hp : b ≠ p.inner.preheader) : (apply f p).op t = f.op t := by
  have hli := CountedLoop.live_of_mem h.inner_loop h.inner_loop.header_mem
  have hlo := CountedLoop.live_of_mem h.outer_loop h.outer_loop.header_mem
  refine h.op_apply_of_ne (fun heq => h.induction_not_terminator (heq ▸ ht)) (fun hx => ?_)
    (fun hx => ?_) fun hx => ?_
  · exact h.terminator_ne hb hli ht hx hi rfl
  · exact h.terminator_ne hb hlo ht hx hu rfl
  · exact h.terminator_ne hb h.preheader_live ht hx hp rfl

/-- The outer header goes on into its loop, or leaves to the inner header. -/
theorem op_outerHeader {t : InstId} (ht : f.terminator? outer.header = some t) :
    (apply f p).op t = .condBr (.inst p.outer.cond) p.outer.bodyEntry inner.header := by
  have hli := CountedLoop.live_of_mem h.inner_loop h.inner_loop.header_mem
  have hlo := CountedLoop.live_of_mem h.outer_loop h.outer_loop.header_mem
  obtain ⟨ti, hti⟩ := h.exists_terminator hli
  obtain ⟨tp, htp⟩ := h.exists_terminator h.preheader_live
  rw [h.op_apply hti htp ht, if_neg fun heq => h.induction_not_terminator (heq ▸ ht),
    if_neg (h.terminator_ne hli hlo hti ht h.header_ne), if_pos rfl]

/-- The inner header goes on into its loop, or leaves to the outer exit. -/
theorem op_innerHeader {t : InstId} (ht : f.terminator? inner.header = some t) :
    (apply f p).op t = .condBr (.inst p.inner.cond) p.inner.bodyEntry p.outer.exit := by
  have hlo := CountedLoop.live_of_mem h.outer_loop h.outer_loop.header_mem
  obtain ⟨tu, htu⟩ := h.exists_terminator hlo
  obtain ⟨tp, htp⟩ := h.exists_terminator h.preheader_live
  rw [h.op_apply ht htp htu, if_neg fun heq => h.induction_not_terminator (heq ▸ ht), if_pos rfl]

theorem op_preheader {t : InstId} (ht : f.terminator? p.inner.preheader = some t) :
    (apply f p).op t = (f.op t).retarget inner.header p.inner.exit := by
  have hli := CountedLoop.live_of_mem h.inner_loop h.inner_loop.header_mem
  have hlo := CountedLoop.live_of_mem h.outer_loop h.outer_loop.header_mem
  obtain ⟨ti, hti⟩ := h.exists_terminator hli
  obtain ⟨tu, htu⟩ := h.exists_terminator hlo
  rw [h.op_apply hti ht htu, if_neg fun heq => h.induction_not_terminator (heq ▸ ht),
    if_neg (h.terminator_ne hli h.preheader_live hti ht fun heq =>
      h.inner_counted.preheader_out (heq ▸ h.inner_loop.header_mem)),
    if_neg (h.terminator_ne hlo h.preheader_live htu ht (Ne.symm h.preheader_ne)), if_pos rfl]

/-- The inner preheader leads to the inner header, and after the move to the inner exit. -/
theorem leaves_preheader {value : Operand → Option Datum} {t : InstId} {x : Next}
    (ht : f.terminator? p.inner.preheader = some t) (hl : Leaves value (f.op t) x) :
    x = .goto inner.header ∧ Leaves value ((apply f p).op t) (.goto p.inner.exit) := by
  have hs : ∀ c ∈ (f.op t).targets, c = inner.header := by
    intro c hc
    rw [← Func.mem_successors_iff ht, h.inner_counted.preheader_succ] at hc
    exact List.mem_singleton.mp hc
  have hne : (f.op t).targets ≠ [] := by
    have hmem : inner.header ∈ f.successors p.inner.preheader := by
      rw [h.inner_counted.preheader_succ]
      exact List.mem_singleton.mpr rfl
    exact List.ne_nil_of_mem ((Func.mem_successors_iff ht).mp hmem)
  rw [h.op_preheader ht]
  generalize f.op t = op at hl hs hne
  cases hl with
  | br =>
    have := hs _ (List.mem_singleton.mpr rfl)
    subst this
    exact ⟨rfl, by simpa [Op.retarget] using Leaves.br⟩
  | @condBr c a b taken hc =>
    have ha : a = inner.header := hs a (by simp [Op.targets])
    have hb : b = inner.header := hs b (by simp [Op.targets])
    subst ha
    subst hb
    have hl : Leaves value (.condBr c p.inner.exit p.inner.exit)
        (.goto (if taken then p.inner.exit else p.inner.exit)) := .condBr hc
    rw [ite_self] at hl
    exact ⟨by simp, by simpa [Op.retarget] using hl⟩
  | retVoid => exact absurd rfl hne
  | ret _ => exact absurd rfl hne

/-- Where each block leads to after the move. -/
theorem mem_successors_apply {b c : BlockId} (hb : b ∈ f.layout) :
    c ∈ (apply f p).successors b ↔
      if b = inner.header then c = p.inner.bodyEntry ∨ c = p.outer.exit
      else if b = outer.header then c = p.outer.bodyEntry ∨ c = inner.header
      else if b = p.inner.preheader then c = p.inner.exit
      else c ∈ f.successors b := by
  obtain ⟨t, ht⟩ := h.exists_terminator hb
  rw [Func.mem_successors_iff (((relinked_apply f p).terminator?_eq b).trans ht)]
  by_cases hbi : b = inner.header
  · subst hbi
    rw [if_pos rfl, h.op_innerHeader ht]
    exact List.mem_pair
  · rw [if_neg hbi]
    by_cases hbu : b = outer.header
    · subst hbu
      rw [if_pos rfl, h.op_outerHeader ht]
      exact List.mem_pair
    · rw [if_neg hbu]
      by_cases hbp : b = p.inner.preheader
      · subst hbp
        rw [if_pos rfl, h.op_preheader ht, targets_retarget]
        have htargets {c : BlockId} : c ∈ (f.op t).targets ↔ c = inner.header := by
          rw [← Func.mem_successors_iff ht, h.inner_counted.preheader_succ, List.mem_singleton]
        constructor
        · intro hc
          obtain ⟨x, hx, rfl⟩ := List.mem_map.mp hc
          rw [if_pos (htargets.mp hx)]
        · rintro rfl
          exact List.mem_map.mpr ⟨_, htargets.mpr rfl, if_pos rfl⟩
      · rw [if_neg hbp, h.op_terminator hb ht hbi hbu hbp, Func.mem_successors_iff ht]

/-! ## Phis -/

/-- Phis of other blocks stay. -/
theorem op_phi {b : BlockId} {i : InstId} (hb : b ∈ f.layout) (hi : i ∈ f.phis b)
    (hne : b ≠ inner.header) : (apply f p).op i = f.op i := by
  have hphi := Func.isPhi_of_mem_phis hi
  have hnt : ∀ {a : BlockId}, f.terminator? a ≠ some i := by
    intro a ht
    rw [Op.not_isPhi_of_isTerminator (Func.mem_body_of_terminator ht).2] at hphi
    cases hphi
  refine h.op_apply_of_ne ?_ hnt hnt hnt
  rintro rfl
  have h₁ := h.framed.owner_eq b hb _ (Func.mem_body_of_phis hi)
  have h₂ := h.framed.owner_eq inner.header
    (CountedLoop.live_of_mem h.inner_loop h.inner_loop.header_mem) _
    (Func.mem_body_of_phis (h.inner_counted.phis_eq ▸ List.mem_singleton.mpr rfl))
  rw [h₁] at h₂
  exact hne (Option.some.inj h₂)

theorem op_induction : (apply f p).op p.inner.induction =
    Func.renameIncoming p.inner.preheader outer.header (f.op p.inner.induction) := by
  obtain ⟨ti, hti⟩ := h.exists_terminator
    (CountedLoop.live_of_mem h.inner_loop h.inner_loop.header_mem)
  obtain ⟨tu, htu⟩ := h.exists_terminator
    (CountedLoop.live_of_mem h.outer_loop h.outer_loop.header_mem)
  obtain ⟨tp, htp⟩ := h.exists_terminator h.preheader_live
  rw [h.op_apply hti htp htu, if_pos rfl]

end Shape

/-- Renaming sources finds the same entry, if no two sources get one name. -/
theorem find?_renamed {incoming : List (Operand × BlockId)} {old new q q' : BlockId}
    (hq : ∀ e ∈ incoming, (if e.2 = old then new else e.2) = q' ↔ e.2 = q) :
    ((incoming.map fun (v, p) => (v, if p = old then new else p)).find? fun e => e.2 = q').map
      Prod.fst = (incoming.find? fun e => e.2 = q).map Prod.fst := by
  induction incoming with
  | nil => rfl
  | cons e es ih =>
    obtain ⟨v, b⟩ := e
    have hhead := hq (v, b) List.mem_cons_self
    have ih := ih fun e he => hq e (List.mem_cons_of_mem _ he)
    simp only [List.map_cons, List.find?_cons]
    simp only at hhead
    by_cases hb : b = q
    · have hb' := hhead.mpr hb
      subst hb
      simp only [hb', decide_true, Option.map_some]
    · have hb' : ¬ (if b = old then new else b) = q' := fun heq => hb (hhead.mp heq)
      simp only [hb, hb', decide_false]
      exact ih

namespace Shape

variable (h : Shape f outer inner p)

include h

/-- What the inner induction value takes from each source, before and after the move. -/
theorem incoming_induction {q : BlockId} (hq : q = p.inner.preheader ∨ q ∈ inner.blocks) :
    (apply f p).incoming? p.inner.induction (if q = p.inner.preheader then outer.header else q) =
      f.incoming? p.inner.induction q := by
  have hli := CountedLoop.live_of_mem h.inner_loop h.inner_loop.header_mem
  have hmem : p.inner.induction ∈ f.phis inner.header :=
    h.inner_counted.phis_eq ▸ List.mem_singleton.mpr rfl
  have hphi := Func.isPhi_of_mem_phis hmem
  unfold Func.incoming?
  rw [h.op_induction]
  cases hop : f.op p.inner.induction with
  | phi incoming =>
    obtain ⟨_, hsrc⟩ := h.framed.phi_sources _ hli _ (Func.mem_body_of_phis hmem) incoming hop
    refine find?_renamed fun e he => ?_
    have hpred : e.2 ∈ f.predecessors inner.header := (hsrc e.2).mp (List.mem_map_of_mem he)
    have hne : e.2 ≠ outer.header := by
      intro heq
      rw [heq] at hpred
      exact h.preheader_ne (h.inner_counted.eq_preheader _ hpred h.header_out).symm
    have hqne : q ≠ outer.header := by
      rcases hq with rfl | hq
      · exact h.preheader_ne
      · rintro rfl
        exact h.header_out hq
    by_cases h₁ : e.2 = p.inner.preheader
    · by_cases h₂ : q = p.inner.preheader
      · simp [h₁, h₂]
      · simp [h₁, h₂, Ne.symm hqne, Ne.symm h₂]
    · by_cases h₂ : q = p.inner.preheader
      · simp [h₁, h₂, hne]
      · simp [h₁, h₂]
  | _ => simp [hop, Op.isPhi] at hphi

/-- The moved function is in order for the machine. -/
theorem orderly_apply (hcall : f.CallFree) :
    (apply f p).Orderly (· ∈ (apply f p).layout) := by
  have hr := relinked_apply f p
  have hf := h.framed
  have hli := CountedLoop.live_of_mem h.inner_loop h.inner_loop.header_mem
  refine ⟨fun e he => List.mem_of_head? he, fun b hb i hi => ?_, fun b hb i hi c as => ?_,
    fun b hb => ?_, fun b hb i hi ht => ?_, fun b hb c hc => ?_⟩
  · rw [h.mem_layout_apply] at hb
    rw [hr.body_eq] at hi
    rw [hr.size_eq]
    exact hf.inst_lt hb hi
  · rw [h.mem_layout_apply] at hb
    rw [hr.body_eq] at hi
    intro hop
    have ht := hr.isTerminator_eq i
    have hp := hr.isPhi_eq i
    rw [hop] at ht hp
    rw [hr.op_eq i ht.symm hp.symm] at hop
    exact hcall b hb i hi c as hop
  · rw [h.mem_layout_apply] at hb
    rw [hr.terminator?_eq]
    exact hf.ends b hb
  · rw [h.mem_layout_apply] at hb
    rw [hr.body_eq] at hi
    rw [hr.isTerminator_eq] at ht
    rw [hr.terminator?_eq]
    exact hf.terminator_eq b hb i hi ht
  · rw [h.mem_layout_apply] at hb ⊢
    rw [h.mem_successors_apply hb] at hc
    split at hc
    · rcases hc with rfl | rfl
      · exact CountedLoop.live_of_mem h.inner_loop h.inner_counted.bodyEntry_mem
      · exact h.outerExit_live
    · split at hc
      · rcases hc with rfl | rfl
        · exact CountedLoop.live_of_mem h.outer_loop h.outer_counted.bodyEntry_mem
        · exact hli
      · split at hc
        · rw [hc]
          exact CountedLoop.live_of_mem h.outer_loop h.innerExit_mem
        · exact hf.successor_live b hb c hc

end Shape

end Fusion

end LoopNest
