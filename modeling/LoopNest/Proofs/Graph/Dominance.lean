import LoopNest.Proofs.Graph.Order
import Mathlib.Algebra.Order.BigOperators.Group.List
import Mathlib.Algebra.Order.Group.Nat

/-!
# The dominator tree

`Above` says that a block lies on the way up from another one.  The fingers of `climb` and
`meet` stop where they should (`Tree.climb_spec`, `Tree.above_meet_iff`), since the places of
the blocks on a way up decrease.

The definitions count the turns of their loops, and put in a default for what is not in a map.
`Computes` tells what the loops do without a count, and without going on after a look-up that
fails: the fingers of each meeting (`Climbs`, `Meets`), the predecessors of each block
(`MeetsAll`), the blocks of each sweep (`Sweeps`) and the sweeps (`Settles`).  Such a run comes
to one tree at most (`Computes.eq`), and it comes to the one that is defined.

While the tree is built, `Sweeping d n` holds, where `n` is the place of the block to be
adjusted next.

* All dominators of a block lie on its way up (`sound`).  A block that is moved takes the
  blocks below it along.  That is right because from every block of a way up a path leads
  down through blocks that do not come earlier (`path`), so that a block further up which
  dominates the end of the path dominates its start.
* A block can only move up (`low`): what lies on the ways up from all its predecessors lies
  on its own.  This too has to survive that a block is moved with all that is below it, and it
  does because sweeps follow the reverse post-order: the parent of a block lies on the way up
  from an earlier predecessor, as far as one of the two was not touched in this sweep (`held`).

One adjustment keeps these facts (`Sweeping.step`), hence so does a sweep.  A sweep that
changes anything lowers the sum of the places of all parents (`weight`), so the sweeps come to
rest, and then exactly the dominators of a block lie on its way up (`Settled.above_iff`).
-/

namespace LoopNest

namespace DomTree

variable {d : DomTree} {a b c x y : BlockId}

/-! ## Ways up -/

/-- `d.Above x b` says that `x` lies on the way up from `b`, where it may be `b` itself. -/
inductive Above (d : DomTree) (x : BlockId) : BlockId → Prop where
  | here : Above d x x
  | up {b c : BlockId} : d.parents.get? b = some c → Above d x c → Above d x b

/-- The block is in the tree. -/
def Has (d : DomTree) (b : BlockId) : Prop := ∃ c, d.parents.get? b = some c

theorem has_iff : d.Has b ↔ d.parents.contains b = true := by
  unfold Has BlockMap.contains
  rw [Option.isSome_iff_exists]

theorem meetStep_of_has (hb : d.Has b) (found : Option BlockId) :
    d.meetStep found b = match found with
      | none => some b
      | some c => some (d.meet b c) :=
  if_pos (has_iff.mp hb)

theorem meetStep_of_not (hb : ¬ d.Has b) (found : Option BlockId) : d.meetStep found b = found :=
  if_neg (mt has_iff.mpr hb)

theorem Above.trans (h : d.Above x y) (h' : d.Above y b) : d.Above x b := by
  induction h' with
  | here => exact h
  | up hp _ ih => exact .up hp ih

/-- What lies strictly above a block lies above its parent. -/
theorem Above.of_ne (h : d.Above x b) (hne : x ≠ b) (hp : d.parents.get? b = some c) :
    d.Above x c := by
  cases h with
  | here => exact absurd rfl hne
  | up hp' h =>
    rw [hp] at hp'
    cases hp'
    exact h

/-- Of two blocks on one way up, one lies above the other. -/
theorem Above.total (hx : d.Above x b) (hy : d.Above y b) : d.Above x y ∨ d.Above y x := by
  induction hx with
  | here => exact .inr hy
  | @up b c hp hx ih =>
    by_cases hyb : y = b
    · exact .inl (hyb ▸ .up hp hx)
    · exact ih (hy.of_ne hyb hp)

/-- A way up is the same in another tree if its blocks below the last have the same parents. -/
theorem Above.congr {d' : DomTree} (h : d.Above x b)
    (hp : ∀ y, d.Above y b → d.Above x y → y ≠ x → d'.parents.get? y = d.parents.get? y) :
    d'.Above x b := by
  induction h with
  | here => exact .here
  | @up b c hbc hx ih =>
    by_cases hb : b = x
    · exact hb ▸ .here
    · refine .up ((hp b .here (.up hbc hx) hb).trans hbc) (ih fun y hy => ?_)
      exact hp y (.up hbc hy)

/-! ## Loops without a count -/

/-- A finger climbs as long as its block comes after a limit.  Each block that it comes to has a
place, and each that it leaves has a parent. -/
inductive Climbs (d : DomTree) (limit : Nat) : BlockId → BlockId → Prop where
  | stop {b : BlockId} {i : Nat} : d.places.get? b = some i → i ≤ limit → Climbs d limit b b
  | up {b c x : BlockId} {i : Nat} : d.places.get? b = some i → limit < i →
      d.parents.get? b = some c → Climbs d limit c x → Climbs d limit b x

/-- Two fingers climb in turn, each up to the place of the other, until they meet. -/
inductive Meets (d : DomTree) : BlockId → BlockId → BlockId → Prop where
  | here {a : BlockId} : Meets d a a a
  | turn {a b a' b' x : BlockId} {i j : Nat} : a ≠ b → d.places.get? b = some j →
      Climbs d j a a' → d.places.get? a' = some i → Climbs d i b b' → Meets d a' b' x →
      Meets d a b x

/-- The blocks of a list that are in the tree meet one after the other with what was found. -/
inductive MeetsAll (d : DomTree) : Option BlockId → List BlockId → Option BlockId → Prop where
  | done {found : Option BlockId} : MeetsAll d found [] found
  | skip {found r : Option BlockId} {b : BlockId} {bs : List BlockId} :
      d.parents.contains b = false → MeetsAll d found bs r → MeetsAll d found (b :: bs) r
  | first {r : Option BlockId} {b : BlockId} {bs : List BlockId} :
      d.parents.contains b = true → MeetsAll d (some b) bs r → MeetsAll d none (b :: bs) r
  | next {r : Option BlockId} {b c x : BlockId} {bs : List BlockId} :
      d.parents.contains b = true → Meets d b c x → MeetsAll d (some x) bs r →
      MeetsAll d (some c) (b :: bs) r

/-- A sweep over blocks with their predecessors. -/
inductive Sweeps : DomTree → List (BlockId × List BlockId) → DomTree × Bool → Prop where
  | done {d : DomTree} : Sweeps d [] (d, false)
  | row {d : DomTree} {b : BlockId} {preds : List BlockId} {found : Option BlockId}
      {rows : List (BlockId × List BlockId)} {r : DomTree × Bool} : MeetsAll d none preds found →
      Sweeps (d.put b found).1 rows r →
      Sweeps d ((b, preds) :: rows) (r.1, (d.put b found).2 || r.2)

/-- Sweeps until one changes nothing. -/
inductive Settles (rows : List (BlockId × List BlockId)) : DomTree → DomTree → Prop where
  | still {d d' : DomTree} : Sweeps d rows (d', false) → Settles rows d d'
  | again {d d' d'' : DomTree} : Sweeps d rows (d', true) → Settles rows d' d'' →
      Settles rows d d''

/-- The loops come to an end with a tree. -/
def Computes (g : FlowGraph) (d : DomTree) : Prop := Settles (rows g) (start g.reversePostOrder) d

theorem Climbs.eq {limit : Nat} (h : d.Climbs limit b x) (h' : d.Climbs limit b y) : x = y := by
  induction h with
  | stop hi hle =>
    cases h' with
    | stop => rfl
    | up hj hlt =>
      cases hi.symm.trans hj
      exact absurd hle (Nat.not_le.mpr hlt)
  | up hi hlt hc _ ih =>
    cases h' with
    | stop hj hle =>
      cases hi.symm.trans hj
      exact absurd hle (Nat.not_le.mpr hlt)
    | up _ _ hc' h' =>
      cases hc.symm.trans hc'
      exact ih h'

theorem Meets.eq (h : d.Meets a b x) (h' : d.Meets a b y) : x = y := by
  induction h with
  | here =>
    cases h' with
    | here => rfl
    | turn hne => exact absurd rfl hne
  | turn hne hj ha hi hb _ ih =>
    cases h' with
    | here => exact absurd rfl hne
    | turn _ hj' ha' hi' hb' h' =>
      cases hj.symm.trans hj'
      cases ha.eq ha'
      cases hi.symm.trans hi'
      cases hb.eq hb'
      exact ih h'

theorem MeetsAll.eq {found r r' : Option BlockId} {bs : List BlockId} (h : d.MeetsAll found bs r)
    (h' : d.MeetsAll found bs r') : r = r' := by
  induction h with
  | done =>
    cases h' with
    | done => rfl
  | skip hout _ ih =>
    cases h' with
    | skip _ h' => exact ih h'
    | first hin => cases hout.symm.trans hin
    | next hin => cases hout.symm.trans hin
  | first hin _ ih =>
    cases h' with
    | skip hout => cases hout.symm.trans hin
    | first _ h' => exact ih h'
  | next hin hm _ ih =>
    cases h' with
    | skip hout => cases hout.symm.trans hin
    | next _ hm' h' =>
      cases hm.eq hm'
      exact ih h'

theorem Sweeps.eq {rows : List (BlockId × List BlockId)} {r r' : DomTree × Bool}
    (h : Sweeps d rows r) (h' : Sweeps d rows r') : r = r' := by
  induction h generalizing r' with
  | done =>
    cases h' with
    | done => rfl
  | row hm _ ih =>
    cases h' with
    | row hm' h' =>
      cases hm.eq hm'
      rw [ih h']

theorem Settles.eq {rows : List (BlockId × List BlockId)} {d₁ d₂ : DomTree}
    (h : Settles rows d d₁) (h' : Settles rows d d₂) : d₁ = d₂ := by
  induction h with
  | still hs =>
    cases h' with
    | still hs' => exact congrArg Prod.fst (hs.eq hs')
    | again hs' => cases hs.eq hs'
  | again hs _ ih =>
    cases h' with
    | still hs' => cases hs.eq hs'
    | again hs' h' =>
      cases hs.eq hs'
      exact ih h'

/-- The loops come to one tree at most. -/
theorem Computes.eq {g : FlowGraph} {d' : DomTree} (h : Computes g d) (h' : Computes g d') : d = d' :=
  Settles.eq h h'

/-! ## Trees whose ways up follow the reverse post-order -/

/-- A tree on reachable blocks of a graph, in which ways up follow the reverse post-order and
end at the entry. -/
structure Tree (g : FlowGraph) (d : DomTree) : Prop where
  places_eq : ∀ b, d.places.get? b = if b ∈ g.reversePostOrder then some (g.pos b) else none
  root : ∀ e, g.entry? = some e → d.parents.get? e = some e
  mem : ∀ b c, d.parents.get? b = some c → b ∈ g.reversePostOrder
  has_parent : ∀ b c, d.parents.get? b = some c → d.Has c
  pos_parent : ∀ b c, d.parents.get? b = some c → g.entry? ≠ some b → g.pos c < g.pos b

namespace Tree

variable {g : FlowGraph}

theorem mem_of_has (h : Tree g d) (hb : d.Has b) : b ∈ g.reversePostOrder := by
  obtain ⟨c, hc⟩ := hb
  exact h.mem b c hc

theorem get?_places (h : Tree g d) (hb : d.Has b) : d.places.get? b = some (g.pos b) := by
  rw [h.places_eq, if_pos (h.mem_of_has hb)]

theorem place_eq (h : Tree g d) (hb : d.Has b) : d.place b = g.pos b := by
  rw [place, h.get?_places hb, Option.getD_some]

theorem pos_eq {i : Nat} (h : Tree g d) (hi : d.places.get? b = some i) : g.pos b = i := by
  rw [h.places_eq] at hi
  split at hi
  · exact Option.some.inj hi
  · cases hi

theorem has_of_above (h : Tree g d) (ha : d.Above x b) (hb : d.Has b) : d.Has x := by
  induction ha with
  | here => exact hb
  | up hp _ ih => exact ih (h.has_parent _ _ hp)

/-- A block on a way up does not come later. -/
theorem pos_le (h : Tree g d) (ha : d.Above x b) : g.pos x ≤ g.pos b := by
  induction ha with
  | here => exact Nat.le_refl _
  | @up b c hp _ ih =>
    by_cases he : g.entry? = some b
    · rw [h.root b he] at hp
      cases hp
      exact ih
    · exact Nat.le_trans ih (Nat.le_of_lt (h.pos_parent b c hp he))

theorem pos_lt (h : Tree g d) (ha : d.Above x b) (hb : d.Has b) (hne : x ≠ b) :
    g.pos x < g.pos b := by
  refine Nat.lt_of_le_of_ne (h.pos_le ha) fun heq => hne ?_
  exact FlowGraph.eq_of_pos_eq (h.mem_of_has (h.has_of_above ha hb)) heq

theorem eq_of_pos_le (h : Tree g d) (ha : d.Above x b) (hb : d.Has b) (hle : g.pos b ≤ g.pos x) :
    x = b := by
  by_contra hne
  exact Nat.not_lt.mpr hle (h.pos_lt ha hb hne)

theorem eq_entry {e : BlockId} (h : Tree g d) (he : g.entry? = some e) (ha : d.Above x e) :
    x = e :=
  h.eq_of_pos_le ha ⟨e, h.root e he⟩ (FlowGraph.pos_entry he ▸ Nat.zero_le _)

/-! ### Fingers -/

/-- A finger that starts in the tree has turns enough. -/
theorem climbsWithin (h : Tree g d) (limit : Nat) : ∀ (fuel : Nat) (b : BlockId), d.Has b →
    g.pos b ≤ fuel → d.Climbs limit b (d.climbWithin limit fuel b)
  | 0, b, hb, hle => .stop (h.get?_places hb) (Nat.le_trans hle (Nat.zero_le _))
  | fuel + 1, b, hb, hle => by
    obtain ⟨c, hc⟩ := hb
    have hplace := h.get?_places ⟨c, hc⟩
    simp only [climbWithin, h.place_eq ⟨c, hc⟩, hc]
    split
    · rename_i hlt
      have hent : g.entry? ≠ some b := by
        intro he
        rw [FlowGraph.pos_entry he] at hlt
        exact Nat.not_lt_zero _ hlt
      have hpos := h.pos_parent b c hc hent
      exact .up hplace hlt hc (h.climbsWithin limit fuel c (h.has_parent b c hc) (by omega))
    · rename_i hlt
      exact .stop hplace (Nat.not_lt.mp hlt)

theorem climbs (h : Tree g d) (limit : Nat) (hb : d.Has b) : d.Climbs limit b (d.climb limit b) :=
  h.climbsWithin limit _ b hb (Nat.le_of_eq (h.place_eq hb).symm)

/-- A finger that climbs stops at the first block on its way that is not after the limit. -/
theorem above_of_climbs {limit : Nat} (h : Tree g d) (hc : d.Climbs limit b y) (hb : d.Has b) :
    d.Above y b ∧ g.pos y ≤ limit ∧ ∀ x, d.Above x b → g.pos x ≤ limit → d.Above x y := by
  induction hc with
  | stop hi hle => exact ⟨.here, h.pos_eq hi ▸ hle, fun _ hx _ => hx⟩
  | up hi hlt hp _ ih =>
    obtain ⟨h₁, h₂, h₃⟩ := ih (h.has_parent _ _ hp)
    refine ⟨.up hp h₁, h₂, fun x hx hxl => h₃ x (hx.of_ne ?_ hp) hxl⟩
    rintro rfl
    exact Nat.not_le.mpr hlt (h.pos_eq hi ▸ hxl)

theorem climb_spec (h : Tree g d) (limit : Nat) (hb : d.Has b) :
    d.Above (d.climb limit b) b ∧ g.pos (d.climb limit b) ≤ limit ∧
      ∀ x, d.Above x b → g.pos x ≤ limit → d.Above x (d.climb limit b) :=
  h.above_of_climbs (h.climbs limit hb) hb

/-- Two fingers that start in the tree have turns enough: in each turn the later one moves to a block
that does not come after the other one. -/
theorem meetsWithin (h : Tree g d) : ∀ (fuel : Nat) (a b : BlockId), d.Has a → d.Has b →
    g.pos a + g.pos b < fuel → d.Meets a b (d.meetWithin fuel a b)
  | 0, _, _, _, _, hlt => absurd hlt (Nat.not_lt_zero _)
  | fuel + 1, a, b, ha, hb, hlt => by
    unfold meetWithin
    split
    · rename_i heq
      exact heq ▸ .here
    · rename_i hne
      obtain ⟨ha₁, hal, -⟩ := h.climb_spec (d.place b) ha
      have ha' := h.has_of_above ha₁ ha
      obtain ⟨hb₁, hbl, -⟩ := h.climb_spec (d.place (d.climb (d.place b) a)) hb
      have hb' := h.has_of_above hb₁ hb
      have hpos : g.pos a ≠ g.pos b := fun heq =>
        hne (FlowGraph.eq_of_pos_eq (h.mem_of_has ha) heq)
      have hplace := h.place_eq hb
      have hplace' := h.place_eq ha'
      have hale := h.pos_le ha₁
      have hble := h.pos_le hb₁
      refine .turn hne (hplace ▸ h.get?_places hb) (h.climbs _ ha) (hplace' ▸ h.get?_places ha')
        (h.climbs _ hb) (h.meetsWithin fuel _ _ ha' hb' (by omega))

theorem meets (h : Tree g d) (ha : d.Has a) (hb : d.Has b) : d.Meets a b (d.meet a b) := by
  refine h.meetsWithin _ a b ha hb ?_
  rw [h.place_eq ha, h.place_eq hb]
  exact Nat.lt_succ_self _

theorem above_iff_of_meets (h : Tree g d) (hm : d.Meets a b y) (ha : d.Has a) (hb : d.Has b) :
    d.Has y ∧ ∀ x, d.Above x y ↔ d.Above x a ∧ d.Above x b := by
  induction hm with
  | here => exact ⟨ha, fun x => (and_self_iff).symm⟩
  | turn hne hj hca hi hcb _ ih =>
    obtain ⟨ha₁, -, ha₂⟩ := h.above_of_climbs hca ha
    obtain ⟨hb₁, -, hb₂⟩ := h.above_of_climbs hcb hb
    obtain ⟨hy, hiff⟩ := ih (h.has_of_above ha₁ ha) (h.has_of_above hb₁ hb)
    refine ⟨hy, fun x => (hiff x).trans ⟨fun hx => ⟨hx.1.trans ha₁, hx.2.trans hb₁⟩, fun hx => ?_⟩⟩
    have hxa := ha₂ x hx.1 (h.pos_eq hj ▸ h.pos_le hx.2)
    exact ⟨hxa, hb₂ x hx.2 (h.pos_eq hi ▸ h.pos_le hxa)⟩

/-- Above the meeting point of two blocks lies what lies above both. -/
theorem above_meet_iff (h : Tree g d) (ha : d.Has a) (hb : d.Has b) :
    d.Has (d.meet a b) ∧ ∀ x, d.Above x (d.meet a b) ↔ d.Above x a ∧ d.Above x b :=
  h.above_iff_of_meets (h.meets ha hb) ha hb

/-- The meetings of a list come to an end. -/
theorem meetsAll (h : Tree g d) : ∀ (bs : List BlockId) (found : Option BlockId),
    (∀ c ∈ found, d.Has c) → d.MeetsAll found bs (bs.foldl d.meetStep found)
  | [], _, _ => .done
  | b :: bs, found, hf => by
    rw [List.foldl_cons]
    by_cases hb : d.Has b
    · rw [meetStep_of_has hb]
      cases found with
      | none => exact .first (has_iff.mp hb) (h.meetsAll bs (some b) fun c hc => by cases hc; exact hb)
      | some c =>
        have hc := hf c rfl
        refine .next (has_iff.mp hb) (h.meets hb hc) (h.meetsAll bs _ fun m hm => ?_)
        cases hm
        exact (h.above_meet_iff hb hc).1
    · rw [meetStep_of_not hb]
      exact .skip (by simpa using mt has_iff.mpr hb) (h.meetsAll bs found hf)

/-- The point where the ways up from all listed blocks of the tree meet, and from the one found
before. -/
theorem foldl_meet_spec (h : Tree g d) :
    ∀ (bs : List BlockId) (found : Option BlockId), (∀ c ∈ found, d.Has c) →
      ∀ r, bs.foldl d.meetStep found = r →
      (r = none → found = none ∧ ∀ b ∈ bs, ¬ d.Has b) ∧
      ∀ m ∈ r, d.Has m ∧
        ∀ x, d.Above x m ↔ (∀ c ∈ found, d.Above x c) ∧ ∀ b ∈ bs, d.Has b → d.Above x b
  | [], found, hf, r, hr => by
    subst hr
    refine ⟨fun h => ⟨h, nofun⟩, fun m hm => ⟨hf m hm, fun x => ⟨fun hx => ⟨?_, nofun⟩, fun hx => ?_⟩⟩⟩
    · intro c hc
      cases hm.symm.trans hc
      exact hx
    · exact hx.1 m hm
  | b :: bs, found, hf, r, hr => by
    rw [List.foldl_cons] at hr
    by_cases hb : d.Has b
    · rw [meetStep_of_has hb] at hr
      cases found with
      | none =>
        obtain ⟨hnone, hsome⟩ := h.foldl_meet_spec bs (some b) (fun c hc => by cases hc; exact hb) r hr
        refine ⟨fun h => absurd (hnone h).1 nofun, fun m hm => ⟨(hsome m hm).1, fun x => ?_⟩⟩
        simp [(hsome m hm).2 x, hb]
      | some c =>
        obtain ⟨hmeet, hiff⟩ := h.above_meet_iff hb (hf c rfl)
        obtain ⟨hnone, hsome⟩ :=
          h.foldl_meet_spec bs (some (d.meet b c)) (fun c hc => by cases hc; exact hmeet) r hr
        refine ⟨fun h => absurd (hnone h).1 nofun, fun m hm => ⟨(hsome m hm).1, fun x => ?_⟩⟩
        simpa [(hsome m hm).2 x, hb, hiff, and_assoc] using and_left_comm
    · rw [meetStep_of_not hb] at hr
      obtain ⟨hnone, hsome⟩ := h.foldl_meet_spec bs found hf r hr
      refine ⟨fun h => ⟨(hnone h).1, ?_⟩, fun m hm => ⟨(hsome m hm).1, fun x => ?_⟩⟩
      · exact List.forall_mem_cons.mpr ⟨hb, (hnone h).2⟩
      · simp [(hsome m hm).2 x, hb]

end Tree

/-- The ways up from the predecessors of `b` that are in the tree meet at `m`. -/
structure MeetsAt (g : FlowGraph) (d : DomTree) (b m : BlockId) : Prop where
  has : d.Has m
  above_iff : ∀ x, d.Above x m ↔ ∀ p, g.Edge p b → d.Has p → d.Above x p

variable {g : FlowGraph}

theorem Tree.meetAll?_eq_none (h : Tree g d) (hg : g.Coherent) (hb : b ∈ g.blocks)
    (hm : d.meetAll? (g.predecessors b) = none) : ∀ p, g.Edge p b → ¬ d.Has p := by
  obtain ⟨hnone, _⟩ := h.foldl_meet_spec (g.predecessors b) none nofun _ hm
  exact fun p he => (hnone rfl).2 p ((hg.edge hb).mpr he)

theorem Tree.meetsAt_of_meetAll? (h : Tree g d) (hg : g.Coherent) (hb : b ∈ g.blocks) {m : BlockId}
    (hm : d.meetAll? (g.predecessors b) = some m) : MeetsAt g d b m := by
  obtain ⟨_, hsome⟩ := h.foldl_meet_spec (g.predecessors b) none nofun _ hm
  obtain ⟨hhas, hiff⟩ := hsome m rfl
  refine ⟨hhas, fun x => (hiff x).trans ⟨fun hx p he hp => ?_, fun hx => ⟨nofun, fun p hp hh => ?_⟩⟩⟩
  · exact hx.2 p ((hg.edge hb).mpr he) hp
  · exact hx p ((hg.edge hb).mp hp) hh

/-! ## One adjustment -/

/-- What holds of the tree when the block at place `n` is adjusted next. -/
structure Sweeping (g : FlowGraph) (d : DomTree) (n : Nat) : Prop extends Tree g d where
  /-- The blocks before it are in the tree. -/
  has : ∀ b ∈ g.reversePostOrder, g.pos b < n → d.Has b
  /-- The dominators of a block lie on its way up. -/
  sound : ∀ b x, d.Has b → g.Dominates x b → d.Above x b
  /-- From every block of a way up a path leads down that does not go through earlier blocks. -/
  path : ∀ b x, d.Has b → d.Above x b → g.Via (fun y => g.pos x ≤ g.pos y) x b
  /-- What lies above all predecessors lies above the parent. -/
  low : ∀ b c x, d.parents.get? b = some c → g.entry? ≠ some b →
    (∀ p, g.Edge p b → d.Has p → d.Above x p) → d.Above x c
  /-- The parent lies above an earlier predecessor, if the block was adjusted in this sweep or
  the parent was not. -/
  held : ∀ b c, d.parents.get? b = some c → g.entry? ≠ some b → (g.pos b < n ∨ n ≤ g.pos c) →
    ∃ p, g.Edge p b ∧ g.pos p < g.pos b ∧ d.Has p ∧ d.Above c p

/-- `d'` is `d` with `m` as the parent of `b`. -/
structure Sets (d : DomTree) (b m : BlockId) (d' : DomTree) : Prop where
  places_eq : d'.places = d.places
  parents_eq : ∀ c, d'.parents.get? c = if b = c then some m else d.parents.get? c

theorem sets_insert (d : DomTree) (b m : BlockId) :
    Sets d b m { d with parents := d.parents.insert b m } :=
  ⟨rfl, fun c => BlockMap.get?_insert d.parents b c m⟩

theorem sets_self {m : BlockId} (h : d.parents.get? b = some m) : Sets d b m d := by
  refine ⟨rfl, fun c => ?_⟩
  split
  · rename_i hbc
    exact hbc ▸ h
  · rfl

namespace Sets

variable {d' : DomTree} {m : BlockId}

theorem parents_self (hs : Sets d b m d') : d'.parents.get? b = some m := by
  rw [hs.parents_eq, if_pos rfl]

theorem parents_of_ne (hs : Sets d b m d') (h : c ≠ b) : d'.parents.get? c = d.parents.get? c := by
  rw [hs.parents_eq, if_neg (Ne.symm h)]

theorem has_iff (hs : Sets d b m d') : d'.Has c ↔ c = b ∨ d.Has c := by
  unfold Has
  rw [hs.parents_eq]
  split
  · rename_i hbc
    exact ⟨fun _ => .inl hbc.symm, fun _ => ⟨m, rfl⟩⟩
  · rename_i hbc
    exact ⟨.inr, fun h => h.resolve_left (Ne.symm hbc)⟩

theorem tree (hs : Sets d b m d') (h : Tree g d) (hb : b ∈ g.reversePostOrder)
    (hent : g.entry? ≠ some b) (hm : d.Has m) (hpos : g.pos m < g.pos b) : Tree g d' where
  places_eq := hs.places_eq ▸ h.places_eq
  root e he := by
    rw [hs.parents_of_ne (fun heq => hent (heq ▸ he))]
    exact h.root e he
  mem c x hc := by
    rcases hs.has_iff.mp ⟨x, hc⟩ with rfl | hh
    · exact hb
    · exact h.mem_of_has hh
  has_parent c x hc := by
    rw [hs.parents_eq] at hc
    split at hc
    · cases hc
      exact hs.has_iff.mpr (.inr hm)
    · exact hs.has_iff.mpr (.inr (h.has_parent c x hc))
  pos_parent c x hc he := by
    rw [hs.parents_eq] at hc
    split at hc
    · rename_i hbc
      cases hc
      exact hbc ▸ hpos
    · exact h.pos_parent c x hc he

variable (hs : Sets d b m d') (h : Tree g d) (h' : Tree g d')

include hs

/-- A way up that does not go through the block stays. -/
theorem above_of_not (hx : d.Above x c) (hn : ¬ d.Above b c) : d'.Above x c := by
  refine hx.congr fun y hy _ _ => hs.parents_of_ne ?_
  rintro rfl
  exact hn hy

theorem above_of_not' (hx : d'.Above x c) (hn : ¬ d'.Above b c) : d.Above x c := by
  refine hx.congr fun y hy _ _ => (hs.parents_of_ne ?_).symm
  rintro rfl
  exact hn hy

include h h'

/-- Ways up are the same as far as the block. -/
theorem above_iff_of_le (hc : d.Has c) (hle : g.pos b ≤ g.pos x) :
    d'.Above x c ↔ d.Above x c := by
  constructor
  · intro hx
    refine hx.congr fun y hy hxy hne => (hs.parents_of_ne ?_).symm
    rintro rfl
    exact hne (h'.eq_of_pos_le hxy (h'.has_of_above hy (hs.has_iff.mpr (.inr hc))) hle).symm
  · intro hx
    refine hx.congr fun y hy hxy hne => hs.parents_of_ne ?_
    rintro rfl
    exact hne (h.eq_of_pos_le hxy (h.has_of_above hy hc) hle).symm

/-- Ways up from earlier blocks are the same. -/
theorem above_iff_of_lt (hlt : g.pos c < g.pos b) : d'.Above x c ↔ d.Above x c := by
  constructor
  · intro hx
    refine hs.above_of_not' hx fun hb => ?_
    exact absurd (h'.pos_le hb) (Nat.not_le.mpr hlt)
  · intro hx
    refine hs.above_of_not hx fun hb => ?_
    exact absurd (h.pos_le hb) (Nat.not_le.mpr hlt)

end Sets

namespace Sweeping

variable {d' : DomTree} {m : BlockId} {n : Nat}

/-- The meeting point of the predecessors comes before the block, since one of them does. -/
theorem pos_meet (h : Sweeping g d n) (hb : b ∈ g.reversePostOrder) (hent : g.entry? ≠ some b)
    (hn : g.pos b = n) (hm : MeetsAt g d b m) :
    ∃ p, g.Edge p b ∧ g.pos p < g.pos b ∧ d.Has p ∧ d.Above m p ∧ g.pos m < g.pos b := by
  obtain ⟨p, he, hp, hlt⟩ := FlowGraph.exists_edge_of_pos hb hent
  have hhas := h.has p hp (hn ▸ hlt)
  have hmp := (hm.above_iff m).mp .here p he hhas
  exact ⟨p, he, hlt, hhas, hmp, Nat.lt_of_le_of_lt (h.pos_le hmp) hlt⟩

/-- An adjustment does not add to the ways up of other blocks. -/
theorem above_of_step (h : Sweeping g d n) (hent : g.entry? ≠ some b) (hm : MeetsAt g d b m)
    (hs : Sets d b m d') (h' : Tree g d') (hpos : g.pos m < g.pos b) (hc : d.Has c)
    (hx : d'.Above x c) : d.Above x c := by
  by_cases hle : g.pos b ≤ g.pos x
  · exact (hs.above_iff_of_le h.toTree h' hc hle).mp hx
  · by_cases hbc : d'.Above b c
    · have hbc' : d.Above b c := (hs.above_iff_of_le h.toTree h' hc (Nat.le_refl _)).mp hbc
      obtain ⟨c₀, hc₀⟩ := h.has_of_above hbc' hc
      have hxb : d'.Above x b := by
        refine (hx.total hbc).resolve_right fun hbx => ?_
        exact hle (h'.pos_le hbx)
      have hxm : d'.Above x m := hxb.of_ne (fun heq => hle (heq ▸ Nat.le_refl _)) hs.parents_self
      rw [hs.above_iff_of_lt h.toTree h' hpos] at hxm
      -- The meeting point is above the old parent.
      have hmc := h.low b c₀ m hc₀ hent ((hm.above_iff m).mp .here)
      exact ((hxm.trans hmc).trans (.up hc₀ .here)).trans hbc'
    · exact hs.above_of_not' hx hbc

/-- An adjustment keeps the dominators of every block on its way up. -/
theorem sound_step (h : Sweeping g d n) (hm : MeetsAt g d b m) (hs : Sets d b m d')
    (h' : Tree g d') (hpos : g.pos m < g.pos b) (hc : d'.Has c) (hx : g.Dominates x c) :
    d'.Above x c := by
  have hself : g.Dominates x b → d'.Above x b := by
    intro hxb
    by_cases hne : x = b
    · exact hne ▸ .here
    · refine .up hs.parents_self ((hs.above_iff_of_lt h.toTree h' hpos).mpr ?_)
      refine (hm.above_iff x).mpr fun p he hp => h.sound p x hp ?_
      exact hxb.of_edge he hne
  rcases hs.has_iff.mp hc with rfl | hc
  · exact hself hx
  · by_cases hle : g.pos b ≤ g.pos x
    · exact (hs.above_iff_of_le h.toTree h' hc hle).mpr (h.sound c x hc hx)
    · by_cases hbc : d.Above b c
      · refine (hself ?_).trans ((hs.above_iff_of_le h.toTree h' hc (Nat.le_refl _)).mpr hbc)
        refine hx.of_via ((h.path c b hc hbc).mono fun y hy => ?_)
        rintro rfl
        exact hle hy
      · exact hs.above_of_not (h.sound c x hc hx) hbc

/-- An adjustment leaves paths down from every block of a way up. -/
theorem path_step (h : Sweeping g d n) (hb : b ∈ g.reversePostOrder) {p : BlockId}
    (he : g.Edge p b) (hp : d.Has p) (hm : MeetsAt g d b m) (hs : Sets d b m d')
    (h' : Tree g d') (hpos : g.pos m < g.pos b) (hc : d'.Has c) (hx : d'.Above x c) :
    g.Via (fun y => g.pos x ≤ g.pos y) x c := by
  have hself : d'.Above x b → g.Via (fun y => g.pos x ≤ g.pos y) x b := by
    intro hxb
    by_cases hne : x = b
    · subst hne
      exact .refl (FlowGraph.mem_reversePostOrder.mp hb).live (Nat.le_refl _)
    · have hxm := (hs.above_iff_of_lt h.toTree h' hpos).mp (hxb.of_ne hne hs.parents_self)
      have hxp := (hm.above_iff x).mp hxm p he hp
      exact (h.path p x hp hxp).snoc he (h'.pos_le hxb)
  rcases hs.has_iff.mp hc with rfl | hc
  · exact hself hx
  · by_cases hbc : d'.Above b c
    · have hbc' := (hs.above_iff_of_le h.toTree h' hc (Nat.le_refl _)).mp hbc
      rcases hx.total hbc with hxb | hbx
      · refine (hself hxb).trans ((h.path c b hc hbc').mono fun y hy => ?_)
        exact Nat.le_trans (h'.pos_le hxb) hy
      · exact h.path c x hc ((hs.above_iff_of_le h.toTree h' hc (h'.pos_le hbx)).mp hx)
    · exact h.path c x hc (hs.above_of_not' hx hbc)

/-- After an adjustment blocks still can only move up. -/
theorem low_step (h : Sweeping g d n) (hent : g.entry? ≠ some b) (hn : g.pos b = n)
    (hm : MeetsAt g d b m) (hs : Sets d b m d') (h' : Tree g d') (hpos : g.pos m < g.pos b)
    (hc : d'.parents.get? c = some a) (hce : g.entry? ≠ some c)
    (hx : ∀ p, g.Edge p c → d'.Has p → d'.Above x p) : d'.Above x a := by
  have hx' : ∀ p, g.Edge p c → d.Has p → d.Above x p := fun p he hp =>
    h.above_of_step hent hm hs h' hpos hp (hx p he (hs.has_iff.mpr (.inr hp)))
  by_cases hcb : c = b
  · subst hcb
    cases hs.parents_self.symm.trans hc
    exact (hs.above_iff_of_lt h.toTree h' hpos).mpr ((hm.above_iff x).mpr hx')
  · rw [hs.parents_of_ne hcb] at hc
    have hxa := h.low c a x hc hce hx'
    by_cases hle : g.pos b ≤ g.pos x
    · exact (hs.above_iff_of_le h.toTree h' (h.has_parent c a hc) hle).mpr hxa
    · by_cases hba : d.Above b a
      · -- The parent was not adjusted yet, so it lies above an earlier predecessor, and what
        -- lies above that one at an earlier place lies above the parent.
        have hab := h.pos_le hba
        obtain ⟨p, he, _, hp, hap⟩ := h.held c a hc hce (.inr (hn ▸ hab))
        have hap' := (hs.above_iff_of_le h.toTree h' hp hab).mpr hap
        refine ((hx p he (hs.has_iff.mpr (.inr hp))).total hap').resolve_right fun hax => ?_
        exact hle (Nat.le_trans hab (h'.pos_le hax))
      · exact hs.above_of_not hxa hba

theorem held_step (h : Sweeping g d n) (hn : g.pos b = n) {p : BlockId} (hpb : g.Edge p b)
    (hlt : g.pos p < g.pos b) (hp : d.Has p) (hmp : d.Above m p) (hs : Sets d b m d')
    (h' : Tree g d') (hc : d'.parents.get? c = some a) (hce : g.entry? ≠ some c)
    (hwhen : g.pos c < n + 1 ∨ n + 1 ≤ g.pos a) :
    ∃ p, g.Edge p c ∧ g.pos p < g.pos c ∧ d'.Has p ∧ d'.Above a p := by
  by_cases hcb : c = b
  · subst hcb
    cases hs.parents_self.symm.trans hc
    exact ⟨p, hpb, hlt, hs.has_iff.mpr (.inr hp), (hs.above_iff_of_lt h.toTree h' hlt).mpr hmp⟩
  · rw [hs.parents_of_ne hcb] at hc
    have hcn : g.pos c ≠ n := fun heq =>
      hcb (FlowGraph.eq_of_pos_eq (h.mem c a hc) (heq.trans hn.symm))
    obtain ⟨q, he, hq, hhas, haq⟩ := h.held c a hc hce (by omega)
    refine ⟨q, he, hq, hs.has_iff.mpr (.inr hhas), ?_⟩
    rcases hwhen with hwhen | hwhen
    · exact (hs.above_iff_of_lt h.toTree h' (by omega)).mpr haq
    · exact (hs.above_iff_of_le h.toTree h' hhas (by omega)).mpr haq

/-- An adjustment keeps what holds during a sweep. -/
theorem step (h : Sweeping g d n) (hb : b ∈ g.reversePostOrder) (hent : g.entry? ≠ some b)
    (hn : g.pos b = n) (hm : MeetsAt g d b m) (hs : Sets d b m d') : Sweeping g d' (n + 1) := by
  obtain ⟨p, he, hlt, hp, hmp, hpos⟩ := h.pos_meet hb hent hn hm
  have h' := hs.tree h.toTree hb hent hm.has hpos
  refine { h' with has := fun c hc hcn => ?_, sound := fun c x => h.sound_step hm hs h' hpos,
                   path := fun c x => h.path_step hb he hp hm hs h' hpos,
                   low := fun c a x => h.low_step hent hn hm hs h' hpos,
                   held := fun c a => h.held_step hn he hlt hp hmp hs h' }
  by_cases hcb : c = b
  · exact hs.has_iff.mpr (.inl hcb)
  · refine hs.has_iff.mpr (.inr (h.has c hc ?_))
    have hne : g.pos c ≠ g.pos b := fun heq => hcb (FlowGraph.eq_of_pos_eq hc heq)
    omega

end Sweeping

/-! ## Sweeps -/

/-- The place of the parent of a block. -/
def parentPos (g : FlowGraph) (d : DomTree) (b : BlockId) : Nat := ((d.parents.get? b).map g.pos).getD 0

/-- The sum of the places of all parents. -/
def weight (g : FlowGraph) (d : DomTree) : Nat := (g.reversePostOrder.map (parentPos g d)).sum

/-- What a piece of a sweep leads to: blocks stay or move up, and it reports truly whether one
was moved. -/
structure Lowers (g : FlowGraph) (d : DomTree) (result : DomTree × Bool) : Prop where
  has : ∀ b, d.Has b → result.1.Has b
  le : ∀ b, d.Has b → parentPos g result.1 b ≤ parentPos g d b
  lt : result.2 = true → (∀ b ∈ g.reversePostOrder, d.Has b) →
    ∃ b ∈ g.reversePostOrder, parentPos g result.1 b < parentPos g d b
  eq : result.2 = false → result.1 = d

theorem Lowers.trans {r r' : DomTree × Bool} (h : Lowers g d r) (h' : Lowers g r.1 r') :
    Lowers g d (r'.1, r.2 || r'.2) where
  has b hb := h'.has b (h.has b hb)
  le b hb := Nat.le_trans (h'.le b (h.has b hb)) (h.le b hb)
  lt hc hfull := by
    rcases (Bool.or_eq_true _ _).mp hc with hc | hc
    · obtain ⟨b, hb, hlt⟩ := h.lt hc hfull
      exact ⟨b, hb, Nat.lt_of_le_of_lt (h'.le b (h.has b (hfull b hb))) hlt⟩
    · obtain ⟨b, hb, hlt⟩ := h'.lt hc fun b hb => h.has b (hfull b hb)
      exact ⟨b, hb, Nat.lt_of_lt_of_le hlt (h.le b (hfull b hb))⟩
  eq hc := by
    obtain ⟨h₁, h₂⟩ := (Bool.or_eq_false_iff).mp hc
    exact (h'.eq h₂).trans (h.eq h₁)

/-- A sweep that reports a change lowers the sum. -/
theorem Lowers.weight_lt {r : DomTree × Bool} (h : Lowers g d r)
    (hfull : ∀ b ∈ g.reversePostOrder, d.Has b) (hc : r.2 = true) : weight g r.1 < weight g d :=
  List.sum_lt_sum _ _ (fun b hb => h.le b (hfull b hb)) (h.lt hc hfull)

theorem weight_le (h : Tree g d) :
    weight g d ≤ g.reversePostOrder.length * g.reversePostOrder.length := by
  have hle : ∀ p ∈ g.reversePostOrder.map (parentPos g d), p ≤ g.reversePostOrder.length := by
    intro p hp
    obtain ⟨b, _, rfl⟩ := List.mem_map.mp hp
    unfold parentPos
    cases hc : d.parents.get? b with
    | none => exact Nat.zero_le _
    | some c => exact Nat.le_of_lt (FlowGraph.pos_lt (h.mem_of_has (h.has_parent b c hc)))
  have := List.sum_le_card_nsmul _ _ hle
  simpa [weight] using this

namespace Sweeping

variable {n : Nat} (hg : g.Coherent)

include hg

/-- One adjustment of a sweep. -/
theorem adjust (h : Sweeping g d n) (hb : b ∈ g.reversePostOrder) (hent : g.entry? ≠ some b)
    (hn : g.pos b = n) :
    Sweeping g (d.adjust b (g.predecessors b)).1 (n + 1) ∧
      Lowers g d (d.adjust b (g.predecessors b)) ∧
      ((d.adjust b (g.predecessors b)).2 = false →
        ∃ m, d.parents.get? b = some m ∧ MeetsAt g d b m) := by
  have hlive := (FlowGraph.mem_reversePostOrder.mp hb).live
  cases hm : d.meetAll? (g.predecessors b) with
  | none =>
    obtain ⟨p, he, hp, hlt⟩ := FlowGraph.exists_edge_of_pos hb hent
    exact absurd (h.has p hp (hn ▸ hlt)) (h.meetAll?_eq_none hg hlive hm p he)
  | some m =>
    have hmeets := h.meetsAt_of_meetAll? hg hlive hm
    simp only [DomTree.adjust, hm, put]
    split
    · rename_i hold
      refine ⟨h.step hb hent hn hmeets (sets_self hold), ?_, fun _ => ⟨m, hold, hmeets⟩⟩
      exact ⟨fun _ hc => hc, fun _ _ => Nat.le_refl _, nofun, fun _ => rfl⟩
    · rename_i hnew
      have hs := sets_insert d b m
      refine ⟨h.step hb hent hn hmeets hs, ?_, nofun⟩
      have hlt : ∀ c, d.parents.get? b = some c → g.pos m < g.pos c := by
        intro c hc
        have hmc := h.low b c m hc hent ((hmeets.above_iff m).mp .here)
        exact h.pos_lt hmc (h.has_parent b c hc) fun heq => hnew (heq ▸ hc)
      refine ⟨fun c hc => hs.has_iff.mpr (.inr hc), fun c ⟨a, ha⟩ => ?_, fun _ hfull => ?_, nofun⟩
      · unfold parentPos
        rw [hs.parents_eq]
        split
        · rename_i hbc
          subst hbc
          simpa [ha] using Nat.le_of_lt (hlt a ha)
        · exact Nat.le_refl _
      · obtain ⟨c, hc⟩ := hfull b hb
        refine ⟨b, hb, ?_⟩
        unfold parentPos
        rw [hs.parents_self, hc]
        exact hlt c hc

/-- A sweep over the blocks from a place on. -/
theorem sweep : ∀ (bs pre : List BlockId) (d : DomTree), g.reversePostOrder = pre ++ bs →
    pre ≠ [] → Sweeping g d pre.length →
    Sweeps d (bs.map fun b => (b, g.predecessors b))
      (d.sweep (bs.map fun b => (b, g.predecessors b))) ∧
    Sweeping g (d.sweep (bs.map fun b => (b, g.predecessors b))).1 g.reversePostOrder.length ∧
      Lowers g d (d.sweep (bs.map fun b => (b, g.predecessors b))) ∧
      ((d.sweep (bs.map fun b => (b, g.predecessors b))).2 = false →
        ∀ b ∈ bs, ∃ m, d.parents.get? b = some m ∧ MeetsAt g d b m)
  | [], pre, d, heq, _, h => by
    refine ⟨.done, ?_, ⟨fun _ hc => hc, fun _ _ => Nat.le_refl _, nofun, fun _ => rfl⟩, fun _ => nofun⟩
    rw [heq, List.append_nil]
    exact h
  | b :: bs, pre, d, heq, hpre, h => by
    have hb : b ∈ g.reversePostOrder := heq ▸ List.mem_append_right _ List.mem_cons_self
    have hpos := FlowGraph.pos_eq_length heq
    have hent : g.entry? ≠ some b := by
      intro he
      rw [FlowGraph.pos_entry he] at hpos
      exact hpre (List.eq_nil_of_length_eq_zero hpos.symm)
    obtain ⟨h₁, hl₁, hm₁⟩ := h.adjust hg hb hent hpos
    have heq' : g.reversePostOrder = (pre ++ [b]) ++ bs := by rw [heq, List.append_assoc]; rfl
    have hlen : pre.length + 1 = (pre ++ [b]).length := by simp
    obtain ⟨hrun, h₂, hl₂, hm₂⟩ := sweep bs (pre ++ [b]) _ heq' (by simp) (hlen ▸ h₁)
    refine ⟨.row (h.meetsAll _ none nofun) hrun, h₂, hl₁.trans hl₂, fun hc => ?_⟩
    have hor : ((d.adjust b (g.predecessors b)).2 || ((d.adjust b (g.predecessors b)).1.sweep
        (bs.map fun b => (b, g.predecessors b))).2) = false := hc
    obtain ⟨hc₁, hc₂⟩ := Bool.or_eq_false_iff.mp hor
    rw [hl₁.eq hc₁] at hm₂ hc₂
    exact List.forall_mem_cons.mpr ⟨hm₁ hc₁, hm₂ hc₂⟩

omit hg in
/-- After a sweep another one can start. -/
theorem restart (h : Sweeping g d g.reversePostOrder.length) {e : BlockId}
    (he : g.entry? = some e) : Sweeping g d 1 := by
  have hlen := FlowGraph.pos_lt (FlowGraph.entry_mem_reversePostOrder he)
  refine { h with has := fun b hb hlt => h.has b hb (by omega), held := fun b c hc hb _ => ?_ }
  exact h.held b c hc hb (.inl (FlowGraph.pos_lt (h.mem b c hc)))

end Sweeping

/-! ## Rest -/

/-- A tree that sweeps leave alone. -/
structure Settled (g : FlowGraph) (d : DomTree) : Prop extends Tree g d where
  has : ∀ b ∈ g.reversePostOrder, d.Has b
  sound : ∀ b x, d.Has b → g.Dominates x b → d.Above x b
  meets : ∀ b ∈ g.reversePostOrder, g.entry? ≠ some b →
    ∃ m, d.parents.get? b = some m ∧ MeetsAt g d b m
  still : d.sweep (rows g) = (d, false)

/-- A sweep from a tree in which all is said of the first block. -/
theorem Sweeping.sweep_rows (hg : g.Coherent) (h : Sweeping g d 1) {e : BlockId}
    (he : g.entry? = some e) :
    Sweeps d (rows g) (d.sweep (rows g)) ∧ Sweeping g (d.sweep (rows g)).1 g.reversePostOrder.length ∧
      Lowers g d (d.sweep (rows g)) ∧ ((d.sweep (rows g)).2 = false → Settled g d) := by
  obtain ⟨bs, hbs⟩ := List.head?_eq_some_iff.mp ((FlowGraph.head?_reversePostOrder g).trans he)
  have hrows : rows g = bs.map fun b => (b, g.predecessors b) := by rw [rows, hbs, List.tail_cons]
  rw [hrows]
  obtain ⟨hrun, h', hl, hm⟩ := Sweeping.sweep hg bs [e] d hbs (List.cons_ne_nil _ _) h
  refine ⟨hrun, h', hl, fun hc => ?_⟩
  have heq := hl.eq hc
  rw [heq] at h'
  refine { h' with has := fun b hb => h'.has b hb (FlowGraph.pos_lt hb), sound := h'.sound,
                   meets := fun b hb hent => hm hc b ?_, still := hrows ▸ Prod.ext heq hc }
  rw [hbs] at hb
  refine (List.mem_cons.mp hb).resolve_left ?_
  rintro rfl
  exact hent he

/-- Sweeps come to rest before the sum of the places is used up. -/
theorem Sweeping.settles (hg : g.Coherent) {e : BlockId} (he : g.entry? = some e) :
    ∀ (fuel : Nat) (d : DomTree), Sweeping g d g.reversePostOrder.length → weight g d < fuel →
      Settles (rows g) d (settle (rows g) fuel d) ∧ Settled g (settle (rows g) fuel d)
  | 0, _, _, hlt => absurd hlt (Nat.not_lt_zero _)
  | fuel + 1, d, h, hlt => by
    obtain ⟨hrun, h', hl, hsettled⟩ := (h.restart he).sweep_rows hg he
    unfold settle
    cases hr : d.sweep (rows g) with
    | mk d' changed =>
      rw [hr] at hrun h' hl hsettled
      cases changed with
      | false =>
        cases hl.eq rfl
        exact ⟨.still hrun, hsettled rfl⟩
      | true =>
        have hfull : ∀ b ∈ g.reversePostOrder, d.Has b := fun b hb => h.has b hb (FlowGraph.pos_lt hb)
        have hw := hl.weight_lt hfull rfl
        obtain ⟨hmore, hrest⟩ := Sweeping.settles hg he fuel d' h' (by simp only at hw; omega)
        exact ⟨.again hrun hmore, hrest⟩

theorem lookup_zipIdx (b : BlockId) : ∀ (l : List BlockId) (n : Nat),
    (l.zipIdx n).lookup b = if b ∈ l then some (n + l.idxOf b) else none
  | [], _ => rfl
  | a :: l, n => by
    rw [List.zipIdx_cons, List.lookup_cons, lookup_zipIdx b l (n + 1)]
    cases hba : b == a with
    | true => simp [beq_iff_eq.mp hba]
    | false =>
      have hne := beq_eq_false_iff_ne.mp hba
      simp only [List.mem_cons, hne, false_or, List.idxOf_cons_ne l (Ne.symm hne)]
      split
      · congr 1
        omega
      · rfl

theorem get?_parents_start (g : FlowGraph) (b : BlockId) :
    (start g.reversePostOrder).parents.get? b = if g.entry? = some b then some b else none := by
  rw [start, BlockMap.get?_ofList, FlowGraph.head?_reversePostOrder]
  cases g.entry? with
  | none => rfl
  | some e =>
    simp only [Option.toList_some, List.map_cons, List.map_nil, List.lookup_cons, List.lookup_nil,
      Option.some.injEq]
    by_cases h : e = b
    · simp [h]
    · simp [h, beq_eq_false_iff_ne.mpr (Ne.symm h)]

/-- The tree with the entry alone. -/
theorem sweeping_start (g : FlowGraph) : Sweeping g (start g.reversePostOrder) 1 := by
  have hparent : ∀ {b c}, (start g.reversePostOrder).parents.get? b = some c →
      g.entry? = some b ∧ c = b := by
    intro b c h
    rw [get?_parents_start] at h
    split at h
    · rename_i he
      cases h
      exact ⟨he, rfl⟩
    · cases h
  have hhas : ∀ {b}, (start g.reversePostOrder).Has b → g.entry? = some b := fun ⟨c, hc⟩ =>
    (hparent hc).1
  have habove : ∀ {b x}, (start g.reversePostOrder).Above x b → x = b := by
    intro b x h
    induction h with
    | here => rfl
    | up hp _ ih => exact ih.trans (hparent hp).2
  refine
    { places_eq := fun b => ?_, root := fun e he => ?_, mem := fun b c hc => ?_,
      has_parent := fun b c hc => ?_, pos_parent := fun b c hc hb => absurd (hparent hc).1 hb,
      has := fun b hb hlt => ?_, sound := fun b x hb hx => ?_, path := fun b x hb hx => ?_,
      low := fun b c _ hc hb => absurd (hparent hc).1 hb,
      held := fun b c hc hb => absurd (hparent hc).1 hb }
  · rw [start, BlockMap.get?_ofList, lookup_zipIdx]
    simp only [Nat.zero_add]
    rfl
  · rw [get?_parents_start, if_pos he]
  · exact FlowGraph.entry_mem_reversePostOrder (hparent hc).1
  · rw [(hparent hc).2]
    exact ⟨c, hc⟩
  · have hne : g.reversePostOrder ≠ [] := List.ne_nil_of_mem hb
    obtain ⟨e, l, hl⟩ := List.exists_cons_of_ne_nil hne
    have he : g.entry? = some e := by rw [← FlowGraph.head?_reversePostOrder, hl]; rfl
    have heb : b = e := FlowGraph.eq_of_pos_eq hb (by rw [FlowGraph.pos_entry he]; omega)
    exact ⟨b, by rw [get?_parents_start, if_pos (heb ▸ he)]⟩
  · have he := hhas hb
    have hlive := (FlowGraph.mem_reversePostOrder.mp (FlowGraph.entry_mem_reversePostOrder he)).live
    rw [List.mem_singleton.mp (hx b [b] he (.here hlive))]
    exact .here
  · have he := hhas hb
    rw [habove hx]
    exact .refl (FlowGraph.mem_reversePostOrder.mp (FlowGraph.entry_mem_reversePostOrder he)).live
      (Nat.le_refl _)

/-- The loops over a graph come to an end, and the sweeps to rest. -/
theorem computes_ofGraph (hg : g.Coherent) : Computes g (ofGraph g) ∧ Settled g (ofGraph g) := by
  have h := sweeping_start g
  cases he : g.entry? with
  | none =>
    have hnil : g.reversePostOrder = [] := by
      rw [← List.head?_eq_none_iff, FlowGraph.head?_reversePostOrder, he]
    have hrows : rows g = [] := by rw [rows, hnil]; rfl
    have hof : ofGraph g = start g.reversePostOrder := by
      rw [ofGraph, enough, hrows]
      rfl
    rw [hof, Computes, hrows]
    refine ⟨.still .done, { h with
      has := fun b hb => ?_, sound := h.sound, meets := fun b hb => ?_, still := ?_ }⟩
    · rw [hnil] at hb
      exact absurd hb List.not_mem_nil
    · rw [hnil] at hb
      exact absurd hb List.not_mem_nil
    · rw [hrows]
      rfl
  | some e =>
    obtain ⟨hrun, h', hl, hsettled⟩ := h.sweep_rows hg he
    unfold Computes ofGraph enough
    unfold settle
    cases hr : (start g.reversePostOrder).sweep (rows g) with
    | mk d' changed =>
      rw [hr] at hrun h' hl hsettled
      cases changed with
      | false =>
        cases hl.eq rfl
        exact ⟨.still hrun, hsettled rfl⟩
      | true =>
        have hle := Nat.lt_succ_of_le (weight_le h'.toTree)
        obtain ⟨hmore, hrest⟩ := Sweeping.settles hg he _ d' h' hle
        exact ⟨.again hrun hmore, hrest⟩

theorem settled_ofGraph (hg : g.Coherent) : Settled g (ofGraph g) := (computes_ofGraph hg).2

/-- More sweeps than needed change nothing. -/
theorem settle_add {rows : List (BlockId × List BlockId)} (j : Nat) :
    ∀ (k : Nat) (d : DomTree),
      (settle rows k d).sweep rows = (settle rows k d, false) →
      settle rows (k + j) d = settle rows k d
  | 0, d, h => by
    cases j with
    | zero => rfl
    | succ j =>
      change d.sweep rows = (d, false) at h
      simp only [settle, h]
  | k + 1, d, h => by
    rw [Nat.add_right_comm]
    unfold settle at h ⊢
    cases hr : d.sweep rows with
    | mk d' changed =>
      rw [hr] at h
      cases changed with
      | false => rfl
      | true => exact settle_add j k d' h

namespace Settled

/-- At rest, exactly the dominators of a block lie on its way up. -/
theorem above_iff (h : Settled g d) (hb : d.Has b) : d.Above x b ↔ g.Dominates x b := by
  refine ⟨fun hx => ?_, h.sound b x hb⟩
  by_contra hn
  obtain ⟨e, he, hv⟩ := FlowGraph.not_dominates_iff.mp hn
  -- Along a path around `x`, no block has `x` on its way up.
  have hkey : g.Reachable b ∧ ¬ d.Above x b := by
    refine hv.rec_on (motive := fun y => g.Reachable y ∧ ¬ d.Above x y) ⟨?_, fun hxe => ?_⟩ ?_
    · exact FlowGraph.mem_reversePostOrder.mp (FlowGraph.entry_mem_reversePostOrder he)
    · exact hv.start (h.eq_entry he hxe).symm
    · rintro y z hyz hy hz ⟨hr, hxy⟩
      refine ⟨hr.edge hyz, fun hxz => hxy ?_⟩
      by_cases hze : g.entry? = some z
      · exact absurd (h.eq_entry hze hxz).symm hz
      · obtain ⟨m, hm, hmeets⟩ := h.meets z (FlowGraph.mem_reversePostOrder.mpr (hr.edge hyz)) hze
        refine (hmeets.above_iff x).mp (hxz.of_ne (Ne.symm hz) hm) y hyz ?_
        exact h.has y (FlowGraph.mem_reversePostOrder.mpr hr)
  exact hkey.2 hx

theorem has_iff_reachable (h : Settled g d) : d.Has b ↔ g.Reachable b :=
  ⟨fun hb => FlowGraph.mem_reversePostOrder.mp (h.mem_of_has hb),
    fun hr => h.has b (FlowGraph.mem_reversePostOrder.mpr hr)⟩

theorem isReachable_iff (h : Settled g d) : d.isReachable b = true ↔ g.Reachable b :=
  DomTree.has_iff.symm.trans h.has_iff_reachable

/-- The query decides dominance by paths. -/
theorem dominates_iff (h : Settled g d) : d.dominates a b = true ↔ g.Dominates a b := by
  unfold dominates
  by_cases hab : a = b
  · subst hab
    simp [FlowGraph.Dominates.refl]
  · by_cases hr : g.Reachable b
    · have hb := h.has_iff_reachable.mpr hr
      rw [h.isReachable_iff.mpr hr, beq_eq_false_iff_ne.mpr hab, h.places_eq, ← h.above_iff hb]
      simp only [Bool.not_true, Bool.or_self, Bool.false_or]
      by_cases ha : a ∈ g.reversePostOrder
      · obtain ⟨hc, hpos, hmax⟩ := h.climb_spec (g.pos a) hb
        simp only [if_pos ha, beq_iff_eq]
        refine ⟨fun heq => heq ▸ hc, fun hup => ?_⟩
        have hle := h.pos_le (hmax a hup (Nat.le_refl _))
        exact FlowGraph.eq_of_pos_eq (h.mem_of_has (h.has_of_above hc hb)) (Nat.le_antisymm hpos hle)
      · simp only [if_neg ha, Bool.false_eq_true, false_iff]
        exact fun hup => ha (h.mem_of_has (h.has_of_above hup hb))
    · have hn : d.isReachable b = false := by
        rw [← Bool.not_eq_true, h.isReachable_iff]
        exact hr
      simp only [hn, Bool.not_false, Bool.or_true, Bool.true_or, true_iff]
      exact fun e trail he hp => absurd ⟨e, he, trail, hp, fun _ _ => trivial⟩ hr

/-- The parent of a block is the last of its strict dominators. -/
theorem idom?_spec (h : Settled g d) (hr : g.Reachable b) (hent : g.entry? ≠ some b) :
    ∃ c, d.idom? b = some c ∧ c ≠ b ∧ g.Dominates c b ∧
      ∀ x, x ≠ b → g.Dominates x b → g.Dominates x c := by
  have hb := h.has_iff_reachable.mpr hr
  obtain ⟨c, hc⟩ := hb
  have hlt := h.pos_parent b c hc hent
  have hne : c ≠ b := by
    rintro rfl
    exact Nat.lt_irrefl _ hlt
  refine ⟨c, by simp [idom?, hc, hne], hne, ?_, fun x hx hdom => ?_⟩
  · exact (h.above_iff ⟨c, hc⟩).mp (.up hc .here)
  · exact (h.above_iff (h.has_parent b c hc)).mp (((h.above_iff ⟨c, hc⟩).mpr hdom).of_ne hx hc)

end Settled

/-! ## The tree of a function -/

variable {f : Func}

theorem isReachable_ofGraph :
    (ofGraph (.ofFunc f)).isReachable b = true ↔ (FlowGraph.ofFunc f).Reachable b :=
  (settled_ofGraph (FlowGraph.coherent_ofFunc f)).isReachable_iff

/-- The tree decides dominance by paths. -/
theorem dominates_ofGraph :
    (ofGraph (.ofFunc f)).dominates a b = true ↔ (FlowGraph.ofFunc f).Dominates a b :=
  (settled_ofGraph (FlowGraph.coherent_ofFunc f)).dominates_iff

/-- The tree of a function is exact.  The loops end: each climb and each meeting of two fingers with
all its look-ups, each sweep and the row of sweeps, and they come to this tree and no other.  From
some number of sweeps on the result is the same, and one more sweep finds nothing to change.  The loop
of a query ends too.  A query is answered by what lies on all paths, and the immediate dominator of a
reachable block other than the entry is a strict dominator of it that all its strict dominators
dominate. -/
theorem exact_ofFunc (f : Func) :
    (∀ d, Computes (.ofFunc f) d ↔ d = ofFunc f) ∧
    (∃ n, ∀ k, n ≤ k → settle (rows (.ofFunc f)) k (start (FlowGraph.ofFunc f).reversePostOrder) = ofFunc f) ∧
    (ofFunc f).sweep (rows (.ofFunc f)) = (ofFunc f, false) ∧
    (∀ b limit, (ofFunc f).isReachable b = true →
      (ofFunc f).Climbs limit b ((ofFunc f).climb limit b)) ∧
    (∀ a b, (ofFunc f).dominates a b = true ↔ (FlowGraph.ofFunc f).Dominates a b) ∧
    ∀ b, (FlowGraph.ofFunc f).Reachable b → f.entry? ≠ some b →
      ∃ c, (ofFunc f).idom? b = some c ∧ c ≠ b ∧ (FlowGraph.ofFunc f).Dominates c b ∧
        ∀ x, x ≠ b → (FlowGraph.ofFunc f).Dominates x b → (FlowGraph.ofFunc f).Dominates x c := by
  obtain ⟨hcomputes, h⟩ := computes_ofGraph (FlowGraph.coherent_ofFunc f)
  have hentry : FlowGraph.entry? (.ofFunc f) = f.entry? :=
    congrArg List.head? (FlowGraph.blocks_ofFunc f)
  refine ⟨fun d => ⟨fun hd => hd.eq hcomputes, fun hd => hd ▸ hcomputes⟩,
    ⟨enough (.ofFunc f), fun k hk => ?_⟩, h.still, fun b limit hb => h.climbs limit (has_iff.mpr hb),
    fun a b => h.dominates_iff, fun b hr hb => ?_⟩
  · obtain ⟨j, rfl⟩ := Nat.exists_eq_add_of_le hk
    exact settle_add j _ _ h.still
  · exact h.idom?_spec hr (hentry ▸ hb)

/-- Two blocks that branch to each other and are both entered from the first one, and an
unreachable block that branches to one of them. -/
def crossed : Func :=
  { name := "crossed", params := #[], ret := 0
    blocks := #[⟨"entry", [0], false⟩, ⟨"left", [1], false⟩, ⟨"right", [2], false⟩, ⟨"dead", [3], false⟩]
    insts := #[⟨.condBr (.const 0) 1 2, 0, none, some 0⟩, ⟨.br 2, 0, none, some 1⟩,
      ⟨.br 1, 0, none, some 2⟩, ⟨.br 2, 0, none, some 3⟩]
    constants := #[⟨0, .bool true⟩], layout := [0, 1, 2, 3] }

theorem reachable_crossed : (FlowGraph.ofFunc crossed).Reachable 2 :=
  FlowGraph.mem_reversePostOrder.mp (by decide +kernel)

/-- Neither of the two blocks dominates the other. -/
theorem exact_ofFunc_crossed :
    ((FlowGraph.ofFunc crossed).Reachable 2 ∧ crossed.entry? ≠ some 2) ∧
      ¬ (FlowGraph.ofFunc crossed).Dominates 1 2 ∧
      ∃ c, (ofFunc crossed).idom? 2 = some c ∧ c ≠ 2 ∧ (FlowGraph.ofFunc crossed).Dominates c 2 ∧
        ∀ x, x ≠ 2 → (FlowGraph.ofFunc crossed).Dominates x 2 →
          (FlowGraph.ofFunc crossed).Dominates x c := by
  obtain ⟨_, _, _, _, hdom, hidom⟩ := exact_ofFunc crossed
  refine ⟨⟨reachable_crossed, by decide⟩, ?_, hidom 2 reachable_crossed (by decide)⟩
  rw [← hdom]
  decide +kernel

end DomTree

end LoopNest
