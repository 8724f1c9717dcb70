import LoopNest.Dominance
import Mathlib.Logic.Basic
import Mathlib.Tactic.ByContra

/-!
# Paths in flow graphs

`Path` lists the blocks of a path.  Most arguments about loops only need to know which
blocks a path stays clear of, so `Via` forgets the list and keeps a condition that all
blocks of the path meet.

A path that goes through a block can be cut there, either at the first visit
(`Path.first`) or at the last one (`Path.last`).  Dominance by paths is a partial order
on the reachable blocks (`Dominates.antisymm`, `Dominates.trans`), and two dominators of
one reachable block are comparable (`Dominates.total`).
-/

namespace LoopNest

namespace FlowGraph

variable {g : FlowGraph} {a b c : BlockId} {trail : List BlockId}

/-! ## Ends of paths -/

theorem Path.mem_start (h : g.Path a b trail) : a ∈ trail := by
  cases h with
  | here _ => exact List.mem_singleton.mpr rfl
  | step _ _ => exact List.mem_cons_self

theorem Path.mem_end (h : g.Path a b trail) : b ∈ trail := by
  induction h with
  | here _ => exact List.mem_singleton.mpr rfl
  | step _ _ ih => exact List.mem_cons_of_mem _ ih

/-- All blocks of a path are live. -/
theorem Path.live (h : g.Path a b trail) : ∀ x ∈ trail, x ∈ g.blocks := by
  induction h with
  | here ha =>
    intro x hx
    rw [List.mem_singleton.mp hx]
    exact ha
  | step he _ ih =>
    intro x hx
    rcases List.mem_cons.mp hx with rfl | hx
    · exact he.1
    · exact ih x hx

/-! ## Paths under a condition -/

/-- There is a path from `a` to `b` whose blocks, both ends included, all meet a condition. -/
def Via (g : FlowGraph) (ok : BlockId → Prop) (a b : BlockId) : Prop :=
  ∃ trail, g.Path a b trail ∧ ∀ x ∈ trail, ok x

variable {ok : BlockId → Prop}

theorem Via.refl (ha : a ∈ g.blocks) (h : ok a) : g.Via ok a a :=
  ⟨[a], .here ha, fun x hx => by rw [List.mem_singleton.mp hx]; exact h⟩

theorem Via.cons (he : g.Edge a b) (ha : ok a) (h : g.Via ok b c) : g.Via ok a c := by
  obtain ⟨trail, hp, hok⟩ := h
  refine ⟨a :: trail, .step he hp, fun x hx => ?_⟩
  rcases List.mem_cons.mp hx with rfl | hx
  · exact ha
  · exact hok x hx

theorem Via.mono {ok' : BlockId → Prop} (hm : ∀ x, ok x → ok' x) (h : g.Via ok a b) :
    g.Via ok' a b := by
  obtain ⟨trail, hp, hok⟩ := h
  exact ⟨trail, hp, fun x hx => hm x (hok x hx)⟩

theorem Via.start (h : g.Via ok a b) : ok a := by
  obtain ⟨trail, hp, hok⟩ := h
  exact hok a hp.mem_start

theorem Via.stop (h : g.Via ok a b) : ok b := by
  obtain ⟨trail, hp, hok⟩ := h
  exact hok b hp.mem_end

theorem Via.live_start (h : g.Via ok a b) : a ∈ g.blocks := by
  obtain ⟨trail, hp, _⟩ := h
  exact hp.live a hp.mem_start

theorem Via.live_stop (h : g.Via ok a b) : b ∈ g.blocks := by
  obtain ⟨trail, hp, _⟩ := h
  exact hp.live b hp.mem_end

/-- A statement that is carried backwards over edges holds at the start of a path if it
holds at its end. -/
theorem Via.rec_back {motive : BlockId → Prop} (h : g.Via ok a b) (hb : motive b)
    (hs : ∀ x y, g.Edge x y → ok x → ok y → motive y → motive x) : motive a := by
  obtain ⟨trail, hp, hok⟩ := h
  induction hp with
  | here _ => exact hb
  | step he hp ih =>
    refine hs _ _ he (hok _ List.mem_cons_self) (hok _ (List.mem_cons_of_mem _ hp.mem_start)) ?_
    exact ih hb fun x hx => hok x (List.mem_cons_of_mem _ hx)

/-- A statement that is carried over edges holds at the end of a path if it holds at its
start. -/
theorem Via.rec_on {motive : BlockId → Prop} (h : g.Via ok a b) (ha : motive a)
    (hs : ∀ x y, g.Edge x y → ok x → ok y → motive x → motive y) : motive b := by
  obtain ⟨trail, hp, hok⟩ := h
  induction hp with
  | here _ => exact ha
  | step he hp ih =>
    refine ih ?_ fun x hx => hok x (List.mem_cons_of_mem _ hx)
    exact hs _ _ he (hok _ List.mem_cons_self) (hok _ (List.mem_cons_of_mem _ hp.mem_start)) ha

theorem Via.trans (h₁ : g.Via ok a b) (h₂ : g.Via ok b c) : g.Via ok a c :=
  h₁.rec_back (motive := fun x => g.Via ok x c) h₂ fun _ _ he hx _ h => .cons he hx h

theorem Via.snoc (h : g.Via ok a b) (he : g.Edge b c) (hc : ok c) : g.Via ok a c :=
  h.trans (.cons he h.stop (.refl he.2.1 hc))

/-! ## Cutting a path -/

/-- A block on a path has a path of its own, shorter unless the block is the last one. -/
theorem Path.exists_prefix {x : BlockId} (h : g.Path a b trail) (hx : x ∈ trail) :
    ∃ t, g.Path a x t ∧ (x ≠ b → t.length < trail.length) := by
  induction h with
  | here ha =>
    obtain rfl := List.mem_singleton.mp hx
    exact ⟨[x], .here ha, fun h => absurd rfl h⟩
  | @step a b c trail he hp ih =>
    rcases List.mem_cons.mp hx with rfl | hx
    · exact ⟨[x], .here he.1, fun _ => by simpa using List.length_pos_of_mem hp.mem_start⟩
    · obtain ⟨t, ht, hlt⟩ := ih hx
      refine ⟨a :: t, .step he ht, fun hne => ?_⟩
      simpa using hlt hne

/-- A path that visits `x` starts there, or reaches it by an edge after blocks other than `x`. -/
theorem Path.first {x : BlockId} (h : g.Path a b trail) (hx : x ∈ trail) :
    a = x ∨ ∃ c, g.Via (fun y => y ≠ x ∧ y ∈ trail) a c ∧ g.Edge c x := by
  induction h with
  | here _ => exact .inl (List.mem_singleton.mp hx).symm
  | @step a b' _ trail he hp ih =>
    by_cases hax : a = x
    · exact .inl hax
    · right
      have hx' : x ∈ trail := by
        rcases List.mem_cons.mp hx with rfl | hx
        · exact absurd rfl hax
        · exact hx
      have hok : a ≠ x ∧ a ∈ a :: trail := ⟨hax, List.mem_cons_self⟩
      rcases ih hx' with rfl | ⟨c, hv, hc⟩
      · exact ⟨a, .refl he.1 hok, he⟩
      · refine ⟨c, .cons he hok (hv.mono ?_), hc⟩
        exact fun y hy => ⟨hy.1, List.mem_cons_of_mem _ hy.2⟩

/-- A path that visits `x` ends there, or leaves it by an edge to blocks other than `x`. -/
theorem Path.last {x : BlockId} (h : g.Path a b trail) (hx : x ∈ trail) :
    x = b ∨ ∃ c, g.Edge x c ∧ g.Via (fun y => y ≠ x ∧ y ∈ trail) c b := by
  induction h with
  | here _ => exact .inl (List.mem_singleton.mp hx)
  | @step a b' _ trail he hp ih =>
    by_cases hx' : x ∈ trail
    · rcases ih hx' with hb | ⟨c, hc, hv⟩
      · exact .inl hb
      · exact .inr ⟨c, hc, hv.mono fun y hy => ⟨hy.1, List.mem_cons_of_mem _ hy.2⟩⟩
    · right
      have hax : x = a := by
        rcases List.mem_cons.mp hx with h | h
        · exact h
        · exact absurd h hx'
      subst hax
      refine ⟨b', he, trail, hp, fun y hy => ⟨?_, List.mem_cons_of_mem _ hy⟩⟩
      rintro rfl
      exact hx' hy

/-- A path between two blocks goes through `x` or stays clear of it. -/
theorem Path.via_ne (h : g.Path a b trail) (x : BlockId) :
    x ∈ trail ∨ g.Via (· ≠ x) a b := by
  by_cases hx : x ∈ trail
  · exact .inl hx
  · refine .inr ⟨trail, h, fun y hy => ?_⟩
    rintro rfl
    exact hx hy

/-! ## Reachability and dominance -/

/-- A block that a path leads to from the entry. -/
def Reachable (g : FlowGraph) (b : BlockId) : Prop :=
  ∃ e, g.entry? = some e ∧ g.Via (fun _ => True) e b

theorem Reachable.live (h : g.Reachable b) : b ∈ g.blocks := by
  obtain ⟨e, _, hv⟩ := h
  exact hv.live_stop

theorem Reachable.edge (h : g.Reachable a) (he : g.Edge a b) : g.Reachable b := by
  obtain ⟨e, hent, hv⟩ := h
  exact ⟨e, hent, hv.snoc he trivial⟩

theorem Reachable.via (h : g.Reachable a) (hv : g.Via ok a b) : g.Reachable b :=
  hv.rec_on h fun _ _ he _ _ hx => hx.edge he

/-- Dominance fails exactly when some path from the entry stays clear of the block. -/
theorem not_dominates_iff :
    ¬ g.Dominates a b ↔ ∃ e, g.entry? = some e ∧ g.Via (· ≠ a) e b := by
  constructor
  · intro h
    simp only [Dominates, not_forall] at h
    obtain ⟨e, trail, he, hp, hn⟩ := h
    exact ⟨e, he, (hp.via_ne a).resolve_left hn⟩
  · rintro ⟨e, he, trail, hp, hok⟩ hd
    exact hok a (hd e trail he hp) rfl

theorem Dominates.refl : g.Dominates a a := fun _ _ _ hp => hp.mem_end

/-- A dominator of a reachable block is reachable. -/
theorem Dominates.reachable (h : g.Dominates a b) (hb : g.Reachable b) : g.Reachable a := by
  obtain ⟨e, he, trail, hp, _⟩ := hb
  have ha := h e trail he hp
  rcases hp.first ha with rfl | ⟨c, hv, hc⟩
  · exact ⟨e, he, .refl (hp.live e ha) trivial⟩
  · exact ⟨e, he, (hv.mono fun _ _ => trivial).snoc hc trivial⟩

/-- A path from a dominator to a block that avoids the dominator after its start can be
continued, so dominance passes to blocks that are entered around the dominator. -/
theorem Dominates.of_edge (h : g.Dominates a c) (he : g.Edge b c) (hac : a ≠ c) :
    g.Dominates a b := by
  by_contra hn
  obtain ⟨e, hent, hv⟩ := not_dominates_iff.mp hn
  exact not_dominates_iff.mpr ⟨e, hent, hv.snoc he (Ne.symm hac)⟩ h

theorem Dominates.of_via {x : BlockId} (h : g.Dominates a c)
    (hv : g.Via (· ≠ a) x c) : g.Dominates a x :=
  hv.rec_back h fun _ _ he _ hy hd => hd.of_edge he (Ne.symm hy)

/-- What dominates all predecessors of a block other than the entry dominates the block. -/
theorem Dominates.of_edges (hent : g.entry? ≠ some b) (h : ∀ c, g.Edge c b → g.Dominates a c) :
    g.Dominates a b := by
  intro e trail he hp
  rcases hp.first hp.mem_end with rfl | ⟨c, ⟨trail', hp', hok⟩, hc⟩
  · exact absurd he hent
  · exact (hok a (h c hc e trail' he hp')).2

/-- The only predecessor of a block dominates it. -/
theorem dominates_of_pred (hent : g.entry? ≠ some b) (hpred : ∀ x, g.Edge x b → x = a) :
    g.Dominates a b :=
  .of_edges hent fun x hx => by
    rw [hpred x hx]
    exact .refl

theorem Dominates.antisymm (hab : g.Dominates a b) (hba : g.Dominates b a)
    (hr : g.Reachable b) : a = b := by
  by_contra hne
  obtain ⟨e, he, trail, hp, _⟩ := hr
  -- Up to its first visit of `a` the path has not met `b`, although `b` dominates `a`.
  rcases hp.first (hab e trail he hp) with rfl | ⟨c, hv, hc⟩
  · have hmem := hba e [e] he (.here (hp.live e hp.mem_start))
    exact hne (List.mem_singleton.mp hmem).symm
  · obtain ⟨t, ht, hok⟩ := hv
    by_cases hb : b ∈ t
    · rcases ht.first hb with rfl | ⟨d, hd, hdb⟩
      · have := hab e [e] he (.here (ht.live e hb))
        exact hne (List.mem_singleton.mp this)
      · refine not_dominates_iff.mpr ⟨e, he, ?_⟩ hab
        exact (hd.mono fun y hy => (hok y hy.2).1).snoc hdb (Ne.symm hne)
    · refine not_dominates_iff.mpr ⟨e, he, ?_⟩ hba
      refine Via.snoc ⟨t, ht, fun y hy => ?_⟩ hc hne
      rintro rfl
      exact hb hy

theorem Dominates.trans (hab : g.Dominates a b) (hbc : g.Dominates b c) : g.Dominates a c := by
  intro e trail he hp
  have hb := hbc e trail he hp
  rcases hp.first hb with rfl | ⟨d, hv, hd⟩
  · have := hab e [e] he (.here (hp.live e hb))
    rw [List.mem_singleton.mp this]
    exact hb
  · obtain ⟨t, ht, hok⟩ := hv
    by_contra hn
    refine not_dominates_iff.mpr ⟨e, he, ?_⟩ hab
    refine Via.snoc ⟨t, ht, fun y hy => ?_⟩ hd ?_
    · rintro rfl
      exact hn (hok y hy).2
    · rintro rfl
      exact hn hb

/-- Of two dominators of a reachable block, one dominates the other. -/
theorem Dominates.total (hac : g.Dominates a c) (hbc : g.Dominates b c)
    (hr : g.Reachable c) : g.Dominates a b ∨ g.Dominates b a := by
  by_contra hn
  rw [not_or] at hn
  obtain ⟨hnab, hnba⟩ := hn
  have hne : a ≠ b := by
    rintro rfl
    exact hnab .refl
  obtain ⟨e, he, trail, hp, _⟩ := hr
  obtain ⟨e₁, he₁, hv₁⟩ := not_dominates_iff.mp hnab
  obtain ⟨e₂, he₂, hv₂⟩ := not_dominates_iff.mp hnba
  -- The rest of the path after its last visit of `a` either meets `b`, and then leads from
  -- `b` to `c` around `a`, or leads from `a` to `c` around `b`.
  rcases hp.last (hac e trail he hp) with rfl | ⟨d, hd, t, ht, hok⟩
  · exact hnba hbc
  · by_cases hb : b ∈ t
    · have hv : g.Via (· ≠ a) b c := by
        rcases ht.last hb with rfl | ⟨d', hd', hv'⟩
        · exact .refl (ht.live b hb) (Ne.symm hne)
        · exact .cons hd' (Ne.symm hne) (hv'.mono fun y hy => (hok y hy.2).1)
      exact not_dominates_iff.mpr ⟨e₁, he₁, hv₁.trans hv⟩ hac
    · have hv : g.Via (· ≠ b) a c := by
        refine .cons hd hne ⟨t, ht, fun y hy => ?_⟩
        rintro rfl
        exact hb hy
      exact not_dominates_iff.mpr ⟨e₂, he₂, hv₂.trans hv⟩ hbc

end FlowGraph

end LoopNest
