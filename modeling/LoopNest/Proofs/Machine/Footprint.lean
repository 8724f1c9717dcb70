import LoopNest.Proofs.Machine.Compute
import Mathlib

/-!
# The bytes of an access

A load or a store moves runs of bytes from its place on: one for a scalar, and one for each lane of
a vector.  `Inst.runs` are the lengths of these runs.  A run that leaves its region stops the
access, so the bytes that it moves are those of the runs before (`RunsCover`).

A store changes no other bytes, also when it fails (`Frame.byteAt_compute`), and a load depends on
no others (`Memory.load_congr_runs`).
-/

namespace LoopNest

variable {rs rs' : Array Region} {q : Pointer} {n r o : Nat} {ns : List Nat}

/-! ## Runs of bytes -/

/-- Some runs of bytes, one after the other from a place on, cover a byte.  The first one that
leaves its region ends them. -/
def RunsCover (rs : Array Region) : Pointer → List Nat → Nat → Nat → Prop
  | _, [], _, _ => False
  | q, n :: ns, r, o => InBounds rs q n ∧
      ((q.region = r ∧ q.start ≤ o ∧ o < q.start + n) ∨
        RunsCover rs (q.advance (Int64.ofNat n)) ns r o)

instance RunsCover.decidable (rs : Array Region) (r o : Nat) :
    ∀ (ns : List Nat) (q : Pointer), Decidable (RunsCover rs q ns r o)
  | [], _ => inferInstanceAs (Decidable False)
  | _ :: ns, _ =>
    have := RunsCover.decidable rs r o ns
    inferInstanceAs (Decidable (_ ∧ (_ ∨ _)))

theorem SameExtents.runsCover (h : SameExtents rs rs') :
    ∀ (ns : List Nat) (q : Pointer), RunsCover rs q ns r o ↔ RunsCover rs' q ns r o
  | [], _ => .rfl
  | _ :: ns, _ => and_congr h.inBounds (or_congr .rfl (h.runsCover ns _))

theorem RunsCover.region_eq : ∀ {ns : List Nat} {q : Pointer}, RunsCover rs q ns r o → q.region = r
  | _ :: _, _, ⟨_, .inl h⟩ => h.1
  | _ :: _, _, ⟨_, .inr h⟩ => h.region_eq

theorem Pointer.offset_eq_start (h : InBounds rs q n) : q.offset = Int64.ofNat q.start := by
  have hstart : ((q.start : Nat) : Int) = q.offset.toInt := Int.toNat_of_nonneg h.1
  rw [← Int64.ofInt_eq_ofNat, hstart, Int64.ofInt_toInt]

/-- A covered byte is less than the length of all runs away from the place. -/
theorem RunsCover.offset_eq : ∀ {ns : List Nat} {q : Pointer}, RunsCover rs q ns r o →
    ∃ k < ns.sum, Int64.ofNat o = q.offset + Int64.ofNat k
  | n :: ns, q, ⟨hin, .inl ⟨_, hle, hlt⟩⟩ => by
    refine ⟨o - q.start, by rw [List.sum_cons]; omega, ?_⟩
    rw [Pointer.offset_eq_start hin, ← Int64.ofNat_add, Nat.add_sub_cancel' hle]
  | n :: ns, q, ⟨_, .inr h⟩ => by
    obtain ⟨k, hk, heq⟩ := h.offset_eq
    refine ⟨n + k, by rw [List.sum_cons]; omega, ?_⟩
    rw [heq, Int64.ofNat_add, ← Int64.add_assoc]
    rfl

/-! ## What is loaded and stored -/

/-- The runs of a load. -/
def loadRuns (tt : TypeTable) (t : TyId) : List Nat :=
  match tt.shape t with
  | .scalar s => [s.width]
  | .vector lanes s => List.replicate lanes s.width
  | _ => []

/-- The runs of a store of lanes, which a lane without bytes ends. -/
def laneRuns : List Datum → List Nat
  | [] => []
  | d :: ds =>
    match Memory.bytesOf? d with
    | some bytes => bytes.length :: laneRuns ds
    | none => []

/-- The runs of a store. -/
def storeRuns (tt : TypeTable) (t : TyId) (d : Datum) : List Nat :=
  match d with
  | .int _ => ((tt.elementScalar? t).map Scalar.width).toList
  | .vector lanes => laneRuns lanes
  | d => ((Memory.bytesOf? d).map List.length).toList

/-- The runs of an access, none for other instructions. -/
def Inst.runs (tt : TypeTable) (value : Operand → Option Datum) (tyOf : Operand → TyId) (x : Inst) :
    List Nat :=
  match x.op with
  | .load _ => loadRuns tt x.ty
  | .store v _ => ((value v).map (storeRuns tt (tyOf v))).getD []
  | _ => []

/-! ## Stores -/

theorem Memory.byteAt_writeAt {m : Memory} {bytes : List UInt8}
    (hin : InBounds m.regions q bytes.length)
    (h : ¬ (q.region = r ∧ q.start ≤ o ∧ o < q.start + bytes.length)) :
    byteAt (m.writeAt q.region q.start bytes).regions r o = byteAt m.regions r o := by
  rw [regions_writeAt, byteAt_writeChunk (c := ⟨q, bytes⟩) hin]
  exact if_neg h

/-- Writing one run changes the bytes of the run. -/
theorem Access.byteAt_writeBytes {bytes : List UInt8} {m : Memory}
    (h : ¬ RunsCover m.regions q [bytes.length] r o) :
    byteAt (Access.writeBytes q bytes m).2.regions r o = byteAt m.regions r o := by
  unfold Access.writeBytes
  split
  · next s hs =>
    obtain ⟨hin, rfl⟩ := Memory.start_eq_ok.mp hs
    exact Memory.byteAt_writeAt hin fun hc => h ⟨hin, .inl hc⟩
  · rfl

theorem Memory.byteAt_storeLanes : ∀ (ds : List Datum) {q : Pointer} {m : Memory},
    ¬ RunsCover m.regions q (laneRuns ds) r o →
    byteAt (Memory.storeLanes q ds m).2.regions r o = byteAt m.regions r o
  | [], _, _, _ => rfl
  | d :: ds, q, m, h => by
    unfold laneRuns at h
    unfold Memory.storeLanes
    cases hbytes : bytesOf? d with
    | none => rfl
    | some bytes =>
      rw [hbytes] at h
      dsimp only at h ⊢
      rw [Access.bind_eq]
      unfold Access.writeBytes
      cases hs : m.start q bytes.length with
      | error e => rfl
      | ok s =>
        obtain ⟨hin, rfl⟩ := Memory.start_eq_ok.mp hs
        refine (byteAt_storeLanes ds fun hc => h ⟨hin, .inr ?_⟩).trans
          (byteAt_writeAt hin fun hc => h ⟨hin, .inl hc⟩)
        exact ((sameExtents_writeChunk m.regions ⟨q, bytes⟩).runsCover _ _).mpr hc

/-- What comes after an action without an effect on memory keeps its memory. -/
theorem Access.snd_bind_pure {α β : Type} (x : Access α) (b : β) (m : Memory) :
    ((do let _ ← x; return b : Access β) m).2 = (x m).2 := by
  rw [Access.bind_eq]
  split <;> simp_all [pure, ExceptT.pure, ExceptT.mk, StateT.pure]

theorem Memory.byteAt_storeDatum {tt : TypeTable} {t : TyId} {d : Datum} (hd : ∀ n, d ≠ .int n)
    {m : Memory} (h : ¬ RunsCover m.regions q (storeRuns tt t d) r o) :
    byteAt (Memory.storeDatum q d m).2.regions r o = byteAt m.regions r o := by
  cases d with
  | vector lanes => exact byteAt_storeLanes lanes h
  | int n => exact absurd rfl (hd n)
  | bool b => exact Access.byteAt_writeBytes h
  | f32 x => exact Access.byteAt_writeBytes h
  | ptr _ => rfl
  | void => rfl

/-- A store changes the bytes of its runs at most. -/
theorem byteAt_storeAccess {tt : TypeTable} {t : TyId} {d : Datum} {m : Memory}
    (h : ¬ RunsCover m.regions q (storeRuns tt t d) r o) :
    byteAt (storeAccess tt t d q m).2.regions r o = byteAt m.regions r o := by
  unfold storeAccess
  split
  · next n =>
    rw [Access.bind_eq]
    unfold storeRuns at h
    unfold Frame.scalarOf
    cases hs : tt.elementScalar? t with
    | none => rfl
    | some s =>
      rw [hs] at h
      dsimp only [Access.ofExcept]
      rw [Access.snd_bind_pure]
      exact Access.byteAt_writeBytes (by rwa [length_littleEndian])
  · next hd =>
    rw [Access.snd_bind_pure]
    exact Memory.byteAt_storeDatum hd h

/-- A store through a pointer changes the bytes of its runs at most, also when it fails. -/
theorem Frame.byteAt_compute {tt : TypeTable} {fr : Frame} {x : Inst} {v ptr : Operand}
    (hop : x.op = .store v ptr) (hq : fr.value tt ptr = some (.ptr q)) {m : Memory}
    (h : ¬ RunsCover m.regions q (x.runs tt (fr.value tt) fr.func.tyOf) r o) :
    byteAt (fr.compute tt x m).2.regions r o = byteAt m.regions r o := by
  unfold Inst.runs at h
  simp only [Frame.compute, hop, Frame.eval_eq_ok.mpr hq, Access.ofExcept, Access.bind_eq,
    Datum.asPtr] at h ⊢
  cases hd : fr.eval tt v with
  | error e => rfl
  | ok d =>
    rw [Frame.eval_eq_ok.mp hd] at h
    exact byteAt_storeAccess (m := { m with stores := m.stores + 1 }) h

/-! ## Loads -/

theorem Memory.loadLanes_congr_runs {m m' : Memory} {s : Scalar}
    (hext : SameExtents m.regions m'.regions) : ∀ (lanes : Nat) {q : Pointer} {ds : List Datum},
    (∀ r o, RunsCover m.regions q (List.replicate lanes s.width) r o →
      byteAt m.regions r o = byteAt m'.regions r o) →
    m.loadLanes s lanes q = .ok ds → m'.loadLanes s lanes q = .ok ds
  | 0, _, _, _, hd => hd
  | lanes + 1, q, ds, h, hd => by
    unfold Memory.loadLanes at hd ⊢
    obtain ⟨d, hscalar, hd⟩ := bind_eq_ok_iff.mp hd
    obtain ⟨rest, hrest, hd⟩ := bind_eq_ok_iff.mp hd
    have hin := inBounds_of_loadScalar hscalar
    refine bind_eq_ok_iff.mpr ⟨d, loadScalar_congr hext (fun o hle hlt => ?_) hscalar,
      bind_eq_ok_iff.mpr ⟨rest, loadLanes_congr_runs hext lanes (fun r o hc => ?_) hrest, hd⟩⟩
    · exact h _ o ⟨hin, .inl ⟨rfl, hle, hlt⟩⟩
    · exact h r o ⟨hin, .inr hc⟩

/-- A load that succeeds depends on the bytes of its runs only. -/
theorem Memory.load_congr_runs {m m' : Memory} {tt : TypeTable} {t : TyId}
    (hext : SameExtents m.regions m'.regions)
    (h : ∀ r o, RunsCover m.regions q (loadRuns tt t) r o →
      byteAt m.regions r o = byteAt m'.regions r o) {d : Datum} (hd : m.load tt q t = .ok d) :
    m'.load tt q t = .ok d := by
  unfold Memory.load at hd ⊢
  unfold loadRuns at h
  split at hd
  · next s hshape =>
    rw [hshape] at h
    have hin := inBounds_of_loadScalar hd
    exact loadScalar_congr hext (fun o hle hlt => h _ o ⟨hin, .inl ⟨rfl, hle, hlt⟩⟩) hd
  · next lanes s hshape =>
    rw [hshape] at h
    obtain ⟨ds, hlanes, hd⟩ := bind_eq_ok_iff.mp hd
    exact bind_eq_ok_iff.mpr ⟨ds, loadLanes_congr_runs hext lanes h hlanes, hd⟩
  · cases hd

end LoopNest
