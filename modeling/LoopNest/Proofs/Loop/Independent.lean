import LoopNest.Proofs.Loop.Laps
import LoopNest.Proofs.Machine.Footprint

/-!
# Independent accesses

Accesses that do not conflict have disjoint roots, or go by the same index from the same root
(`MemAccess.root_or_index`).  With disjoint roots they never meet.  With the same index they are
disjoint at any two moments at which the index is worth something else, under three conditions that
are not looked at: both pointers step over elements of the same size, neither access moves more than
one element, and the two elements are less than `2 ^ 63` bytes apart
(`Machine.disjoint_of_not_mayConflict`).

`Machine.overlapping_independent` is a loop without the first: one pointer is cast to a pointer to
smaller elements.
-/

namespace LoopNest

/-! ## Multiples of a size -/

/-- Two bytes of elements of the same size, counted from the same place, are different if the
elements are. -/
theorem eq_of_element {q x y : Int64} {size j k : Nat} (hj : j < size) (hk : k < size)
    (hd : (x.toInt - y.toInt).natAbs * size < 2 ^ 63)
    (h : q + x * Int64.ofNat size + Int64.ofNat j = q + y * Int64.ofNat size + Int64.ofNat k) :
    x = y := by
  have hsum (z : Int64) (i : Nat) :
      z * Int64.ofNat size + Int64.ofNat i = Int64.ofInt (z.toInt * size + i) := by
    rw [Int64.ofInt_add, Int64.ofInt_mul, Int64.ofInt_toInt, Int64.ofInt_eq_ofNat,
      Int64.ofInt_eq_ofNat]
  have heq : Int64.ofInt (x.toInt * size + j) = Int64.ofInt (y.toInt * size + k) := by
    rw [← hsum, ← hsum]
    grind
  have habs : (x.toInt * size - y.toInt * size).natAbs = (x.toInt - y.toInt).natAbs * size := by
    rw [← Int.sub_mul, Int.natAbs_mul, Int.natAbs_natCast]
  -- Both sides are less than the range of the numbers apart, so they are equal as integers.
  obtain ⟨e, he⟩ : (18446744073709551616 : Int) ∣ x.toInt * size + j - (y.toInt * size + k) := by
    have := congrArg Int64.toInt heq
    rw [Int64.toInt_ofInt, Int64.toInt_ofInt] at this
    exact Int.dvd_of_bmod_eq_zero (Int.bmod_eq_bmod_iff_bmod_sub_eq_zero.mp this)
  by_contra hne
  have hpos : 0 < (x.toInt - y.toInt).natAbs :=
    Int.natAbs_pos.mpr (sub_ne_zero.mpr fun hxy => hne (Int64.toInt_inj.mp hxy))
  have hsize : size ≤ (x.toInt - y.toInt).natAbs * size := Nat.le_mul_of_pos_left size hpos
  obtain rfl : e = 0 := by omega
  omega

namespace MemAccess

variable {f : Func} {bs : List BlockId} {a b : MemAccess} {ptr : Operand}

theorem ofInst?_inst {i : InstId} (h : ofInst? f i = some a) : a.inst = i := by
  unfold ofInst? at h
  split at h <;> cases h <;> rfl

theorem ofInst?_of_mem (h : a ∈ ofBlocks f bs) : ofInst? f a.inst = some a := by
  obtain ⟨i, _, hi⟩ := List.mem_filterMap.mp h
  rwa [ofInst?_inst hi]

/-- The place of a load or store is that of its pointer. -/
theorem place_eq (h : a ∈ ofBlocks f bs) (hptr : (f.op a.inst).pointer? = some ptr) :
    a.place = f.place ptr := by
  have hi := ofInst?_of_mem h
  unfold ofInst? at hi
  split at hi
  · next hop =>
    rw [hop] at hptr
    cases hptr
    exact (congrArg place (Option.some.inj hi)).symm
  · next hop =>
    rw [hop] at hptr
    cases hptr
    exact (congrArg place (Option.some.inj hi)).symm
  · next hop =>
    rw [hop] at hptr
    cases hptr
  · cases hi

/-- If one of them writes, accesses without a conflict have disjoint roots, or the same root and the
same index. -/
theorem root_or_index (h : a.mayConflict b = false) (hw : (a.kind.writes || b.kind.writes) = true) :
    a.place.root.mayAlias b.place.root = false ∨
      a.place.root = b.place.root ∧ a.place.root ≠ .unknown ∧
        ∃ y, a.place.offset = .index y ∧ b.place.offset = .index y := by
  cases halias : a.place.root.mayAlias b.place.root with
  | false => exact .inl rfl
  | true =>
    unfold mayConflict at h
    rw [hw, halias, Bool.and_self, Bool.true_and] at h
    split at h
    · rename_i x y hx hy
      simp only [Bool.or_eq_false_iff, bne_eq_false_iff_eq, beq_eq_false_iff_ne] at h
      exact .inr ⟨h.1.1.2, h.1.2, x, hx, h.1.1.1 ▸ hy⟩
    · cases h

end MemAccess

/-- The size of the elements that a pointer steps over. -/
def Func.elementSize (f : Func) (tt : TypeTable) (ptr : Operand) : Nat :=
  ((tt.pointee? (f.tyOf ptr)).map tt.paddedSize).getD 0

theorem Func.elementSize_eq {f : Func} {tt : TypeTable} {ptr : Operand} {e : TyId}
    (h : tt.pointee? (f.tyOf ptr) = some e) : f.elementSize tt ptr = tt.paddedSize e := by
  unfold elementSize
  rw [h]
  rfl

namespace Machine

variable {p : Program} {limit : Nat} {cs : List Caller} {f : Func} {args : List Datum}
  {s t t' : State}

/-! ## Roots -/

/-- At two moments the same root is the same place, or lies in different regions. -/
theorem RootAt.eq_or_region_ne {root : MemRoot} {r r' : Pointer}
    (h : RootAt p limit args cs s t root r) (h' : RootAt p limit args cs s t' root r')
    (hne : root ≠ .unknown) : r = r' ∨ r.region ≠ r'.region := by
  cases root with
  | param k _ => exact .inl (Datum.ptr.inj (Option.some.inj (h.symm.trans h')))
  | alloca i =>
    obtain ⟨u, _, _, _, rfl, _⟩ := h
    obtain ⟨u', _, _, _, rfl, _⟩ := h'
    by_cases heq : u.memory.regions.size = u'.memory.regions.size
    · exact .inl (by rw [heq])
    · exact .inr heq
  | unknown => exact absurd rfl hne

/-! ## Bytes -/

/-- The lengths of the runs of bytes that an instruction moves when a state executes it. -/
def runsAt (p : Program) (t : State) (i : InstId) : List Nat :=
  (t.frame.func.inst i).runs p.types (t.frame.value p.types) t.frame.func.tyOf

/-- A state that executes an access through a pointer touches a byte. -/
def Touches (p : Program) (t : State) (i : InstId) (q : Pointer) (r o : Nat) : Prop :=
  RunsCover t.memory.regions q (runsAt p t i) r o

instance (p : Program) (t : State) (i : InstId) (q : Pointer) (r o : Nat) :
    Decidable (Touches p t i q r o) := inferInstanceAs (Decidable (RunsCover _ _ _ _ _))

/-- Two accesses by an index move at most one element each, of the same size, and the elements are
not so far apart that their distance wraps around. -/
structure ByElements (p : Program) (f : Func) (y : Operand) (t : State) (i : InstId) (ptr : Operand)
    (t' : State) (i' : InstId) (ptr' : Operand) : Prop where
  size_eq : f.elementSize p.types ptr = f.elementSize p.types ptr'
  le_size : (runsAt p t i).sum ≤ f.elementSize p.types ptr
  le_size' : (runsAt p t' i').sum ≤ f.elementSize p.types ptr'
  near : ∀ x x', t.frame.value p.types y = some (.int x) →
    t'.frame.value p.types y = some (.int x') →
    (x.toInt - x'.toInt).natAbs * f.elementSize p.types ptr < 2 ^ 63

/-- Two accesses of an activation that are reported independent, one of which writes, touch disjoint
bytes.  If they go by the same index, this is for two moments at which the index is worth something
else, as in different iterations of a loop in which it never repeats, and for accesses by elements.
The function is one that the verifier accepts and that lists its instructions properly, and its
caller keeps its promises about pointers. -/
theorem disjoint_of_not_mayConflict (hv : f.verify p.types = .ok ()) (ho : f.ListedOnce)
    (hl : f.UsesListed) {bs : List BlockId} {a b : MemAccess} (ha : a ∈ MemAccess.ofBlocks f bs)
    (hb : b ∈ MemAccess.ofBlocks f bs) (hw : (a.kind.writes || b.kind.writes) = true)
    (hab : a.mayConflict b = false) {m : Memory} {n : Nat} (hn : n ≤ limit)
    (hs : invoke p limit f args cs m n = .next s) (hsep : Separate f args m.regions.size)
    {ptr ptr' : Operand} {q q' : Pointer} (ht : Accesses p limit cs s t a.inst ptr q)
    (ht' : Accesses p limit cs s t' b.inst ptr' q')
    (hindex : ∀ y, a.place.offset = .index y → b.place.offset = .index y →
      t.frame.value p.types y ≠ t'.frame.value p.types y ∧
        ByElements p f y t a.inst ptr t' b.inst ptr') :
    ∀ r o, Touches p t a.inst q r o → ¬ Touches p t' b.inst q' r o := by
  intro r o htouch htouch'
  obtain ⟨hlocated, hregion⟩ := (accesses_located hv ho hl).2 limit args cs m n s hn hs
  have hreg : q.region = q'.region := htouch.region_eq.trans htouch'.region_eq.symm
  obtain ⟨e, fr, n', hent, _, _, rfl⟩ := invoke_eq_next_iff.mp hs
  have hf := Func.wellFormed_of_verify (Func.isDeclaration_of_live (List.mem_of_head? hent)) hv
  have place {t : State} {c : MemAccess} {x : Operand} {z : Pointer}
      (hc : c ∈ MemAccess.ofBlocks f bs) (hacc : Accesses p limit cs ⟨fr, cs, m, n'⟩ t c.inst x z) :
      c.place = f.place x := by
    have halive : Alive cs t := Nat.le_of_eq (congrArg List.length hacc.executes.1.symm)
    have hin := (active_of_reaches hf ho hl hn hs hacc.reaches halive).inFrame hacc.executes.1
    exact MemAccess.place_eq hc (hin.func_eq ▸ hacc.pointer)
  rcases MemAccess.root_or_index hab hw with hdisjoint | ⟨hroot, hknown, y, hy, hy'⟩
  · rw [place ha ht, place hb ht'] at hdisjoint
    exact hregion hsep _ _ _ _ _ _ _ _ ht ht' hdisjoint hreg
  · obtain ⟨hne, helem⟩ := hindex y hy hy'
    obtain ⟨z, hz, hzreg, hoff⟩ := hlocated t _ _ _ ht
    obtain ⟨z', hz', hzreg', hoff'⟩ := hlocated t' _ _ _ ht'
    rw [← place ha ht] at hz hoff
    rw [← place hb ht'] at hz' hoff'
    rw [hy] at hoff
    rw [hy'] at hoff'
    obtain ⟨x, u, hx, hu, rfl⟩ := hoff
    obtain ⟨x', u', hx', hu', rfl⟩ := hoff'
    rcases hz.eq_or_region_ne (hroot ▸ hz') hknown with rfl | hzne
    · obtain ⟨j, hj, hoj⟩ := htouch.offset_eq
      obtain ⟨k, hk, hok⟩ := htouch'.offset_eq
      have hsize := helem.size_eq
      have hj := Nat.lt_of_lt_of_le hj helem.le_size
      have hk := Nat.lt_of_lt_of_le hk helem.le_size'
      have hnear := helem.near x x' hx hx'
      rw [Func.elementSize_eq hu] at hsize hj hnear
      rw [Func.elementSize_eq hu'] at hsize hk
      rw [← hsize] at hk hok
      rw [hx, hx', eq_of_element hj hk hnear (hoj.symm.trans hok)] at hne
      exact hne rfl
    · exact hzne ((hzreg.symm.trans hreg).trans hzreg')

/-! ## A pointer to larger and one to smaller elements -/

/-- The types of `pairFunc`. -/
def pairTypes : TypeTable :=
  ⟨#[⟨none, .void⟩, ⟨none, .scalar .bool⟩, ⟨none, .scalar ⟨.uint, 1⟩⟩, ⟨none, .pointer 1⟩,
    ⟨none, .scalar .f32⟩, ⟨none, .pointer 4⟩]⟩

/-- In two iterations, stores a number through a parameter and then a given value through a cast of
it to a given type, both by the induction value. -/
def pairFunc (target : TyId) (v : Operand) : Func where
  name := "pair"
  params := #[⟨"y", 5, true⟩]
  ret := 0
  blocks := #[⟨"entry", [0, 1], false⟩, ⟨"header", [2, 3, 4], false⟩,
    ⟨"body", [5, 6, 7, 8, 9], false⟩, ⟨"latch", [10, 11], false⟩, ⟨"exit", [12], false⟩]
  insts := #[⟨.bitcast (.param 0), target, none, some 0⟩, ⟨.br 1, 0, none, some 0⟩,
    ⟨.phi [(.const 0, 0), (.inst 10, 3)], 2, none, some 1⟩,
    ⟨.icmp .ult (.inst 2) (.const 2), 1, none, some 1⟩, ⟨.condBr (.inst 3) 2 4, 0, none, some 1⟩,
    ⟨.gep (.param 0) (.inst 2), 5, none, some 2⟩, ⟨.store (.const 3) (.inst 5), 0, none, some 2⟩,
    ⟨.gep (.inst 0) (.inst 2), target, none, some 2⟩, ⟨.store v (.inst 7), 0, none, some 2⟩,
    ⟨.br 3, 0, none, some 2⟩, ⟨.binary .add (.inst 2) (.const 1), 2, none, some 3⟩,
    ⟨.br 1, 0, none, some 3⟩, ⟨.ret none, 0, none, some 4⟩]
  constants := #[⟨2, .int 0⟩, ⟨2, .int 1⟩, ⟨2, .int 2⟩, ⟨4, .f32 .zero⟩, ⟨1, .bool true⟩]
  layout := [0, 1, 2, 3, 4]

/-- The loop of `pairFunc`. -/
def pairLoop : NaturalLoop := ⟨1, [3], [1, 2, 3]⟩

/-- What it is recognized as. -/
def pairCounted : CountedLoop := ⟨0, 1, 3, 4, [2], 2, 2, .const 0, .const 2, 1, 3, 10⟩

/-- A program of `pairFunc` alone. -/
def pairProgram (target : TyId) (v : Operand) : Program := ⟨pairTypes, #[pairFunc target v]⟩

/-- The two accesses of `pairFunc`. -/
def pairAccess (i : InstId) : MemAccess := ⟨i, .write, .param 0 true, .index (.inst 2)⟩

/-- The start of a run of `pairFunc`, its first and its second store through the parameter, and the
store through the cast after it. -/
def pairStates (target : TyId) (v : Operand) : Option (State × State × State × State) := do
  let p := pairProgram target v
  let s ← (invoke p 100 (pairFunc target v) [.ptr ⟨0, 0⟩] [] (Memory.empty.alloc 16).2 0).state?
  let u ← follow p 100 (fun _ => true) 5 s
  let w ← nextLap p 100 pairLoop 6 8 u
  let t ← follow p 100 (fun x => x.callers.isEmpty && pairLoop.contains x.frame.block) 2 w
  return (s, u, w, t)

/-- A store of `pairFunc`: the index by which it goes, its pointer, the lengths of its runs, and
whether it touches the second byte. -/
structure PairStore where
  index : Option Int64
  access : Option (Operand × Pointer)
  runs : List Nat
  touches : Bool
deriving DecidableEq

/-- What a state of `pairFunc` stores. -/
def pairStore (target : TyId) (v : Operand) (i : InstId) (t : State) : PairStore :=
  let p := pairProgram target v
  { index := (t.frame.value p.types (.inst 2)).bind fun d => d.asInt.toOption
    access := access? p i t
    runs := runsAt p t i
    touches := (access? p i t).any fun x => decide (Touches p t i x.2 0 1) }

/-- What is stored through the parameter in the first iteration, and through the cast in the second
one. -/
def pairStores (target : TyId) (v : Operand) : Option (PairStore × PairStore) :=
  (pairStates target v).map fun (_, u, _, t) => (pairStore target v 6 u, pairStore target v 8 t)

theorem separate_pairFunc (target : TyId) (v : Operand) :
    Separate (pairFunc target v) [.ptr ⟨0, 0⟩] 1 := by
  have hzero : ∀ {k : Nat} {q : Pointer}, [Datum.ptr ⟨0, 0⟩][k]? = some (.ptr q) →
      k = 0 ∧ q = ⟨0, 0⟩ := by
    intro k q h
    cases k with
    | zero =>
      cases h
      exact ⟨rfl, rfl⟩
    | succ k => cases h
  refine ⟨fun k q h => ?_, fun k l _ _ _ _ hne _ _ _ _ hk hl => ?_⟩
  · rw [(hzero h).2]
    exact Nat.zero_lt_one
  · exact absurd ((hzero hk).1.trans (hzero hl).1.symm) hne

theorem states_of_pairStores {target : TyId} {v ptr ptr' : Operand} {x x' : Int64}
    {q q' : Pointer} {ns ns' : List Nat} {b b' : Bool}
    (h : pairStores target v =
      some (⟨some x, some (ptr, q), ns, b⟩, ⟨some x', some (ptr', q'), ns', b'⟩)) :
    ∃ s u w t, invoke (pairProgram target v) 100 (pairFunc target v) [.ptr ⟨0, 0⟩] []
        (Memory.empty.alloc 16).2 0 = .next s ∧
      Accesses (pairProgram target v) 100 [] s u 6 ptr q ∧
      Laps (pairProgram target v) 100 [] pairLoop 6 1 u w ∧
      Reaches (pairProgram target v) 100 (Inside [] pairLoop) w t ∧
      Accesses (pairProgram target v) 100 [] s t 8 ptr' q' ∧
      (u.frame.value pairTypes (.inst 2) = some (.int x) ∧
        t.frame.value pairTypes (.inst 2) = some (.int x')) ∧
      (runsAt (pairProgram target v) u 6 = ns ∧ runsAt (pairProgram target v) t 8 = ns') ∧
      (b = true → Touches (pairProgram target v) u 6 q 0 1) ∧
      (b' = true → Touches (pairProgram target v) t 8 q' 0 1) := by
  obtain ⟨⟨s, u, w, t⟩, hrun, hstores⟩ := Option.map_eq_some_iff.mp h
  obtain ⟨hu, ht⟩ := Prod.mk.inj hstores
  obtain ⟨hx, hacc, hruns, htouch⟩ := PairStore.mk.inj hu
  obtain ⟨hx', hacc', hruns', htouch'⟩ := PairStore.mk.inj ht
  have index {z : State} {y : Int64} (hy : ((z.frame.value pairTypes (.inst 2)).bind fun d =>
      d.asInt.toOption) = some y) : z.frame.value pairTypes (.inst 2) = some (.int y) := by
    obtain ⟨d, hd, hy⟩ := Option.bind_eq_some_iff.mp hy
    rwa [← Datum.asInt_eq_ok.mp (toOption_eq_some.mp hy)]
  unfold pairStates at hrun
  simp only [Option.bind_eq_bind, Option.bind_eq_some_iff, Option.pure_def, Option.some.injEq,
    Prod.mk.injEq] at hrun
  obtain ⟨s', hs, u', hfollow, w', hlap, t', hinside, rfl, rfl, rfl, rfl⟩ := hrun
  have hu := accesses_of_follow hfollow hacc
  have hk := (Laps.zero hu.executes).next hlap
  have hwt : Reaches (pairProgram target v) 100 (Inside [] pairLoop) w' t' := by
    refine (reaches_of_follow hinside).mono fun x hx => ?_
    simpa [Inside, NaturalLoop.contains, Bool.and_eq_true, List.isEmpty_iff] using hx
  obtain ⟨hex, hptr, hval⟩ := access?_eq_some hacc'
  have ht : Accesses (pairProgram target v) 100 [] s' t' 8 ptr' q' :=
    ⟨(hu.reaches.trans hk.reaches).trans (hwt.mono fun x hx => hx.alive), hex, hptr, hval⟩
  refine ⟨s', u', w', t', Transition.state?_eq_some.mp hs, hu, hk, hwt, ht,
    ⟨index hx, index hx'⟩, ⟨hruns, hruns'⟩, fun hb => ?_, fun hb => ?_⟩
  · rw [hacc, hb] at htouch
    exact of_decide_eq_true htouch
  · rw [hacc', hb] at htouch'
    exact of_decide_eq_true htouch'

/-- With a cast to the same type, the two stores are disjoint. -/
theorem disjoint_pairFunc : ∃ s u t,
    invoke (pairProgram 5 (.const 3)) 100 (pairFunc 5 (.const 3)) [.ptr ⟨0, 0⟩] []
      (Memory.empty.alloc 16).2 0 = .next s ∧
    Accesses (pairProgram 5 (.const 3)) 100 [] s u 6 (.inst 5) ⟨0, 0⟩ ∧
    Accesses (pairProgram 5 (.const 3)) 100 [] s t 8 (.inst 7) ⟨0, 4⟩ ∧
    ∀ r o, Touches (pairProgram 5 (.const 3)) u 6 ⟨0, 0⟩ r o →
      ¬ Touches (pairProgram 5 (.const 3)) t 8 ⟨0, 4⟩ r o := by
  obtain ⟨s, u, w, t, hs, hu, _, _, ht, ⟨hx, hx'⟩, ⟨hruns, hruns'⟩, _⟩ := states_of_pairStores
    (by decide +kernel : pairStores 5 (.const 3) =
      some (⟨some 0, some (.inst 5, ⟨0, 0⟩), [4], true⟩,
        ⟨some 1, some (.inst 7, ⟨0, 4⟩), [4], false⟩))
  refine ⟨s, u, t, hs, hu, ht, ?_⟩
  have ha : pairAccess 6 ∈ MemAccess.ofBlocks (pairFunc 5 (.const 3)) [2] := by decide
  have hb : pairAccess 8 ∈ MemAccess.ofBlocks (pairFunc 5 (.const 3)) [2] := by decide
  refine disjoint_of_not_mayConflict (p := pairProgram 5 (.const 3)) (by cbv) (by decide)
    (by decide) ha hb rfl (by decide) (Nat.zero_le 100) hs (separate_pairFunc _ _) hu ht
    fun y hy _ => ?_
  cases hy
  refine ⟨fun heq => ?_, rfl, hruns ▸ by decide, hruns' ▸ by decide, fun z z' hz hz' => ?_⟩
  · exact absurd (Datum.int.inj (Option.some.inj (hx.symm.trans (heq.trans hx')))) (by decide)
  · cases hx.symm.trans hz
    cases hx'.symm.trans hz'
    decide

/-- A loop with two stores by the induction value that are reported independent although they
overlap: the number that is stored in the first iteration covers the byte that the second iteration
stores through a cast to smaller elements. -/
theorem overlapping_independent :
    (pairFunc 3 (.const 4)).verify pairTypes = .ok () ∧ (pairFunc 3 (.const 4)).ListedOnce ∧
    (pairFunc 3 (.const 4)).UsesListed ∧
    CountedLoop.recognize (pairFunc 3 (.const 4)) (.ofFunc (pairFunc 3 (.const 4)))
      (.ofGraph (.ofFunc (pairFunc 3 (.const 4)))) pairLoop = .ok pairCounted ∧
    pairCounted.body = [2] ∧
    pairAccess 6 ∈ MemAccess.ofBlocks (pairFunc 3 (.const 4)) [2] ∧
    pairAccess 8 ∈ MemAccess.ofBlocks (pairFunc 3 (.const 4)) [2] ∧
    (pairAccess 6).mayConflict (pairAccess 8) = false ∧
    ∃ s u w t, invoke (pairProgram 3 (.const 4)) 100 (pairFunc 3 (.const 4)) [.ptr ⟨0, 0⟩] []
        (Memory.empty.alloc 16).2 0 = .next s ∧
      Accesses (pairProgram 3 (.const 4)) 100 [] s u 6 (.inst 5) ⟨0, 0⟩ ∧
      Laps (pairProgram 3 (.const 4)) 100 [] pairLoop 6 1 u w ∧
      Reaches (pairProgram 3 (.const 4)) 100 (Inside [] pairLoop) w t ∧
      Accesses (pairProgram 3 (.const 4)) 100 [] s t 8 (.inst 7) ⟨0, 1⟩ ∧
      (u.frame.value pairTypes (.inst 2) = some (.int 0) ∧
        t.frame.value pairTypes (.inst 2) = some (.int 1)) ∧
      Touches (pairProgram 3 (.const 4)) u 6 ⟨0, 0⟩ 0 1 ∧
      Touches (pairProgram 3 (.const 4)) t 8 ⟨0, 1⟩ 0 1 := by
  refine ⟨by cbv, by decide, by decide, by decide +kernel, rfl, by decide, by decide, by decide, ?_⟩
  obtain ⟨s, u, w, t, hs, hu, hk, hwt, ht, hx, _, htouch, htouch'⟩ := states_of_pairStores
    (by decide +kernel : pairStores 3 (.const 4) =
      some (⟨some 0, some (.inst 5, ⟨0, 0⟩), [4], true⟩,
        ⟨some 1, some (.inst 7, ⟨0, 1⟩), [1], true⟩))
  exact ⟨s, u, w, t, hs, hu, hk, hwt, ht, hx, htouch rfl, htouch' rfl⟩

end Machine

end LoopNest
