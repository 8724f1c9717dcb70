import LoopNest.Proofs.Ty.Tree

/-!
# Natural layout

The *leaves* of a type are the scalars and pointers in a value of it, at any depth, each at its
offset from the start of the value: the lanes of a vector side by side, the elements of an array at
multiples of the padded size, the members of a struct at the member offsets.  In the layout of a
type they are found at what `TypeTable.memberOffsets` and `TypeTable.paddedSize` say
(`LaidOut.members`, `LaidOut.elements`).

Where every scalar takes a power of two of bytes, the layout of a type is natural (`LaidOut`): every
leaf lies inside the store size at a multiple of its own size, and no two leaves overlap.  The
invariant is `Packed`, which also says that the size of every leaf divides the alignment of the
type.  That is what keeps a leaf aligned when the value is moved to a multiple of the alignment
(`Packed.shift`), as an array element or as a member.  Consecutive parts are joined by
`Packed.append`.
-/

namespace LoopNest

/-! ## Rounding -/

theorem dvd_alignTo {a : Nat} (ha : 0 < a) (v : Nat) : a ∣ alignTo v a := by
  unfold alignTo
  split
  · have : a = 1 := by omega
    rw [this]
    exact Nat.one_dvd v
  · exact Nat.dvd_mul_left a _

theorem le_alignTo {a : Nat} (ha : 0 < a) (v : Nat) : v ≤ alignTo v a := by
  unfold alignTo
  split
  · exact Nat.le_refl v
  · have := Nat.lt_div_mul_add ha (a := v + a - 1)
    omega

theorem alignTo_lt {a : Nat} (ha : 0 < a) (v : Nat) : alignTo v a < v + a := by
  unfold alignTo
  split
  · omega
  · have := Nat.div_mul_le_self (v + a - 1) a
    omega

theorem dvd_of_isPowerOfTwo {a b : Nat} (ha : a.isPowerOfTwo) (hb : b.isPowerOfTwo) (h : a ≤ b) :
    a ∣ b := by
  obtain ⟨i, rfl⟩ := ha
  obtain ⟨j, rfl⟩ := hb
  exact Nat.pow_dvd_pow 2 ((Nat.pow_le_pow_iff_right (by decide)).mp h)

theorem isPowerOfTwo_powerFrom {n p : Nat} (hp : p.isPowerOfTwo) :
    ∀ fuel, (powerFrom n fuel p).isPowerOfTwo := by
  intro fuel
  induction fuel generalizing p with
  | zero => exact hp
  | succ fuel ih =>
    rw [powerFrom]
    split
    · exact hp
    · exact ih (Nat.mul_comm 2 p ▸ Nat.isPowerOfTwo_mul_two_of_isPowerOfTwo hp)

/-- Every doubling adds at least one. -/
theorem le_powerFrom {n p fuel : Nat} (hp : 0 < p) (h : n ≤ p + fuel) :
    n ≤ powerFrom n fuel p := by
  induction fuel generalizing p with
  | zero => exact h
  | succ fuel ih =>
    rw [powerFrom]
    split
    · assumption
    · exact ih (by omega) (by omega)

theorem isPowerOfTwo_nextPowerOfTwo (n : Nat) : (nextPowerOfTwo n).isPowerOfTwo :=
  isPowerOfTwo_powerFrom Nat.isPowerOfTwo_one n

theorem le_nextPowerOfTwo (n : Nat) : n ≤ nextPowerOfTwo n := le_powerFrom Nat.one_pos (by omega)

namespace Extent

/-- The padded size of an extent whose alignment asks for something. -/
theorem padded_facts {e : Extent} (he : 0 < e.align) :
    e.size ≤ e.padded ∧ e.align ∣ e.padded ∧ e.padded < e.size + e.align :=
  ⟨le_alignTo he _, dvd_alignTo he _, alignTo_lt he _⟩

theorem length_offsetsFrom (start : Nat) (es : List Extent) :
    (offsetsFrom start es).length = es.length := by
  induction es generalizing start with
  | nil => rfl
  | cons e es ih => simp [offsetsFrom, ih]

/-- Each member comes after the padded size of the one before. -/
theorem offsetsFrom_step {es : List Extent} (hpos : ∀ e ∈ es, 0 < e.align) {start k o o' : Nat}
    {e : Extent} (he : es[k]? = some e) (ho : (offsetsFrom start es)[k]? = some o)
    (ho' : (offsetsFrom start es)[k + 1]? = some o') : o + e.padded ≤ o' := by
  induction es generalizing start k with
  | nil => simp at he
  | cons a es ih =>
    cases k with
    | zero =>
      cases es with
      | nil => simp [offsetsFrom] at ho'
      | cons b es =>
        simp only [offsetsFrom, List.getElem?_cons_zero, List.getElem?_cons_succ,
          Option.some.injEq] at he ho ho'
        subst he ho ho'
        exact le_alignTo (hpos b (by simp)) _
    | succ k => exact ih (fun e he => hpos e (by simp [he])) he ho ho'

theorem align_le_ofMembers {es : List Extent} {e : Extent} (he : e ∈ es) :
    e.align ≤ (ofMembers es).align := by
  have hmem := List.mem_map_of_mem (f := Extent.align) he
  cases hmax : (es.map Extent.align).max? with
  | none =>
    rw [List.max?_eq_none_iff] at hmax
    rw [hmax] at hmem
    cases hmem
  | some m =>
    simp only [ofMembers, hmax, Option.getD_some]
    exact (List.max?_eq_some_iff.mp hmax).2 _ hmem

/-- The alignment of a struct is that of a member, if there is one. -/
theorem isPowerOfTwo_align_ofMembers {es : List Extent}
    (h : ∀ e ∈ es, e.align.isPowerOfTwo) : (ofMembers es).align.isPowerOfTwo := by
  cases hmax : (es.map Extent.align).max? with
  | none =>
    simp only [ofMembers, hmax, Option.getD_none]
    exact Nat.isPowerOfTwo_one
  | some m =>
    simp only [ofMembers, hmax, Option.getD_some]
    obtain ⟨e, he, rfl⟩ := List.mem_map.mp (List.max?_eq_some_iff.mp hmax).1
    exact h e he

/-- Where the last of consecutive members ends, the first being placed from `start` on. -/
def endFrom : Nat → List Extent → Nat
  | start, [] => start
  | start, [e] => alignTo start e.align + e.size
  | start, e :: e' :: es => endFrom (alignTo start e.align + e.padded) (e' :: es)

theorem le_endFrom {es : List Extent} (hpos : ∀ e ∈ es, 0 < e.align) (start : Nat) :
    start ≤ endFrom start es := by
  induction es generalizing start with
  | nil => exact Nat.le_refl start
  | cons e es ih =>
    have hstart := le_alignTo (hpos e (by simp)) start
    cases es with
    | nil =>
      rw [endFrom]
      omega
    | cons e' es =>
      rw [endFrom]
      have := ih (fun e he => hpos e (by simp [he])) (alignTo start e.align + e.padded)
      omega

theorem getLast?_offsetsFrom (start : Nat) (e : Extent) (es : List Extent) :
    ∃ o last, (offsetsFrom start (e :: es)).getLast? = some o ∧ (e :: es).getLast? = some last ∧
      o + last.size = endFrom start (e :: es) := by
  induction es generalizing start e with
  | nil => exact ⟨_, _, rfl, rfl, rfl⟩
  | cons e' es ih =>
    obtain ⟨o, last, ho, hlast, heq⟩ := ih (alignTo start e.align + e.padded) e'
    refine ⟨o, last, ?_, ?_, heq⟩
    · rw [offsetsFrom, List.getLast?_cons, ho, Option.getD_some]
    · rw [List.getLast?_cons, hlast, Option.getD_some]

/-- A struct ends with its last member. -/
theorem size_ofMembers (es : List Extent) : (ofMembers es).size = endFrom 0 es := by
  cases es with
  | nil => rfl
  | cons e es =>
    obtain ⟨o, last, ho, hlast, heq⟩ := getLast?_offsetsFrom 0 e es
    rw [ofMembers, memberOffsets, ho, hlast, ← heq]

end Extent

/-! ## Leaves -/

/-- A scalar or a pointer in a value. -/
structure Leaf where
  /-- Its first byte, from the start of the value. -/
  offset : Nat
  /-- Its number of bytes. -/
  size : Nat
deriving DecidableEq

/-- A leaf of a value that starts at an offset itself. -/
def Leaf.shift (offset : Nat) (l : Leaf) : Leaf := { l with offset := offset + l.offset }

/-- The leaves of `n` equal parts, one every `stride` bytes. -/
def Leaf.copies (n stride : Nat) (ls : List Leaf) : List Leaf :=
  (List.range n).flatMap fun k => ls.map (shift (k * stride))

/-- The leaves of parts at the given offsets. -/
def Leaf.parts (offsets : List Nat) (parts : List (List Leaf)) : List Leaf :=
  (List.zipWith (fun offset ls => ls.map (shift offset)) offsets parts).flatten

namespace TypeTree

mutual

/-- The leaves of a value. -/
def leaves : TypeTree → List Leaf
  | .void _ => []
  | .scalar _ s => [⟨0, s.width⟩]
  | .vector _ lanes s => Leaf.copies lanes s.width [⟨0, s.width⟩]
  | .pointer _ _ => [⟨0, pointerBytes⟩]
  | .array _ element length => Leaf.copies length element.extent.padded element.leaves
  | .struct _ members => Leaf.parts (Extent.memberOffsets (extents members)) (leavesOf members)

/-- The leaves of each value of a list. -/
def leavesOf : List TypeTree → List (List Leaf)
  | [] => []
  | T :: Ts => T.leaves :: leavesOf Ts

end

theorem leavesOf_eq_map : ∀ Ts : List TypeTree, leavesOf Ts = Ts.map leaves
  | [] => rfl
  | T :: Ts => by rw [leavesOf, List.map_cons, leavesOf_eq_map Ts]

/-- Every scalar takes a power of two of bytes. -/
inductive Natural : TypeTree → Prop
  | void {name : Option String} : Natural (.void name)
  | scalar {name : Option String} {s : Scalar} (hs : s.width.isPowerOfTwo) :
      Natural (.scalar name s)
  | vector {name : Option String} {lanes : Nat} {s : Scalar} (hs : s.width.isPowerOfTwo) :
      Natural (.vector name lanes s)
  | pointer {name : Option String} {T : TypeTree} (hT : Natural T) : Natural (.pointer name T)
  | array {name : Option String} {T : TypeTree} {length : Nat} (hT : Natural T) :
      Natural (.array name T length)
  | struct {name : Option String} {Ts : List TypeTree} (hTs : ∀ T ∈ Ts, Natural T) :
      Natural (.struct name Ts)

end TypeTree

/-! ## Packed leaves -/

/-- Leaves that lie apart between two offsets, each at a multiple of its size, which divides the
alignment. -/
structure Packed (lo hi align : Nat) (ls : List Leaf) : Prop where
  inside : ∀ l ∈ ls, lo ≤ l.offset ∧ l.offset + l.size ≤ hi
  pos : ∀ l ∈ ls, 0 < l.size
  aligned : ∀ l ∈ ls, l.size ∣ l.offset
  dvd_align : ∀ l ∈ ls, l.size ∣ align
  apart : ls.Pairwise fun l l' => l.offset + l.size ≤ l'.offset

namespace Packed

variable {lo lo' hi hi' align align' : Nat} {ls ls' : List Leaf}

theorem nil : Packed lo hi align [] := ⟨by simp, by simp, by simp, by simp, .nil⟩

theorem singleton {n : Nat} (hn : 0 < n) : Packed 0 n n [⟨0, n⟩] :=
  ⟨by simp, by simpa using hn, by simp, by simp, List.pairwise_singleton _ _⟩

theorem mono (h : Packed lo hi align ls) (hlo : lo' ≤ lo) (hhi : hi ≤ hi')
    (ha : ∀ l ∈ ls, align ∣ align') : Packed lo' hi' align' ls where
  inside l hl := ⟨hlo.trans (h.inside l hl).1, (h.inside l hl).2.trans hhi⟩
  pos := h.pos
  aligned := h.aligned
  dvd_align l hl := (h.dvd_align l hl).trans (ha l hl)
  apart := h.apart

/-- A value that is moved to a multiple of its alignment keeps its leaves aligned. -/
theorem shift (h : Packed 0 hi align ls) {o : Nat} (ho : align ∣ o) :
    Packed o (o + hi) align (ls.map (Leaf.shift o)) where
  inside := by
    intro l hl
    obtain ⟨l', hl', rfl⟩ := List.mem_map.mp hl
    have := h.inside l' hl'
    simp only [Leaf.shift]
    omega
  pos := by
    intro l hl
    obtain ⟨l', hl', rfl⟩ := List.mem_map.mp hl
    exact h.pos l' hl'
  aligned := by
    intro l hl
    obtain ⟨l', hl', rfl⟩ := List.mem_map.mp hl
    exact Nat.dvd_add ((h.dvd_align l' hl').trans ho) (h.aligned l' hl')
  dvd_align := by
    intro l hl
    obtain ⟨l', hl', rfl⟩ := List.mem_map.mp hl
    exact h.dvd_align l' hl'
  apart := by
    rw [List.pairwise_map]
    refine h.apart.imp fun hle => ?_
    simp only [Leaf.shift]
    omega

/-- Leaves that end before others begin. -/
theorem append (h : Packed lo hi align ls) (h' : Packed lo' hi' align ls') (hle : hi ≤ lo')
    (hlo : lo ≤ lo') (hhi : hi ≤ hi') : Packed lo hi' align (ls ++ ls') := by
  have hl := h.mono (Nat.le_refl lo) hhi fun _ _ => Nat.dvd_refl align
  have hl' := h'.mono hlo (Nat.le_refl hi') fun _ _ => Nat.dvd_refl align
  constructor
  · exact List.forall_mem_append.mpr ⟨hl.inside, hl'.inside⟩
  · exact List.forall_mem_append.mpr ⟨hl.pos, hl'.pos⟩
  · exact List.forall_mem_append.mpr ⟨hl.aligned, hl'.aligned⟩
  · exact List.forall_mem_append.mpr ⟨hl.dvd_align, hl'.dvd_align⟩
  · refine List.pairwise_append.mpr ⟨h.apart, h'.apart, fun l hmem l' hmem' => ?_⟩
    exact ((h.inside l hmem).2.trans hle).trans (h'.inside l' hmem').1

theorem copies {size stride : Nat} (h : Packed 0 size align ls) (hsize : size ≤ stride)
    (hdvd : align ∣ stride) (n : Nat) :
    Packed 0 (n * stride) align (Leaf.copies n stride ls) := by
  induction n with
  | zero => exact nil
  | succ n ih =>
    have hlast := h.shift (hdvd.mul_left n)
    rw [Leaf.copies, List.range_succ, List.flatMap_append, List.flatMap_singleton, Nat.succ_mul]
    refine ih.append (hlast.mono (Nat.le_refl _) ?_ fun _ _ => Nat.dvd_refl align)
      (Nat.le_refl _) (Nat.zero_le _) (Nat.le_add_right _ _)
    exact Nat.add_le_add_left hsize _

end Packed

namespace TypeTree

variable {T : TypeTree}

/-- The leaves of the members of a struct, the first being placed from `start` on. -/
theorem packed_parts {align : Nat} : ∀ (Ts : List TypeTree) (start : Nat),
    (∀ T ∈ Ts, 0 < T.extent.align ∧ T.extent.align ∣ align ∧
      Packed 0 T.extent.size T.extent.align T.leaves) →
    Packed start (Extent.endFrom start (extents Ts)) align
      (Leaf.parts (Extent.offsetsFrom start (extents Ts)) (leavesOf Ts))
  | [], start, _ => .nil
  | T :: Ts, start, h => by
    obtain ⟨hpos, hdvd, hT⟩ := h T (by simp)
    have hfst := (hT.shift (dvd_alignTo hpos start)).mono (le_alignTo hpos start)
      (Nat.le_refl _) fun _ _ => hdvd
    have htail := packed_parts Ts (alignTo start T.extent.align + T.extent.padded)
      fun U hU => h U (by simp [hU])
    cases Ts with
    | nil => simpa [extents, leavesOf, Leaf.parts, Extent.offsetsFrom, Extent.endFrom] using hfst
    | cons U Us =>
      have hsize := (Extent.padded_facts hpos).1
      have hposs : ∀ e ∈ extents (U :: Us), 0 < e.align := by
        rw [extents_eq_map]
        intro e he
        obtain ⟨V, hV, rfl⟩ := List.mem_map.mp he
        exact (h V (by simp [hV])).1
      have hend := Extent.le_endFrom hposs (alignTo start T.extent.align + T.extent.padded)
      have hstart := le_alignTo hpos start
      exact hfst.append htail (by omega) (by omega)
        (by simp only [extents, Extent.endFrom] at hend ⊢; omega)

theorem Natural.align_and_packed (h : T.Natural) :
    T.extent.align.isPowerOfTwo ∧ Packed 0 T.extent.size T.extent.align T.leaves := by
  induction h with
  | void => exact ⟨Nat.isPowerOfTwo_one, .nil⟩
  | scalar hs => exact ⟨hs, .singleton (Nat.pos_of_isPowerOfTwo hs)⟩
  | @vector name lanes s hs =>
    have hpow := isPowerOfTwo_nextPowerOfTwo (lanes * s.width)
    have hlanes := (Packed.singleton (Nat.pos_of_isPowerOfTwo hs)).copies (Nat.le_refl _)
      (Nat.dvd_refl _) lanes
    refine ⟨hpow, hlanes.mono (Nat.le_refl _) (Nat.le_refl _) fun l hl => ?_⟩
    -- a lane is not longer than the vector
    have hne : lanes ≠ 0 := by
      rintro rfl
      simp [Leaf.copies] at hl
    refine dvd_of_isPowerOfTwo hs hpow (Nat.le_trans ?_ (le_nextPowerOfTwo _))
    exact Nat.le_mul_of_pos_left _ (Nat.pos_of_ne_zero hne)
  | pointer _ => exact ⟨⟨3, rfl⟩, Packed.singleton (n := pointerBytes) (by decide)⟩
  | @array name T length _ ih =>
    obtain ⟨hpow, hT⟩ := ih
    have hpad := Extent.padded_facts (Nat.pos_of_isPowerOfTwo hpow)
    exact ⟨hpow, hT.copies hpad.1 hpad.2.1 length⟩
  | @struct name Ts _ ih =>
    have hpow : (Extent.ofMembers (extents Ts)).align.isPowerOfTwo := by
      refine Extent.isPowerOfTwo_align_ofMembers fun e he => ?_
      rw [extents_eq_map] at he
      obtain ⟨T, hT, rfl⟩ := List.mem_map.mp he
      exact (ih T hT).1
    have hle : ∀ T ∈ Ts, T.extent.align ≤ (Extent.ofMembers (extents Ts)).align := fun T hT =>
      Extent.align_le_ofMembers (extents_eq_map Ts ▸ List.mem_map_of_mem hT)
    have hparts := packed_parts Ts 0 fun T hT => ⟨Nat.pos_of_isPowerOfTwo (ih T hT).1,
      dvd_of_isPowerOfTwo (ih T hT).1 hpow (hle T hT), (ih T hT).2⟩
    rw [← Extent.size_ofMembers] at hparts
    exact ⟨hpow, hparts⟩

end TypeTree

/-! ## The layout of a type -/

namespace TypeTable

/-- A natural layout of a type with the given tree. -/
structure LaidOut (tt : TypeTable) (t : TyId) (T : TypeTree) : Prop where
  /-- Alignments are powers of two. -/
  align_pow : (tt.align t).isPowerOfTwo
  /-- Padding only adds bytes. -/
  store_le : tt.storeSize t ≤ tt.paddedSize t
  /-- The padded size is a multiple of the alignment. -/
  align_dvd : tt.align t ∣ tt.paddedSize t
  /-- There is no more padding than needed. -/
  padded_lt : tt.paddedSize t < tt.storeSize t + tt.align t
  /-- There is an offset for each member of a struct. -/
  length_offsets : ∀ ms, tt.shape t = .struct ms → (tt.memberOffsets t).length = ms.length
  /-- Each member comes after the padded size of the one before. -/
  offsets_step : ∀ ms k m o o', tt.shape t = .struct ms → ms[k]? = some m →
    (tt.memberOffsets t)[k]? = some o → (tt.memberOffsets t)[k + 1]? = some o' →
    o + tt.paddedSize m ≤ o'
  /-- A struct ends with its last member. -/
  struct_end : ∀ ms m o, tt.shape t = .struct ms → ms.getLast? = some m →
    (tt.memberOffsets t).getLast? = some o → tt.storeSize t = o + tt.storeSize m
  /-- The leaves of a struct are those of its members, moved to the member offsets. -/
  members : ∀ ms, tt.shape t = .struct ms → ∃ Ts : List TypeTree, ms.length = Ts.length ∧
    (∀ (k : Nat) (m : TyId) (U : TypeTree), ms[k]? = some m → Ts[k]? = some U → tt.Expands m U) ∧
    T.leaves = Leaf.parts (tt.memberOffsets t) (Ts.map TypeTree.leaves)
  /-- The leaves of an array are those of its elements, one element every padded size. -/
  elements : ∀ e n, tt.shape t = .array e n → ∃ U : TypeTree, tt.Expands e U ∧
    T.leaves = Leaf.copies n (tt.paddedSize e) U.leaves
  /-- Every leaf has bytes, all of them inside the store size. -/
  inside : ∀ l ∈ T.leaves, 0 < l.size ∧ l.offset + l.size ≤ tt.storeSize t
  /-- Every leaf is at a multiple of its own size. -/
  aligned : ∀ l ∈ T.leaves, l.size ∣ l.offset
  /-- A leaf ends before the next one begins. -/
  apart : T.leaves.Pairwise fun l l' => l.offset + l.size ≤ l'.offset

variable {tt : TypeTable} {t : TyId} {T : TypeTree}

/-- The members of a struct are places of its tree. -/
theorem Expands.members {ms : List TyId} (h : tt.Expands t T) (ht : tt.shape t = .struct ms) :
    ∃ name Ts, T = .struct name Ts ∧ ms.length = Ts.length ∧
      ∀ (k : Nat) (m : TyId) (U : TypeTree), ms[k]? = some m → Ts[k]? = some U →
        tt.Expands m U := by
  cases h with
  | @struct _ name ms' Ts hget hlen hms =>
    simp only [shape, hget, Shape.struct.injEq] at ht
    subst ht
    exact ⟨name, Ts, rfl, hlen, hms⟩
  | void hget | scalar hget | vector hget | pointer hget | array hget =>
    simp [shape, hget] at ht

/-- The element of an array is the one of its tree. -/
theorem Expands.element {e : TyId} {n : Nat} (h : tt.Expands t T) (ht : tt.shape t = .array e n) :
    ∃ name U, T = .array name U n ∧ tt.Expands e U := by
  cases h with
  | @array _ _ name U _ hget hU =>
    simp only [shape, hget, Shape.array.injEq] at ht
    obtain ⟨rfl, rfl⟩ := ht
    exact ⟨name, U, rfl, hU⟩
  | void hget | scalar hget | vector hget | pointer hget | struct hget =>
    simp [shape, hget] at ht

/-- The extents of members are those of their trees. -/
theorem map_extent_eq (hc : tt.Closed) {ms : List TyId} {Ts : List TypeTree}
    (hlen : ms.length = Ts.length) (hms : ∀ (k : Nat) (m : TyId) (U : TypeTree),
      ms[k]? = some m → Ts[k]? = some U → tt.Expands m U) :
    ms.map tt.extent = TypeTree.extents Ts := by
  rw [TypeTree.extents_eq_map]
  exact map_eq_map_of_places hlen fun k m U hm hU => (hms k m U hm hU).extent_eq hc

/-- The extent of a struct is made of those of its members. -/
theorem Expands.extent_struct (hc : tt.Closed) {ms : List TyId} (h : tt.Expands t T)
    (ht : tt.shape t = .struct ms) : tt.extent t = .ofMembers (ms.map tt.extent) := by
  obtain ⟨name, Ts, rfl, hlen, hms⟩ := h.members ht
  rw [h.extent_eq hc, map_extent_eq hc hlen hms, TypeTree.extent]

theorem align_pos_of_mem (hc : tt.Closed) {ms : List TyId} (h : tt.Expands t T) (hn : T.Natural)
    (ht : tt.shape t = .struct ms) : ∀ e ∈ ms.map tt.extent, 0 < e.align := by
  obtain ⟨name, Ts, rfl, hlen, hms⟩ := h.members ht
  rw [map_extent_eq hc hlen hms, TypeTree.extents_eq_map]
  intro e he
  obtain ⟨U, hU, rfl⟩ := List.mem_map.mp he
  cases hn with
  | struct hTs => exact Nat.pos_of_isPowerOfTwo (hTs U hU).align_and_packed.1

end TypeTable

/-- Types over scalars of power-of-two size are laid out naturally.  The tree of `t` is the one it
expands to. -/
theorem Interns.laidOut {p : Indexed Ty} {tys : List Ty} (h : Interns p tys) {t : TyId}
    {T : TypeTree} (hT : TypeTable.Expands p.pool t T) (hn : T.Natural) :
    TypeTable.LaidOut p.pool t T := by
  obtain ⟨hpow, hpacked⟩ := hn.align_and_packed
  have hext := hT.extent_eq h.closed
  obtain ⟨hle, hdvd, hlt⟩ := Extent.padded_facts (Nat.pos_of_isPowerOfTwo hpow)
  have hoffsets {ms : List TyId} (ht : TypeTable.shape p.pool t = .struct ms) :
      TypeTable.memberOffsets p.pool t =
        Extent.memberOffsets (ms.map (TypeTable.extent p.pool)) := by
    rw [TypeTable.memberOffsets, ht]
  constructor
  case align_pow => rwa [TypeTable.align, hext]
  case store_le => rwa [TypeTable.storeSize, TypeTable.paddedSize, hext]
  case align_dvd => rwa [TypeTable.align, TypeTable.paddedSize, hext]
  case padded_lt => rwa [TypeTable.align, TypeTable.storeSize, TypeTable.paddedSize, hext]
  case length_offsets =>
    intro ms ht
    rw [hoffsets ht, Extent.memberOffsets, Extent.length_offsetsFrom, List.length_map]
  case offsets_step =>
    intro ms k m o o' ht hm ho ho'
    rw [hoffsets ht] at ho ho'
    exact Extent.offsetsFrom_step (TypeTable.align_pos_of_mem h.closed hT hn ht)
      (by rw [List.getElem?_map, hm]; rfl) ho ho'
  case struct_end =>
    intro ms m o ht hm ho
    rw [hoffsets ht] at ho
    simp only [TypeTable.storeSize, hT.extent_struct h.closed ht, Extent.ofMembers, ho,
      List.getLast?_map, hm, Option.map_some]
  case members =>
    intro ms ht
    obtain ⟨name, Ts, rfl, hlen, hms⟩ := hT.members ht
    refine ⟨Ts, hlen, hms, ?_⟩
    rw [hoffsets ht, TypeTable.map_extent_eq h.closed hlen hms, TypeTree.leaves,
      TypeTree.leavesOf_eq_map]
  case elements =>
    intro e n ht
    obtain ⟨name, U, rfl, hU⟩ := hT.element ht
    exact ⟨U, hU, by rw [TypeTable.paddedSize, hU.extent_eq h.closed, TypeTree.leaves]⟩
  case inside =>
    intro l hl
    rw [TypeTable.storeSize, hext]
    exact ⟨hpacked.pos l hl, (hpacked.inside l hl).2⟩
  case aligned => exact hpacked.aligned
  case apart => exact hpacked.apart

/-- A struct of a byte and an array of two structs of a byte and a vector of three 32-bit
numbers. -/
def nestedTable : TypeTable := ⟨#[Shape.unnamed (.scalar .i8), Shape.unnamed (.vector 3 .f32),
  ⟨some "S", .struct [0, 1]⟩, Shape.unnamed (.array 2 2), ⟨some "T", .struct [0, 3, 0]⟩]⟩

/-- The tree of the last type of `nestedTable`. -/
def nestedTree : TypeTree :=
  .struct (some "T") [.scalar none .i8,
    .array none (.struct (some "S") [.scalar none .i8, .vector none 3 .f32]) 2,
    .scalar none .i8]

theorem Interns.laidOut_nested : nestedTable.LaidOut 4 nestedTree ∧
    nestedTable.memberOffsets 4 = [0, 16, 80] ∧ nestedTable.memberOffsets 2 = [0, 16] ∧
    nestedTable.storeSize 4 = 81 ∧ nestedTree.leaves = [⟨0, 1⟩, ⟨16, 1⟩, ⟨32, 4⟩, ⟨36, 4⟩, ⟨40, 4⟩,
      ⟨48, 1⟩, ⟨64, 4⟩, ⟨68, 4⟩, ⟨72, 4⟩, ⟨80, 1⟩] := by
  have h := Interns.insert (.insert (.insert (.insert (.insert .empty
    (Shape.unnamed (.scalar .i8)) (by decide)) (Shape.unnamed (.vector 3 .f32)) (by decide))
    ⟨some "S", .struct [0, 1]⟩ (by decide)) (Shape.unnamed (.array 2 2)) (by decide))
    ⟨some "T", .struct [0, 3, 0]⟩ (by decide)
  have hbyte : nestedTable.Expands 0 (.scalar none .i8) := .scalar rfl
  have hinner : nestedTable.Expands 2 (.struct (some "S") [.scalar none .i8, .vector none 3 .f32]) := by
    refine .struct rfl rfl ?_
    rintro (_ | _ | k) m T hm hT
    · cases hm
      cases hT
      exact hbyte
    · cases hm
      cases hT
      exact .vector rfl
    · cases hm
  have hT : nestedTable.Expands 4 nestedTree := by
    refine .struct rfl rfl ?_
    rintro (_ | _ | _ | k) m T hm hT
    · cases hm
      cases hT
      exact hbyte
    · cases hm
      cases hT
      exact .array rfl hinner
    · cases hm
      cases hT
      exact hbyte
    · cases hm
  have hscalar : (TypeTree.scalar none .i8).Natural := .scalar ⟨0, rfl⟩
  have hpair : (TypeTree.struct (some "S") [.scalar none .i8, .vector none 3 .f32]).Natural := by
    refine .struct fun T hT => ?_
    simp only [List.mem_cons, List.not_mem_nil, or_false] at hT
    rcases hT with rfl | rfl
    · exact hscalar
    · exact .vector ⟨2, rfl⟩
  have hn : nestedTree.Natural := by
    refine .struct fun T hT => ?_
    simp only [List.mem_cons, List.not_mem_nil, or_false] at hT
    rcases hT with rfl | rfl | rfl
    · exact hscalar
    · exact .array hpair
    · exact hscalar
  exact ⟨Interns.laidOut h hT hn, by decide, by decide, by decide, by decide⟩

end LoopNest
