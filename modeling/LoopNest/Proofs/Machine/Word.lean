import LoopNest.Proofs.Machine.Arith

/-!
# Words

An integer type of one to eight bytes is a type of machine words.  A datum holds 64 bits, and the
`word` of a datum is the bits that belong to the type.  `extend` is the datum that holds a word and
nothing else: the other bits repeat the sign of a signed word, and are zero for an unsigned one.

Normalizing a datum extends its word (`IsWord.normalize_eq`).  The operators and predicates of the
machine then are those of words (`IsWord.onInt_eq`, `IsWord.holds_eq`), whatever the other bits of
the operands are.
-/

namespace LoopNest

namespace BinaryOp

/-- An operator on words.  There is no quotient and no remainder by zero. -/
def onWords {n : Nat} (op : BinaryOp) (x y : BitVec n) : Option (BitVec n) :=
  match op with
  | .add => some (x + y)
  | .sub => some (x - y)
  | .mul => some (x * y)
  | .and => some (x &&& y)
  | .or => some (x ||| y)
  | .udiv => if y = 0 then none else some (x / y)
  | .urem => if y = 0 then none else some (x % y)
  | _ => none

theorem onWords_eq_none {n : Nat} {op : BinaryOp} (h : op.isFloat = false) {x y : BitVec n} :
    op.onWords x y = none ↔ (op = .udiv ∨ op = .urem) ∧ y = 0 := by
  cases op <;> simp_all [onWords, isFloat]

end BinaryOp

/-- A comparison of words. -/
def IntPredicate.onWords {n : Nat} (pred : IntPredicate) (x y : BitVec n) : Bool :=
  match pred with
  | .eq => x == y
  | .ne => x != y
  | .ult => x.ult y
  | .ule => x.ule y
  | .ugt => y.ult x
  | .uge => y.ule x
  | .slt => x.slt y
  | .sge => y.sle x

namespace Scalar

/-- An integer type of one to eight bytes. -/
structure IsWord (s : Scalar) : Prop where
  isInteger : s.isInteger = true
  width_pos : 0 < s.width
  width_le : s.width ≤ 8

/-- The bits of a datum that belong to the type. -/
def word (s : Scalar) (v : Int64) : BitVec s.bits := v.toBitVec.setWidth s.bits

/-- The datum that holds a word. -/
def extend (s : Scalar) (w : BitVec s.bits) : Int64 :=
  .ofBitVec (if s.kind = .sint then w.signExtend 64 else w.setWidth 64)

variable {s : Scalar}

@[simp] theorem toNat_word (s : Scalar) (v : Int64) : (s.word v).toNat = s.lowBits v := by
  rw [word, BitVec.toNat_setWidth]
  rfl

theorem word_eq_iff {v w : Int64} : s.word v = s.word w ↔ s.lowBits v = s.lowBits w := by
  rw [← BitVec.toNat_inj, toNat_word, toNat_word]

theorem word_eq_zero {v : Int64} : s.word v = 0 ↔ s.lowBits v = 0 := by
  rw [← BitVec.toNat_inj, toNat_word]
  rfl

namespace IsWord

theorem kind_cases (hs : s.IsWord) : s.kind = .sint ∨ s.kind = .uint := by
  have hint := hs.isInteger
  unfold Scalar.isInteger at hint
  cases hk : s.kind with
  | sint => exact .inl rfl
  | uint => exact .inr rfl
  | bool | float =>
    rw [hk] at hint
    cases hint

theorem bits_eq (hs : s.IsWord) : s.bits = s.width * 8 := by
  unfold bits
  rcases hs.kind_cases with hk | hk <;> rw [hk]

theorem bits_le (hs : s.IsWord) : s.bits ≤ 64 := by
  have := hs.width_le
  rw [hs.bits_eq]
  omega

/-! ## Normalizing -/

/-- The integer that a signed word stands for. -/
theorem toInt_word (hs : s.IsWord) (v : Int64) : (s.word v).toInt = v.toInt.bmod (2 ^ s.bits) := by
  rw [word, BitVec.toInt_setWidth, toInt_eq_bmod]
  exact (Int.bmod_bmod_of_dvd (Nat.pow_dvd_pow 2 hs.bits_le)).symm

/-- Normalizing keeps the word and drops the other bits. -/
theorem normalize_eq (hs : s.IsWord) (v : Int64) : s.normalize v = s.extend (s.word v) := by
  unfold normalize extend
  rcases hs.kind_cases with hk | hk
  · rw [hk, if_pos rfl, BitVec.signExtend, hs.toInt_word]
    rfl
  · rw [hk, if_neg (by simp), ← BitVec.ofNat_toNat, toNat_word]
    rfl

/-- An extension adds nothing to its word. -/
theorem word_extend (hs : s.IsWord) (w : BitVec s.bits) : s.word (s.extend w) = w := by
  change BitVec.setWidth s.bits (if s.kind = .sint then w.signExtend 64 else w.setWidth 64) = w
  split
  · ext i hi
    have hlt : i < 64 := Nat.lt_of_lt_of_le hi hs.bits_le
    rw [BitVec.getElem_setWidth, BitVec.getLsbD_signExtend, if_pos hi, decide_eq_true hlt,
      Bool.true_and, BitVec.getLsbD_eq_getElem hi]
  · rw [BitVec.setWidth_setWidth_of_le w hs.bits_le, BitVec.setWidth_eq]

/-- What is an extension is normalized. -/
theorem normalize_extend (hs : s.IsWord) (w : BitVec s.bits) :
    s.normalize (s.extend w) = s.extend w := by
  rw [hs.normalize_eq, hs.word_extend]

/-! ## Operators -/

theorem word_add (hs : s.IsWord) (x y : Int64) : s.word (x + y) = s.word x + s.word y :=
  BitVec.setWidth_add x.toBitVec y.toBitVec hs.bits_le

theorem word_mul (hs : s.IsWord) (x y : Int64) : s.word (x * y) = s.word x * s.word y :=
  BitVec.setWidth_mul x.toBitVec y.toBitVec hs.bits_le

theorem word_sub (hs : s.IsWord) (x y : Int64) : s.word (x - y) = s.word x - s.word y := by
  have hsum := hs.word_add (x - y) y
  rw [Int64.sub_add_cancel] at hsum
  rw [hsum, BitVec.add_sub_cancel]

theorem word_and (s : Scalar) (x y : Int64) : s.word (x &&& y) = s.word x &&& s.word y :=
  BitVec.setWidth_and

theorem word_or (s : Scalar) (x y : Int64) : s.word (x ||| y) = s.word x ||| s.word y :=
  BitVec.setWidth_or

/-- A word is computed from numbers that fit into it. -/
theorem word_ofNat (hs : s.IsWord) {k : Nat} {w : BitVec s.bits} (hk : k = w.toNat) :
    s.word (Int64.ofNat k) = w := by
  subst hk
  rw [← BitVec.toNat_inj, toNat_word, lowBits_ofNat hs.bits_le w.isLt]

/-- An operator on integers is the operator on their words. -/
theorem onInt_eq (hs : s.IsWord) {op : BinaryOp} (hop : op.isFloat = false) (x y : Int64) :
    op.onInt s x y = (op.onWords (s.word x) (s.word y)).elim (.error .divisionByZero)
      fun w => .ok (s.extend w) := by
  cases op with
  | add => simp only [BinaryOp.onInt, BinaryOp.onWords, hs.normalize_eq, hs.word_add, Option.elim]
  | sub => simp only [BinaryOp.onInt, BinaryOp.onWords, hs.normalize_eq, hs.word_sub, Option.elim]
  | mul => simp only [BinaryOp.onInt, BinaryOp.onWords, hs.normalize_eq, hs.word_mul, Option.elim]
  | and => simp only [BinaryOp.onInt, BinaryOp.onWords, hs.normalize_eq, word_and, Option.elim]
  | or => simp only [BinaryOp.onInt, BinaryOp.onWords, hs.normalize_eq, word_or, Option.elim]
  | udiv =>
    simp only [BinaryOp.onInt, BinaryOp.onWords, word_eq_zero]
    by_cases hy : s.lowBits y = 0
    · rw [if_pos hy, if_pos hy, Option.elim]
    · rw [if_neg hy, if_neg hy, Option.elim, hs.normalize_eq,
        hs.word_ofNat (w := s.word x / s.word y) (by simp)]
  | urem =>
    simp only [BinaryOp.onInt, BinaryOp.onWords, word_eq_zero]
    by_cases hy : s.lowBits y = 0
    · rw [if_pos hy, if_pos hy, Option.elim]
    · rw [if_neg hy, if_neg hy, Option.elim, hs.normalize_eq,
        hs.word_ofNat (w := s.word x % s.word y) (by simp)]
  | fadd | fsub | fmul | fdiv => cases hop

/-- A machine operator on integers gives the result of the words, or there is none. -/
theorem apply_eq (hs : s.IsWord) {op : BinaryOp} (hop : op.isFloat = false) (x y : Int64) :
    op.apply s (.int x) (.int y) =
      (op.onWords (s.word x) (s.word y)).elim (.error .divisionByZero)
        fun w => .ok (.int (s.extend w)) := by
  have happly : op.apply s (.int x) (.int y) = (op.onInt s x y).map .int := by
    unfold BinaryOp.apply
    rw [if_neg (by simp [hop])]
    rfl
  rw [happly, hs.onInt_eq hop]
  cases op.onWords (s.word x) (s.word y) <;> rfl

/-! ## Predicates -/

/-- The signed order of words is the order of the normalized integers. -/
theorem toInt_normalize (hs : s.IsWord) (hk : s.kind = .sint) (v : Int64) :
    (s.normalize v).toInt = (s.word v).toInt := by
  rw [hs.normalize_eq, extend, if_pos hk]
  exact BitVec.toInt_signExtend_of_le hs.bits_le

/-- A predicate on integers is the predicate on their words, if a signed one is asked of a signed
type. -/
theorem holds_eq (hs : s.IsWord) {pred : IntPredicate}
    (hpred : pred = .slt ∨ pred = .sge → s.kind = .sint) (x y : Int64) :
    pred.holds s x y = pred.onWords (s.word x) (s.word y) := by
  cases pred with
  | eq =>
    rw [IntPredicate.holds, IntPredicate.onWords, Bool.eq_iff_iff, beq_iff_eq, beq_iff_eq,
      word_eq_iff]
  | ne =>
    rw [IntPredicate.holds, IntPredicate.onWords, Bool.eq_iff_iff, bne_iff_ne, bne_iff_ne, Ne, Ne,
      word_eq_iff]
  | ult | ule | ugt | uge =>
    simp [IntPredicate.holds, IntPredicate.onWords, BitVec.ult, BitVec.ule]
  | slt | sge =>
    have hk := hpred (by simp)
    simp [IntPredicate.holds, IntPredicate.onWords, BitVec.slt, BitVec.sle, hs.toInt_normalize hk]

/-! ## The machine -/

/-- The machine computes with integers of a type of `8 * width` bits as with words of that many bits.
The operands may be any 64 bits.  An operator extends the word that it gives, and fails for a division
by the word zero only.  A predicate compares the words, and normalizing extends the word. -/
theorem computes_words (hs : s.IsWord) (x y : Int64) :
    s.bits = 8 * s.width ∧
    (∀ op : BinaryOp, op.isFloat = false →
      op.apply s (.int x) (.int y) = (op.onWords (s.word x) (s.word y)).elim
        (.error .divisionByZero) (fun w => .ok (.int (s.extend w))) ∧
      (op.apply s (.int x) (.int y) = .error .divisionByZero ↔
        (op = .udiv ∨ op = .urem) ∧ s.word y = 0)) ∧
    (∀ pred : IntPredicate, (pred = .slt ∨ pred = .sge → s.kind = .sint) →
      pred.apply s (.int x) (.int y) = .ok (.bool (pred.onWords (s.word x) (s.word y)))) ∧
    s.normalize x = s.extend (s.word x) ∧
    s.normalize (s.normalize x) = s.normalize x ∧
    ∀ (op : BinaryOp) (z : Int64), op.isFloat = false →
      op.apply s (.int x) (.int y) = .ok (.int z) → s.normalize z = z := by
  refine ⟨by rw [hs.bits_eq, Nat.mul_comm], fun op hop => ⟨hs.apply_eq hop x y, ?_⟩,
    fun pred hpred => ?_, hs.normalize_eq x, normalize_normalize s x, fun op z hop hz => ?_⟩
  · rw [hs.apply_eq hop, ← BinaryOp.onWords_eq_none hop]
    cases op.onWords (s.word x) (s.word y) <;> simp
  · rw [← hs.holds_eq hpred]
    rfl
  · rw [hs.apply_eq hop] at hz
    cases hw : op.onWords (s.word x) (s.word y) with
    | none =>
      rw [hw] at hz
      cases hz
    | some w =>
      rw [hw] at hz
      cases hz
      exact hs.normalize_extend w

/-- A sum past the end of a signed type of three bytes, a divisor with bits above the type only, and a
signed comparison of data that were not normalized. -/
theorem computes_words_threeBytes :
    (⟨.sint, 3⟩ : Scalar).IsWord ∧
    BinaryOp.add.apply ⟨.sint, 3⟩ (.int 8388607) (.int 1) = .ok (.int (-8388608)) ∧
    BinaryOp.udiv.apply ⟨.sint, 3⟩ (.int 1) (.int 16777216) = .error .divisionByZero ∧
    IntPredicate.slt.apply ⟨.sint, 3⟩ (.int 8388608) (.int 8388607) = .ok (.bool true) := by
  have hs : (⟨.sint, 3⟩ : Scalar).IsWord := ⟨rfl, by decide, by decide⟩
  refine ⟨hs, ((hs.computes_words 8388607 1).2.1 .add rfl).1.trans rfl,
    ((hs.computes_words 1 16777216).2.1 .udiv rfl).2.mpr ⟨.inl rfl, rfl⟩,
    ((hs.computes_words 8388608 8388607).2.2.1 .slt fun _ => rfl).trans rfl⟩

end IsWord

end Scalar

end LoopNest
