import Bitfield.Word
import Mathlib.Data.Int.ModEq

/-! Words as numbers. A word goes on without end above its top bit, with its sign if it is signed and
with zeros otherwise, and the number that it stands for has these bits in every width. A number in the
range of `n` bits is found again in them. Sign extension repeats the top one of the bits it keeps. -/

namespace Bitfield.Word

variable {w n : Nat} {v : Int}

def number (signed : Bool) (x : BitVec w) : Int :=
  if signed then x.toInt else x.toNat

/-- The numbers that words of `n` bits stand for. -/
def InRange (signed : Bool) (n : Nat) (v : Int) : Prop :=
  if signed then -(2 : Int) ^ n ≤ 2 * v ∧ 2 * v < 2 ^ n else 0 ≤ v ∧ v < 2 ^ n

instance (signed : Bool) (n : Nat) (v : Int) : Decidable (InRange signed n v) :=
  inferInstanceAs (Decidable (if signed then _ else _))

/-- Bit `j` of a word that goes on without end. -/
def bit (signed : Bool) (x : BitVec w) (j : Nat) : Bool :=
  if j < w then x.getLsbD j else signed && x.msb

theorem bit_of_lt (signed : Bool) (x : BitVec w) {j : Nat} (h : j < w) :
    bit signed x j = x.getLsbD j :=
  if_pos h

theorem ofInt_number (signed : Bool) (x : BitVec w) : BitVec.ofInt w (number signed x) = x := by
  cases signed with
  | true => exact BitVec.ofInt_toInt
  | false => exact (BitVec.ofNat_toNat w x).trans (BitVec.setWidth_eq x)

theorem number_inRange (signed : Bool) (x : BitVec w) : InRange signed w (number signed x) := by
  cases signed with
  | true => exact ⟨BitVec.le_two_mul_toInt, BitVec.two_mul_toInt_lt⟩
  | false =>
      have hlt : (x.toNat : Int) < 2 ^ w := by exact_mod_cast x.isLt
      exact ⟨Int.natCast_nonneg _, hlt⟩

theorem InRange.mono {signed : Bool} {m : Nat} (h : InRange signed n v) (hle : n ≤ m) :
    InRange signed m v := by
  have hpow : (2 : Int) ^ n ≤ 2 ^ m := by exact_mod_cast Nat.pow_le_pow_right Nat.two_pos hle
  cases signed with
  | true => exact ⟨Int.le_trans (Int.neg_le_neg hpow) h.1, Int.lt_of_lt_of_le h.2 hpow⟩
  | false => exact ⟨h.1, Int.lt_of_lt_of_le h.2 hpow⟩

theorem inRange_zero_iff (signed : Bool) : InRange signed 0 v ↔ v = 0 := by
  cases signed with
  | true =>
      rw [InRange, if_pos rfl, pow_zero]
      omega
  | false =>
      rw [InRange, if_neg Bool.false_ne_true, pow_zero]
      omega

theorem inRange_succ_iff : InRange true (n + 1) v ↔ -(2 : Int) ^ n ≤ v ∧ v < 2 ^ n := by
  rw [InRange, if_pos rfl, pow_succ]
  omega

theorem number_eq_zero_iff (signed : Bool) (x : BitVec w) : number signed x = 0 ↔ x = 0 := by
  constructor
  · intro h
    rw [← ofInt_number signed x, h]
    rfl
  · rintro rfl
    cases signed with
    | true => exact BitVec.toInt_zero
    | false => rfl

theorem number_ofInt_of_inRange {signed : Bool} (h : InRange signed n v) :
    number signed (BitVec.ofInt n v) = v := by
  cases signed with
  | true =>
      obtain ⟨hlow, hhigh⟩ := h
      have hbmod : v.bmod (2 ^ n) = v := by
        apply Int.bmod_eq_of_le_mul_two
        · push_cast
          omega
        · push_cast
          omega
      exact BitVec.toInt_ofInt v |>.trans hbmod
  | false =>
      obtain ⟨hlow, hhigh⟩ := h
      have hmod : v % (2 ^ n : Nat) = v := Int.emod_eq_of_lt hlow (by exact_mod_cast hhigh)
      have htoNat : (BitVec.ofInt n v).toNat = v.toNat := by rw [BitVec.toNat_ofInt, hmod]
      exact (congrArg Nat.cast htoNat).trans (Int.toNat_of_nonneg hlow)

theorem natCast_toNat_ofInt (n : Nat) (v : Int) : ((BitVec.ofInt n v).toNat : Int) = v % 2 ^ n := by
  have hnonneg : 0 ≤ v % (2 ^ n : Nat) := Int.emod_nonneg v (by exact_mod_cast (Nat.two_pow_pos n).ne')
  rw [BitVec.toNat_ofInt, Int.toNat_of_nonneg hnonneg]
  push_cast
  rfl

/-- Whatever its range, a number is congruent to that of its lowest `n` bits. -/
theorem number_ofInt_modEq (signed : Bool) (n : Nat) (v : Int) :
    number signed (BitVec.ofInt n v) ≡ v [ZMOD 2 ^ n] := by
  cases signed with
  | true =>
      have h := Int.bmod_emod (x := v) (m := 2 ^ n)
      rw [← BitVec.toInt_ofInt] at h
      exact_mod_cast h
  | false =>
      have h := Int.mod_modEq v (2 ^ n)
      rwa [← natCast_toNat_ofInt] at h

/-- The number of a word has the bits of the word in every width. -/
theorem getLsbD_ofInt_number (signed : Bool) (x : BitVec w) {m j : Nat} (hj : j < m) :
    (BitVec.ofInt m (number signed x)).getLsbD j = bit signed x j := by
  cases signed with
  | true =>
      have h := BitVec.getLsbD_signExtend x (v := m) (i := j)
      rw [decide_eq_true hj, Bool.true_and] at h
      exact h
  | false =>
      have h : BitVec.ofInt m (number false x) = x.setWidth m := BitVec.ofNat_toNat m x
      rw [h, BitVec.getLsbD_setWidth, decide_eq_true hj, Bool.true_and, bit]
      split
      · rfl
      · rename_i hw
        exact BitVec.getLsbD_of_ge x j (Nat.le_of_not_lt hw)

theorem justifyLeft_of_le (x : BitVec w) {count : Nat} (h : count ≤ w) :
    justifyLeft x count = .ok (x <<< (w - count)) := by
  rw [justifyLeft, Checked.sub_of_le h, Outcome.ok_bind, shiftUp_eq]

theorem justifyRight_of_le (x : BitVec w) {count : Nat} (h : count ≤ w) :
    justifyRight x count = .ok (x >>> (w - count)) := by
  rw [justifyRight, Checked.sub_of_le h, Outcome.ok_bind, shiftDown_eq]

section SignExtend

variable {count : Nat} {high : BitVec w}

/-- The sign of the lowest `count` bits, where `high` has the bits above them. -/
theorem and_signAndHigh (x : BitVec w) (hpos : 0 < count) (hcount : count ≤ w)
    (hhigh : ∀ j < w, high.getLsbD j = decide (count ≤ j)) :
    x &&& BitVec.allOnes w <<< (count - 1) &&& ~~~high = x &&& (1 : BitVec w) <<< (count - 1) := by
  apply BitVec.eq_of_getLsbD_eq
  intro j hj
  rw [BitVec.getLsbD_and, BitVec.getLsbD_and, BitVec.getLsbD_and, BitVec.getLsbD_not, hhigh j hj,
    getLsbD_one_shiftLeft (by omega), BitVec.getLsbD_shiftLeft, BitVec.getLsbD_allOnes]
  rcases Nat.lt_trichotomy j (count - 1) with hlow | rfl | habove
  · simp [hlow, Nat.ne_of_lt hlow]
  · have hw : 0 < w := Nat.lt_of_lt_of_le hpos hcount
    have hlast : ¬ count ≤ count - 1 := by omega
    simp [hj, hw, hlast]
  · have hcleared : count ≤ j := Nat.le_of_pred_lt habove
    simp [Nat.ne_of_gt habove, hcleared]

theorem getLsbD_signExtend_setWidth (x : BitVec w) (hpos : 0 < count) {j : Nat} (hj : j < w) :
    ((x.setWidth count).signExtend w).getLsbD j =
      if j < count then x.getLsbD j else x.getLsbD (count - 1) := by
  rw [BitVec.getLsbD_signExtend, decide_eq_true hj, Bool.true_and, BitVec.msb_setWidth,
    decide_eq_true hpos, Bool.true_and]
  by_cases hlow : j < count
  · rw [if_pos hlow, if_pos hlow, BitVec.getLsbD_setWidth, decide_eq_true hlow, Bool.true_and]
  · rw [if_neg hlow, if_neg hlow]

/-- Setting or clearing the bits above the lowest `count` as their sign says extends them. -/
theorem signExtend_setWidth (x : BitVec w) (hpos : 0 < count)
    (hhigh : ∀ j < w, high.getLsbD j = decide (count ≤ j)) :
    (x.setWidth count).signExtend w =
      if x.getLsbD (count - 1) then x ||| high else x &&& ~~~high := by
  apply BitVec.eq_of_getLsbD_eq
  intro j hj
  rw [getLsbD_signExtend_setWidth x hpos hj]
  cases hsign : x.getLsbD (count - 1) with
  | true =>
      rw [if_pos rfl, BitVec.getLsbD_or, hhigh j hj]
      by_cases hlow : j < count
      · simp [hlow]
      · simp [hlow, Nat.le_of_not_lt hlow]
  | false =>
      rw [if_neg Bool.false_ne_true, BitVec.getLsbD_and, BitVec.getLsbD_not, hhigh j hj]
      by_cases hlow : j < count
      · simp [hj, hlow]
      · simp [hlow, Nat.le_of_not_lt hlow]

/-- The lowest `count` bits of a word are extended by the top one of them. -/
theorem signExtend_eq (x : BitVec w) (hpos : 0 < count) (hcount : count ≤ w)
    (hw : w < limit countBits) : signExtend x count = .ok ((x.setWidth count).signExtend w) := by
  rcases Nat.lt_or_eq_of_le hcount with hlt | rfl
  · have hsum : 0 + (w - count) + count = w := by omega
    have hlast : count - 1 < w := by omega
    obtain ⟨high, hmask, hbits⟩ := intervalMask_of_sum hsum hw
    have hhigh : ∀ j < w, high.getLsbD j = decide (count ≤ j) := by
      intro j hj
      have htop : j < count + (w - count) := by omega
      rw [hbits, decide_eq_true htop, Bool.and_true]
    have hsign := bit_ne_zero x hlast
    rw [signExtend, if_neg (by omega), Checked.sub_of_le hcount, Outcome.ok_bind, hmask,
      Outcome.ok_bind, Checked.sub_of_le hpos, Outcome.ok_bind,
      Checked.shiftLeft_of_lt _ (by omega), Outcome.ok_bind, and_signAndHigh x hpos hcount hhigh,
      signExtend_setWidth x hpos hhigh, ← hsign]
    by_cases hzero : x &&& (1 : BitVec w) <<< (count - 1) = 0
    · rw [if_neg (not_not.2 hzero), if_neg (by simpa using hzero)]
    · rw [if_pos hzero, if_pos (bne_iff_ne.2 hzero)]
  · rw [signExtend, if_pos (Or.inr (Nat.le_refl _)), BitVec.setWidth_eq, BitVec.signExtend_eq]

end SignExtend

/-- A word whose top bit is clear stands for the same number with and without a sign. -/
theorem number_of_two_mul_lt (signed : Bool) {x : BitVec w}
    (h : 2 * x.toNat < 2 ^ w) : number signed x = x.toNat := by
  cases signed with
  | true => exact BitVec.toInt_eq_toNat_of_lt h
  | false => rfl

/-- The number of a signed word, by its top bit. -/
theorem toInt_ofNat_cases {v : Nat} (h : v < 2 ^ n) :
    (n = 0 ∨ v < 2 ^ (n - 1) → (BitVec.ofNat n v).toInt = v) ∧
    (¬ (n = 0 ∨ v < 2 ^ (n - 1)) → (BitVec.ofNat n v).toInt = (v : Int) - 2 ^ n) := by
  have hvalue : (BitVec.ofNat n v).toNat = v := by
    rw [BitVec.toNat_ofNat, Nat.mod_eq_of_lt h]
  rw [BitVec.toInt_eq_toNat_cond, hvalue]
  cases n with
  | zero => simp_all
  | succ n =>
      have hdouble : 2 ^ (n + 1) = 2 * 2 ^ n := by rw [Nat.pow_succ, Nat.mul_comm]
      simp only [Nat.succ_ne_zero, false_or, Nat.add_sub_cancel]
      constructor
      · intro hlow
        rw [if_pos (by omega)]
      · intro hhigh
        rw [if_neg (by omega)]
        push_cast
        rfl

end Bitfield.Word
