import Bitfield.IntType
import Bitfield.Proofs.Word

/-! The twelve integer types, as words of their widths. Bytes are taken from a value as if it had no
top, and the check for a number of bits is exactly whether the number is in their range. -/

namespace Bitfield

theorem Size.eight_le_bits (s : Size) : 8 ≤ s.bits := by
  cases s <;> decide

namespace IntType

open Word

theorem eight_le_width (ty : IntType) : 8 ≤ ty.width :=
  ty.size.eight_le_bits

theorem width_lt (ty : IntType) : ty.width < limit countBits :=
  Nat.lt_of_le_of_lt ty.width_le (by decide)

variable (ty : IntType) (x : ty.Value)

theorem toInt_eq_number : ty.toInt x = number ty.signed x := rfl

theorem shiftRight_of_lt {count : Nat} (h : count < ty.width) :
    ∃ y, ty.shiftRight x count = .ok y ∧
      ∀ j < ty.width, y.getLsbD j = bit ty.signed x (count + j) := by
  refine ⟨_, if_pos h, ?_⟩
  intro j hj
  rw [bit]
  cases ty.signed with
  | true =>
      rw [if_pos rfl, BitVec.getLsbD_sshiftRight]
      simp [Nat.not_le.2 hj]
  | false =>
      rw [if_neg Bool.false_ne_true, BitVec.getLsbD_ushiftRight]
      split
      · rfl
      · rename_i hcount
        exact BitVec.getLsbD_of_ge x _ (Nat.le_of_not_lt hcount)

/-- Past its top a value has nothing but its sign. -/
theorem bit_of_le {j : Nat} (h : ty.width ≤ j) : bit ty.signed x j = (ty.signed && x.msb) :=
  if_neg (Nat.not_lt.2 h)

theorem signed_and_msb : (ty.signed && x.msb) = decide (ty.toInt x < 0) := by
  rw [toInt_eq_number, number]
  cases ty.signed with
  | true => exact BitVec.msb_eq_toInt
  | false => exact (decide_eq_false (Int.not_lt.2 (Int.natCast_nonneg _))).symm

theorem bit_last_add (k : Nat) :
    (bit ty.signed x (ty.width - 1 + k) && ty.signed) = (ty.signed && x.msb) := by
  have hpos := ty.width_pos
  cases k with
  | zero =>
      rw [Nat.add_zero, bit_of_lt _ _ (by omega), BitVec.msb_eq_getLsbD_last, Bool.and_comm]
  | succ k =>
      rw [bit_of_le ty x (by omega)]
      cases ty.signed <;> simp

/-- Every byte of a value, in its range or past its top. -/
theorem byteAt_eq (index : Nat) :
    ∃ y, ty.byteAt x index = .ok y ∧
      ∀ k < 8, y.getLsbD k = bit ty.signed x (8 * index + k) := by
  have hwidth := ty.eight_le_width
  have htop := ty.width_lt
  have hsaturate : saturate countBits (index * 8) < ty.width ↔ 8 * index < ty.width := by
    rw [saturate]
    omega
  by_cases hindex : 8 * index < ty.width
  · have hcount : saturate countBits (index * 8) = 8 * index := by
      rw [saturate]
      omega
    obtain ⟨low, hlow, hbits⟩ := ty.shiftRight_of_lt x hindex
    refine ⟨low.setWidth 8, ?_, ?_⟩
    · rw [byteAt]
      simp only [hcount]
      rw [if_pos hindex, hlow, Outcome.ok_bind]
    · intro k hk
      rw [BitVec.getLsbD_setWidth, decide_eq_true hk, Bool.true_and, hbits k (by omega)]
  · obtain ⟨sign, hsign, hbits⟩ := ty.shiftRight_of_lt x (Nat.sub_lt ty.width_pos Nat.one_pos)
    refine ⟨sign.setWidth 8 &&& if ty.signed then BitVec.allOnes 8 else 0, ?_, ?_⟩
    · rw [byteAt, if_neg (mt hsaturate.1 hindex), Checked.sub_of_le ty.width_pos, Outcome.ok_bind, hsign,
        Outcome.ok_bind]
    · intro k hk
      have hmask : (if ty.signed then BitVec.allOnes 8 else 0).getLsbD k = ty.signed := by
        cases ty.signed with
        | true => rw [if_pos rfl, BitVec.getLsbD_allOnes, decide_eq_true hk]
        | false =>
            rw [if_neg Bool.false_ne_true]
            exact BitVec.getLsbD_zero
      rw [BitVec.getLsbD_and, BitVec.getLsbD_setWidth, decide_eq_true hk, Bool.true_and, hmask,
        hbits k (by omega), bit_last_add, bit_of_le ty x (by omega)]

theorem ediv_eq_zero_or_neg_one_iff {v d : Int} (hd : 0 < d) :
    v / d = 0 ∨ v / d = -1 ↔ -d ≤ v ∧ v < d := by
  constructor
  · have hsplit := Int.mul_ediv_add_emod v d
    have hlow := Int.emod_nonneg v hd.ne'
    have hhigh := Int.emod_lt_of_pos v hd
    rintro (h | h)
    · rw [h] at hsplit
      omega
    · rw [h] at hsplit
      omega
  · rintro ⟨hlow, hhigh⟩
    have hle : -1 ≤ v / d := Int.le_ediv_of_mul_le hd (by omega)
    have hlt : v / d < 1 := Int.ediv_lt_of_lt_mul hd (by omega)
    omega

/-- A signed word has only its sign from bit `below` on exactly when one bit more holds its
number. -/
theorem sshiftRight_eq_iff {w : Nat} (x : BitVec w) (hw : 0 < w) (below : Nat) :
    x.sshiftRight below = 0 ∨ x.sshiftRight below = BitVec.allOnes w ↔
      InRange true (below + 1) x.toInt := by
  have hpos : (0 : Int) < 2 ^ below := by exact_mod_cast Nat.two_pow_pos below
  have hshift : (x.sshiftRight below).toInt = x.toInt / 2 ^ below := by
    rw [BitVec.toInt_sshiftRight, Int.shiftRight_eq_div_pow]
    exact_mod_cast rfl
  have hones : (BitVec.allOnes w).toInt = -1 := by rw [BitVec.toInt_allOnes, if_pos hw]
  have hzero : (x.sshiftRight below).toInt = 0 ↔ x.sshiftRight below = 0 :=
    number_eq_zero_iff true (x.sshiftRight below)
  rw [inRange_succ_iff, ← ediv_eq_zero_or_neg_one_iff hpos, ← hshift, hzero, ← hones, BitVec.toInt_inj]

theorem ushiftRight_eq_zero_iff {w : Nat} (x : BitVec w) (count : Nat) :
    x >>> count = 0 ↔ InRange false count x.toNat := by
  have hzero : x >>> count = 0 ↔ x.toNat / 2 ^ count = 0 := by
    rw [← BitVec.toNat_inj, BitVec.toNat_ushiftRight, Nat.shiftRight_eq_div_pow]
    rfl
  rw [hzero, Nat.div_eq_zero_iff_lt (Nat.two_pow_pos count), InRange, if_neg Bool.false_ne_true]
  constructor
  · intro h
    exact ⟨Int.natCast_nonneg _, by exact_mod_cast h⟩
  · rintro ⟨-, h⟩
    exact_mod_cast h

/-- The check for a number of bits never faults and says whether they hold the number. -/
theorem fits_eq (count : Nat) :
    ty.fits x count = .ok (decide (InRange ty.signed count (ty.toInt x))) := by
  rw [fits, toInt_eq_number]
  by_cases hwide : ty.width ≤ count
  · rw [if_pos hwide, decide_eq_true ((number_inRange ty.signed x).mono hwide)]
  · rw [if_neg hwide]
    by_cases hzero : count = 0
    · rw [if_pos hzero, hzero]
      apply congrArg Except.ok
      rw [Bool.eq_iff_iff, beq_iff_eq, decide_eq_true_eq, inRange_zero_iff, number_eq_zero_iff]
    · rw [if_neg hzero]
      cases hsigned : ty.signed with
      | true =>
          have hshift : ty.shiftRight x (count - 1) = .ok (x.sshiftRight (count - 1)) := by
            rw [shiftRight, if_pos (by omega), hsigned, if_pos rfl]
          have hiff := sshiftRight_eq_iff x ty.width_pos (count - 1)
          rw [Nat.sub_add_cancel (Nat.pos_of_ne_zero hzero)] at hiff
          rw [if_pos rfl, Checked.sub_of_le (Nat.pos_of_ne_zero hzero), Outcome.ok_bind, hshift,
            Outcome.ok_bind]
          apply congrArg Except.ok
          rw [Bool.eq_iff_iff, Bool.or_eq_true, beq_iff_eq, beq_iff_eq, decide_eq_true_eq, hiff]
          rfl
      | false =>
          have hshift : ty.shiftRight x count = .ok (x >>> count) := by
            rw [shiftRight, if_pos (by omega), hsigned, if_neg Bool.false_ne_true]
          rw [if_neg Bool.false_ne_true, hshift, Outcome.ok_bind]
          apply congrArg Except.ok
          rw [Bool.eq_iff_iff, beq_iff_eq, decide_eq_true_eq, ushiftRight_eq_zero_iff]
          rfl

theorem fits_true_or_false (count : Nat) :
    ty.fits x count = .ok true ∨ ty.fits x count = .ok false := by
  rw [fits_eq]
  by_cases hrange : InRange ty.signed count (ty.toInt x)
  · exact .inl (congrArg _ (decide_eq_true hrange))
  · exact .inr (congrArg _ (decide_eq_false hrange))

end IntType

end Bitfield
