import Bitfield.Proofs.IntType

/-! The bytes of an integer, as digits. Byte `i` is digit `i` of the number in base 256, where a
negative number goes on without end with the digit 255, and the bytes that are shifted into a word one
after the other give the integer back, or its lowest bits if they are too few. -/

namespace Bitfield.IntType

variable (ty : IntType) (x : ty.Value)

/-- One step of putting a value together: the bytes so far move up and byte `index` goes below them. -/
def shiftInByte (word : ty.Value) (index : Nat) : Outcome ty.Value := do
  let y ← ty.byteAt x index
  .ok (Word.shiftUp word 8 ||| ty.ofByte y)

/-- The value put together from its lowest `count` bytes, the highest of them first. -/
def rejoin (count : Nat) : Outcome ty.Value :=
  (List.range count).reverse.foldlM (ty.shiftInByte x) 0

/-- Bytes that are put together fill the lowest bits of a value. -/
theorem rejoin_eq (count : Nat) :
    ∃ word, ty.rejoin x count = .ok word ∧
      ∀ j < ty.width, word.getLsbD j = (decide (j < 8 * count) && x.getLsbD j) := by
  have hstep : ∀ word, ∀ i < count, ∃ y : Byte,
      ty.shiftInByte x word (0 + i) = .ok (Word.shiftUp word 8 ||| y.setWidth ty.width) ∧
      ∀ k < 8, y.getLsbD k = Word.bit ty.signed x (8 * i + k) := by
    intro word i _
    obtain ⟨y, hy, hbits⟩ := ty.byteAt_eq x i
    refine ⟨y, ?_, hbits⟩
    rw [Nat.zero_add, shiftInByte, hy, Outcome.ok_bind, ofByte]
  obtain ⟨word, hword, hbits⟩ := Word.foldlM_shiftUp 0 count hstep 0
  refine ⟨word, ?_, fun j hj => ?_⟩
  · rw [rejoin, List.range_eq_range', hword]
  · rw [hbits j hj, Word.bit_of_lt _ _ hj]
    by_cases hlow : j < 8 * count
    · rw [if_pos hlow, decide_eq_true hlow, Bool.true_and]
    · rw [if_neg hlow, decide_eq_false hlow, Bool.false_and]
      exact BitVec.getLsbD_zero

theorem ediv_emod_eq (v : Int) {a b : Int} (ha : 0 < a) (hb : 0 < b) :
    v / a % b = v % (a * b) / a := by
  have hpos : 0 < a * b := Int.mul_pos ha hb
  have hsplit : v / a = v % (a * b) / a + b * (v / (a * b)) := by
    rw [← Int.add_mul_ediv_left _ _ ha.ne', ← mul_assoc, Int.emod_add_mul_ediv]
  have hnonneg : 0 ≤ v % (a * b) / a := Int.ediv_nonneg (Int.emod_nonneg v hpos.ne') ha.le
  have hlt : v % (a * b) / a < b :=
    Int.ediv_lt_of_lt_mul ha (by rw [mul_comm b a]; exact Int.emod_lt_of_pos v hpos)
  rw [hsplit, Int.add_mul_emod_self_left, Int.emod_eq_of_lt hnonneg hlt]

/-- Byte `index` of an integer is that digit of its number in base 256: the top byte of as many bits of
the number as end with it. -/
theorem byteAt_number (index : Nat) :
    ∃ y, ty.byteAt x index = .ok y ∧ (y.toNat : Int) = ty.toInt x / 2 ^ (8 * index) % 256 := by
  obtain ⟨y, hy, hbits⟩ := ty.byteAt_eq x index
  refine ⟨y, hy, ?_⟩
  have htop : y.toNat = (BitVec.ofInt (8 * index + 8) (ty.toInt x)).toNat / 2 ^ (8 * index) := by
    apply Nat.eq_of_testBit_eq
    intro k
    rw [Nat.testBit_div_two_pow, BitVec.testBit_toNat, BitVec.testBit_toNat, Nat.add_comm k]
    rcases Nat.lt_or_ge k 8 with hk | hk
    · rw [hbits k hk, toInt_eq_number, Word.getLsbD_ofInt_number _ _ (by omega)]
    · rw [BitVec.getLsbD_of_ge _ _ hk, BitVec.getLsbD_of_ge _ _ (by omega)]
  have hpow : (0 : Int) < 2 ^ (8 * index) := by exact_mod_cast Nat.two_pow_pos (8 * index)
  rw [ediv_emod_eq _ hpow (by decide), htop]
  push_cast
  rw [Word.natCast_toNat_ofInt, pow_add]
  rfl

/-- Past its top an integer has the bytes of its sign alone. -/
theorem byteAt_of_width_le {index : Nat} (h : ty.width ≤ 8 * index) :
    ty.byteAt x index = .ok (if ty.toInt x < 0 then 0xFF else 0) := by
  obtain ⟨y, hy, hbits⟩ := ty.byteAt_eq x index
  rw [hy]
  apply congrArg Except.ok
  apply BitVec.eq_of_getLsbD_eq
  intro k hk
  rw [hbits k hk, ty.bit_of_le x (by omega), ty.signed_and_msb]
  by_cases hneg : ty.toInt x < 0
  · rw [if_pos hneg, decide_eq_true hneg]
    exact (BitVec.getLsbD_allOnes.trans (decide_eq_true hk)).symm
  · rw [if_neg hneg, decide_eq_false hneg]
    exact BitVec.getLsbD_zero.symm

/-- However many bytes of an integer are put together, they give its lowest bits, and all of it from
as many bytes on as the type has; those past the top leave the word again. Every byte, at any index, is
a digit of the number, with the sign for the ones that the type does not have. -/
theorem rejoin_bytes :
    (∀ count, ∃ y, ty.rejoin x count = .ok y ∧
      (8 * count < ty.width → y.toNat = x.toNat % 2 ^ (8 * count)) ∧
      (ty.width ≤ 8 * count → y = x)) ∧
    ∀ index, ∃ y, ty.byteAt x index = .ok y ∧
      (y.toNat : Int) = ty.toInt x / 2 ^ (8 * index) % 256 ∧
      (ty.width ≤ 8 * index → y = if ty.toInt x < 0 then 0xFF else 0) := by
  constructor
  · intro count
    obtain ⟨y, hy, hbits⟩ := ty.rejoin_eq x count
    refine ⟨y, hy, fun hfew => ?_, fun hall => ?_⟩
    · apply Nat.eq_of_testBit_eq
      intro j
      rw [Nat.testBit_mod_two_pow, BitVec.testBit_toNat, BitVec.testBit_toNat]
      rcases Nat.lt_or_ge j ty.width with hj | hj
      · rw [hbits j hj]
      · rw [BitVec.getLsbD_of_ge y j hj, BitVec.getLsbD_of_ge x j hj, Bool.and_false]
    · apply BitVec.eq_of_getLsbD_eq
      intro j hj
      rw [hbits j hj, decide_eq_true (Nat.lt_of_lt_of_le hj hall), Bool.true_and]
  · intro index
    obtain ⟨y, hy, hdigit⟩ := ty.byteAt_number x index
    refine ⟨y, hy, hdigit, fun hpast => ?_⟩
    rw [ty.byteAt_of_width_le x hpast] at hy
    exact (Except.ok.inj hy).symm

/-- One, two and five bytes of a negative integer of two bytes, and a byte whose first bit is no
index of a bit any more. -/
theorem rejoin_bytes_negative :
    8 * 1 < width ⟨.w16, true⟩ ∧ width ⟨.w16, true⟩ ≤ 8 * 5 ∧
    (∃ y, rejoin ⟨.w16, true⟩ 0xFDFE 1 = .ok y ∧ y.toNat = 0xFE) ∧
    rejoin ⟨.w16, true⟩ 0xFDFE 5 = .ok 0xFDFE ∧
    (∃ y, byteAt ⟨.w16, true⟩ 0xFDFE 1 = .ok y ∧ (y.toNat : Int) = 0xFD) ∧
    byteAt ⟨.w16, true⟩ 0xFDFE (limit 29) = .ok 0xFF := by
  obtain ⟨hrejoin, hbytes⟩ := rejoin_bytes ⟨.w16, true⟩ 0xFDFE
  obtain ⟨low, hlow, hfew, -⟩ := hrejoin 1
  obtain ⟨whole, hwhole, -, hall⟩ := hrejoin 5
  obtain ⟨high, hhigh, hdigit, -⟩ := hbytes 1
  obtain ⟨past, hpast, -, hsign⟩ := hbytes (limit 29)
  obtain rfl : whole = 0xFDFE := hall (by decide)
  obtain rfl : past = 0xFF := hsign (by decide)
  exact ⟨by decide, by decide, ⟨low, hlow, hfew (by decide)⟩, hwhole,
    ⟨high, hhigh, hdigit.trans (by decide)⟩, hpast⟩

end Bitfield.IntType
