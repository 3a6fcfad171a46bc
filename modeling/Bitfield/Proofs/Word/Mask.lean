import Bitfield.Proofs.IntType

/-! Masks, and bits moved to either end of a word. The mask of an interval has the bits of the interval
and no others, and parts that do not cover the word exactly are a fault. Moving the lowest bits to the
top is a remainder and a product, moving the highest bits to the bottom is a quotient, for signed words
too, and one after the other keeps the bits of a mask. -/

namespace Bitfield

namespace Word

variable {w count : Nat}

theorem intervalMask_fault_iff {left middle right : Nat}
    (hrange : left + middle + right < limit countBits) (hw : w < limit countBits) :
    intervalMask w left middle right = fault .maskParts ↔ left + middle + right ≠ w := by
  refine ⟨fun hfault hsum => ?_, fun hsum => intervalMask_of_sum_ne hsum hrange⟩
  obtain ⟨mask, hmask, -⟩ := intervalMask_of_sum hsum hw
  rw [hmask] at hfault
  cases hfault

theorem toNat_shiftLeft_sub (x : BitVec w) (h : count ≤ w) :
    (x <<< (w - count)).toNat = x.toNat % 2 ^ count * 2 ^ (w - count) := by
  have hsplit : 2 ^ w = 2 ^ count * 2 ^ (w - count) := by rw [← Nat.pow_add, Nat.add_sub_cancel' h]
  rw [BitVec.toNat_shiftLeft, Nat.shiftLeft_eq, hsplit, Nat.mul_mod_mul_right]

theorem toNat_ushiftRight_sub (x : BitVec w) (count : Nat) :
    (x >>> (w - count)).toNat = x.toNat / 2 ^ (w - count) := by
  rw [BitVec.toNat_ushiftRight, Nat.shiftRight_eq_div_pow]

/-- The lowest bits, moved to the top and back, are what is left of the word. -/
theorem shiftLeft_ushiftRight_eq_and {x mask : BitVec w} (h : count ≤ w)
    (hmask : ∀ j < w, mask.getLsbD j = decide (j < count)) :
    x <<< (w - count) >>> (w - count) = x &&& mask := by
  apply BitVec.eq_of_getLsbD_eq
  intro j hj
  rw [BitVec.getLsbD_ushiftRight, BitVec.getLsbD_shiftLeft, BitVec.getLsbD_and, hmask j hj,
    Nat.add_sub_cancel_left]
  by_cases hlow : j < count
  · have htop : w - count + j < w := by omega
    simp [hlow, htop]
  · have htop : ¬ w - count + j < w := by omega
    simp [hlow, htop]

theorem ushiftRight_shiftLeft_eq_and {x mask : BitVec w}
    (hmask : ∀ j < w, mask.getLsbD j = decide (w - count ≤ j)) :
    x >>> (w - count) <<< (w - count) = x &&& mask := by
  apply BitVec.eq_of_getLsbD_eq
  intro j hj
  rw [BitVec.getLsbD_shiftLeft, BitVec.getLsbD_ushiftRight, BitVec.getLsbD_and, hmask j hj]
  by_cases hlow : j < w - count
  · have hcleared : ¬ w - count ≤ j := Nat.not_le.2 hlow
    rw [decide_eq_true hlow, decide_eq_false hcleared, Bool.and_false]
    simp
  · have hplace : w - count + (j - (w - count)) = j := by omega
    rw [hplace]
    simp [hj, hlow, Nat.le_of_not_lt hlow]

end Word

namespace IntType

/-- A mask has exactly the bits of its middle part, and there is none for parts that do not cover the
type. Bits that are moved to an end of a word keep their order and nothing else is left of the word, so
that moving them there and back is what a mask selects. -/
theorem intervalMask_justify (ty : IntType) :
    (∀ left middle right, left + middle + right = ty.width → ∃ mask : ty.Value,
      Word.intervalMask ty.width left middle right = .ok mask ∧
      ∀ j, mask.getLsbD j = decide (right ≤ j ∧ j < right + middle)) ∧
    (∀ left middle right, left + middle + right < limit countBits →
      (Word.intervalMask ty.width left middle right = fault .maskParts ↔
        left + middle + right ≠ ty.width)) ∧
    ∀ (x : ty.Value) (n : Nat), n ≤ ty.width → ∃ top bottom low high : ty.Value,
      Word.justifyLeft x n = .ok top ∧ top.toNat = x.toNat % 2 ^ n * 2 ^ (ty.width - n) ∧
      Word.justifyRight x n = .ok bottom ∧ bottom.toNat = x.toNat / 2 ^ (ty.width - n) ∧
      Word.intervalMask ty.width (ty.width - n) n 0 = .ok low ∧
      Word.justifyRight top n = .ok (x &&& low) ∧
      Word.intervalMask ty.width 0 n (ty.width - n) = .ok high ∧
      Word.justifyLeft bottom n = .ok (x &&& high) := by
  refine ⟨fun left middle right hsum => ?_, fun left middle right hrange =>
    Word.intervalMask_fault_iff hrange ty.width_lt, fun x n hn => ?_⟩
  · obtain ⟨mask, hmask, hbits⟩ := Word.intervalMask_of_sum hsum ty.width_lt
    exact ⟨mask, hmask, fun j => by rw [hbits, Bool.decide_and]⟩
  · obtain ⟨low, hlow, hlowBits⟩ :=
      Word.intervalMask_of_sum (show ty.width - n + n + 0 = ty.width by omega) ty.width_lt
    obtain ⟨high, hhigh, hhighBits⟩ :=
      Word.intervalMask_of_sum (show 0 + n + (ty.width - n) = ty.width by omega) ty.width_lt
    have hback : x <<< (ty.width - n) >>> (ty.width - n) = x &&& low := by
      apply Word.shiftLeft_ushiftRight_eq_and hn
      intro j _
      rw [hlowBits, decide_eq_true (Nat.zero_le j), Bool.true_and, Nat.zero_add]
    have hforth : x >>> (ty.width - n) <<< (ty.width - n) = x &&& high := by
      apply Word.ushiftRight_shiftLeft_eq_and
      intro j hj
      have htop : j < ty.width - n + n := by omega
      rw [hhighBits, decide_eq_true htop, Bool.and_true]
    refine ⟨x <<< (ty.width - n), x >>> (ty.width - n), low, high, Word.justifyLeft_of_le x hn,
      Word.toNat_shiftLeft_sub x hn, Word.justifyRight_of_le x hn, Word.toNat_ushiftRight_sub x n, hlow,
      ?_, hhigh, ?_⟩
    · rw [Word.justifyRight_of_le _ hn, hback]
    · rw [Word.justifyLeft_of_le _ hn, hforth]

/-- Three bits in the middle of a byte, parts that leave some of it out, and the three bits at either
end of a negative one. -/
theorem intervalMask_justify_negative :
    1 + 3 + 4 = width ⟨.w8, true⟩ ∧
    (∃ mask : Value ⟨.w8, true⟩, Word.intervalMask 8 1 3 4 = .ok mask ∧
      mask.getLsbD 3 = false ∧ mask.getLsbD 4 = true) ∧
    1 + 1 + 1 < limit countBits ∧ Word.intervalMask 8 1 1 1 = fault .maskParts ∧
    3 ≤ width ⟨.w8, true⟩ ∧
    ∃ top bottom : Value ⟨.w8, true⟩,
      Word.justifyLeft 0x95 3 = .ok top ∧ top.toNat = 0xA0 ∧
      Word.justifyRight 0x95 3 = .ok bottom ∧ bottom.toNat = 4 := by
  obtain ⟨hmask, hfault, hjustify⟩ := intervalMask_justify ⟨.w8, true⟩
  obtain ⟨mask, hok, hbits⟩ := hmask 1 3 4 rfl
  obtain ⟨top, bottom, -, -, htop, htopValue, hbottom, hbottomValue, -⟩ :=
    hjustify 0x95 3 (by decide)
  exact ⟨rfl, ⟨mask, hok, hbits 3, hbits 4⟩, by decide, (hfault 1 1 1 (by decide)).2 (by decide),
    by decide, top, bottom, htop, htopValue, hbottom, hbottomValue⟩

end IntType

end Bitfield
