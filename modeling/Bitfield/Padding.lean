import Bitfield.Word

/-!
How a number of bits fills whole bytes: the bytes it takes, and the bits of the last byte that are
left over as padding, of which there are fewer than eight.
-/

namespace Bitfield

/-- The fewest bytes that hold `bits` bits. -/
def byteCount (bits : Nat) : Nat :=
  (bits + 7) / 8

/-- The bits of the most significant byte that are left over. -/
def padding (bits : Nat) : Nat :=
  8 * byteCount bits - bits

/-- The padding bits of the most significant byte. -/
def paddingMask (bits : Nat) : Outcome Byte := do
  let kept ← Checked.sub 8 (padding bits)
  Word.intervalMask 8 0 (padding bits) kept

theorem eight_mul_byteCount (bits : Nat) : 8 * byteCount bits = bits + padding bits := by
  unfold padding byteCount
  omega

theorem padding_lt (bits : Nat) : padding bits < 8 := by
  unfold padding byteCount
  omega

/-- The mask of the padding never faults, and selects the bits from the first one left over on. -/
theorem paddingMask_eq (bits : Nat) :
    ∃ mask, paddingMask bits = .ok mask ∧
      ∀ j, mask.getLsbD j = (decide (8 - padding bits ≤ j) && decide (j < 8)) := by
  have hlt := padding_lt bits
  simp only [paddingMask]
  rw [Checked.sub_of_le (by omega), Outcome.ok_bind]
  obtain ⟨mask, hmask, hbits⟩ :=
    Word.intervalMask_of_sum (show 0 + padding bits + (8 - padding bits) = 8 by omega) (by decide)
  refine ⟨mask, hmask, fun j => ?_⟩
  rw [hbits, show 8 - padding bits + padding bits = 8 by omega]

end Bitfield
