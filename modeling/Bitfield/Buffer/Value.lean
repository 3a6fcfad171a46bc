import Bitfield.Buffer

/-!
A buffer as a number, bit by bit: what its bits are, what replacing a byte does to them, and what
shifting bytes into a word does to the word.
-/

namespace Bitfield.Buffer

variable {order : ByteOrder}

theorem valueOf_lt (bytes : List Byte) : valueOf bytes < limit (8 * bytes.length) := by
  induction bytes with
  | nil => decide
  | cons x rest ih =>
      have := x.isLt
      rw [List.length_cons, Nat.mul_succ, limit_add_eight, valueOf]
      omega

/-- Bit `i` of the number is bit `i % 8` of byte `i / 8`. -/
theorem testBit_valueOf (bytes : List Byte) (i : Nat) :
    (valueOf bytes).testBit i = (bytes.getD (i / 8) 0).getLsbD (i % 8) := by
  induction bytes generalizing i with
  | nil => simp [valueOf]
  | cons x rest ih =>
      have hsplit : valueOf (x :: rest) = 2 ^ 8 * valueOf rest + x.toNat := by
        simp only [valueOf]
        omega
      rw [hsplit, Nat.testBit_two_pow_mul_add _ x.isLt]
      by_cases hi : i < 8
      · rw [if_pos hi, show i / 8 = 0 by omega, show i % 8 = i by omega]
        rfl
      · rw [if_neg hi, ih, show i / 8 = (i - 8) / 8 + 1 by omega, show i % 8 = (i - 8) % 8 by omega]
        rfl

theorem testBit_value (b : Buffer order) (i : Nat) :
    b.value.testBit i = (b.toList.getD (i / 8) 0).getLsbD (i % 8) :=
  testBit_valueOf b.toList i

/-- Replacing a byte changes the eight bits it holds and no other. -/
theorem testBit_value_of_set {b c : Buffer order} {index : Nat} {x : Byte}
    (hindex : index < b.toList.length) (h : c.toList = b.toList.set index x) (i : Nat) :
    c.value.testBit i = if i / 8 = index then x.getLsbD (i % 8) else b.value.testBit i := by
  rw [testBit_value, testBit_value, h, List.getD_eq_getElem?_getD, List.getD_eq_getElem?_getD]
  by_cases hi : i / 8 = index
  · rw [if_pos hi, hi, List.getElem?_set_self hindex, Option.getD_some]
  · rw [if_neg hi, List.getElem?_set_ne (Ne.symm hi)]

theorem getLsbD_getElem (b : Buffer order) {index k : Nat} (h : index < b.toList.length)
    (hk : k < 8) : b.toList[index].getLsbD k = b.value.testBit (8 * index + k) := by
  have hdiv : (8 * index + k) / 8 = index := by omega
  have hmod : (8 * index + k) % 8 = k := by omega
  rw [testBit_value, hdiv, hmod, List.getD_eq_getElem?_getD, List.getElem?_eq_getElem h,
    Option.getD_some]

/-- Shifting in the `count` bytes from byte `low` on, the most significant first, moves a word up by
as many bytes and puts the bits of the buffer from bit `8 * low` on below it. -/
theorem shiftIn_range' {w : Nat} (b : Buffer order) (start : BitVec w) (low count : Nat)
    (h : low + count ≤ b.toList.length) :
    ∃ word, b.shiftIn start (List.range' low count).reverse = .ok word ∧
      ∀ j < w, word.getLsbD j =
        if j < 8 * count then b.value.testBit (8 * low + j) else start.getLsbD (j - 8 * count) := by
  apply Word.foldlM_shiftUp
  intro word i hi
  have hbyte : low + i < b.toList.length := by omega
  refine ⟨b.toList[low + i], ?_, fun k hk => ?_⟩
  · rw [shiftInByte, byte_of_lt b hbyte, Outcome.ok_bind]
  · rw [getLsbD_getElem b hbyte hk, Nat.mul_add, Nat.add_assoc]

end Bitfield.Buffer
