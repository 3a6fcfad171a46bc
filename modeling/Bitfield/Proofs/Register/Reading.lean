import Bitfield.Field
import Bitfield.Proofs.Register.Codec

/-! What is read of a register, as a number. An interval is a quotient and a remainder of the number
in the data bits, whichever bytes it lies in. A whole register is that number, or the one that its
`n` bits stand for in two's complement: bit `n - 1` is the sign, wherever the top byte ends. -/

namespace Bitfield

namespace Register

variable {order : ByteOrder} {n : Nat}

/-- An interval that does not fit the type is refused for that first, and one that ends past the value
only then. Any other is the number in its bits, which is never taken for a negative one unless it fills
the type. It is the same whether its bounds are known in advance or not, and what a wire is given of a
register is such an interval of an unsigned byte. -/
theorem slice?_interval (hn : n < limit indexBits) (r : Register order n) (ty : IntType)
    (length offset : Nat) :
    (ty.width < length →
      r.slice? ty.width length offset = refuse (.tooManyBits length ty.width)) ∧
    (length ≤ ty.width → n < offset + length →
      r.slice? ty.width length offset = refuse (.intervalOutOfRange length offset n)) ∧
    (length ≤ ty.width → offset + length ≤ n → ∃ x : ty.Value,
      r.slice? ty.width length offset = .ok x ∧
      x.toNat = r.value / 2 ^ offset % 2 ^ length ∧
      (length < ty.width → ty.toInt x = x.toNat)) ∧
    (∀ (hlength : length ≤ ty.width) (hend : length + offset ≤ n),
      r.slice ty.width length offset hlength hend = r.slice? ty.width length offset) ∧
    ReadableField.read r ⟨length, offset⟩ =
      (r.slice? (IntType.width ⟨.w8, false⟩) length offset, r) := by
  have hwithin := intervalWithin_iff hn length offset
  refine ⟨r.slice?_of_lt offset, ?_, ?_, ?_, rfl⟩
  · intro hlength hpast
    exact r.slice?_of_not_within hlength (mt hwithin.1 (Nat.not_le.2 hpast))
  · intro hlength hend
    obtain ⟨x, hx, hvalue⟩ := r.extract_toNat hlength (hwithin.2 hend)
    refine ⟨x, ?_, hvalue, ?_⟩
    · rw [r.slice?_of_within hlength (hwithin.2 hend), hx]
    · intro hless
      have hbelowSign : 2 * x.toNat < 2 ^ ty.width :=
        calc 2 * x.toNat
            < 2 * 2 ^ length := by
              have := Nat.mod_lt (r.value / 2 ^ offset) (Nat.two_pow_pos length)
              omega
          _ = 2 ^ (length + 1) := by rw [Nat.pow_succ, Nat.mul_comm]
          _ ≤ 2 ^ ty.width := Nat.pow_le_pow_right Nat.two_pos hless
      exact Word.number_of_two_mul_lt ty.signed hbelowSign
  · intro hlength hend
    rw [r.slice?_of_within hlength (hwithin.2 (by omega))]
    rfl

/-- Eight bits that lie in two bytes, read as a signed byte; one bit more than there are; and an end
that is no index. -/
theorem slice?_interval_straddling :
    12 < limit indexBits ∧
    (∃ x : IntType.Value ⟨.w8, true⟩,
      (⟨⟨#[0xFA, 0xD7]⟩, rfl⟩ : Register .big 12).slice? 8 8 3 = .ok x ∧ x.toNat = 0x5A) ∧
    (⟨⟨#[0xFA, 0xD7]⟩, rfl⟩ : Register .big 12).slice? 16 10 3 =
      refuse (.intervalOutOfRange 10 3 12) ∧
    (⟨⟨#[0xFA, 0xD7]⟩, rfl⟩ : Register .big 12).slice? 8 1 (limit indexBits - 1) =
      refuse (.intervalOutOfRange 1 (limit indexBits - 1) 12) ∧
    (⟨⟨#[0xFA, 0xD7]⟩, rfl⟩ : Register .big 12).slice? 8 9 12 = refuse (.tooManyBits 9 8) := by
  have hn : 12 < limit indexBits := by decide
  obtain ⟨-, -, hinside, -⟩ :=
    slice?_interval hn (⟨⟨#[0xFA, 0xD7]⟩, rfl⟩ : Register .big 12) ⟨.w8, true⟩ 8 3
  obtain ⟨-, hpast, -⟩ :=
    slice?_interval hn (⟨⟨#[0xFA, 0xD7]⟩, rfl⟩ : Register .big 12) ⟨.w16, false⟩ 10 3
  obtain ⟨-, hoverflow, -⟩ := slice?_interval hn (⟨⟨#[0xFA, 0xD7]⟩, rfl⟩ : Register .big 12)
    ⟨.w8, false⟩ 1 (limit indexBits - 1)
  obtain ⟨hwide, -⟩ :=
    slice?_interval hn (⟨⟨#[0xFA, 0xD7]⟩, rfl⟩ : Register .big 12) ⟨.w8, false⟩ 9 12
  obtain ⟨x, hx, hvalue, -⟩ := hinside (by decide) (by decide)
  exact ⟨hn, ⟨x, hx, hvalue.trans (by decide)⟩, hpast (by decide) (by decide),
    hoverflow (by decide) (by decide), hwide (by decide)⟩

/-- The whole of a register is read as the number in its data bits by an unsigned type. A signed one
reads what these bits stand for in two's complement, by the sign in the top one of them. -/
theorem read_number (r : Register order n) (ty : IntType) (h : n ≤ ty.width) :
    ∃ y, r.read ty h = .ok y ∧
      (ty.signed = false → ty.toInt y = r.value) ∧
      (ty.signed = true →
        ty.toInt y = (BitVec.ofNat n r.value).toInt ∧
        (n = 0 ∨ r.value < 2 ^ (n - 1) → ty.toInt y = r.value) ∧
        (¬ (n = 0 ∨ r.value < 2 ^ (n - 1)) → ty.toInt y = (r.value : Int) - 2 ^ n)) := by
  obtain ⟨y, hy, hnumber⟩ := r.read_eq ty h
  refine ⟨y, hy, ?_, ?_⟩
  · intro hsigned
    have hvalue : (BitVec.ofNat n r.value).toNat = r.value := by
      rw [BitVec.toNat_ofNat, Nat.mod_eq_of_lt r.value_lt]
    rw [hnumber, hsigned, Word.number, if_neg Bool.false_ne_true, hvalue]
  · intro hsigned
    have hint : ty.toInt y = (BitVec.ofNat n r.value).toInt := by
      rw [hnumber, hsigned, Word.number, if_pos rfl]
    rw [hint]
    exact ⟨rfl, Word.toInt_ofNat_cases r.value_lt⟩

/-- Twelve bits with the sign set below a padding that is not, and eight bits read as a signed byte. -/
theorem read_number_twelve :
    12 ≤ IntType.width ⟨.w16, true⟩ ∧
    (∃ y, (⟨⟨#[0x0C, 0xAE]⟩, rfl⟩ : Register .big 12).read ⟨.w16, true⟩ (by decide) = .ok y ∧
      IntType.toInt ⟨.w16, true⟩ y = -850) ∧
    ∃ y, (⟨⟨#[0x80]⟩, rfl⟩ : Register .little 8).read ⟨.w8, true⟩ (by decide) = .ok y ∧
      IntType.toInt ⟨.w8, true⟩ y = -128 := by
  obtain ⟨y, hy, -, hsigned⟩ :=
    read_number (⟨⟨#[0x0C, 0xAE]⟩, rfl⟩ : Register .big 12) ⟨.w16, true⟩ (by decide)
  obtain ⟨z, hz, -, hsigned'⟩ :=
    read_number (⟨⟨#[0x80]⟩, rfl⟩ : Register .little 8) ⟨.w8, true⟩ (by decide)
  refine ⟨by decide, ⟨y, hy, ?_⟩, z, hz, ?_⟩
  · rw [(hsigned rfl).2.2 (by decide)]
    decide
  · rw [(hsigned' rfl).2.2 (by decide)]
    decide

end Register

end Bitfield
