import Bitfield.Proofs.Justification
import Bitfield.Proofs.Wire.Delivery

/-! Packing and unpacking against justification. A register that shares a wire of its own size with
nothing but its padding lies on it as justification leaves it: at the start if the padding follows, at
the end if the padding precedes. -/

namespace Bitfield.Wire

variable {n : Nat}

theorem eq_data_of_value {wire : Array Byte} {b : Buffer .big} (hsize : wire.size = b.size)
    (h : value wire = b.value) : wire = b.data :=
  value_injective hsize h

/-- The first `n` bits of a wire are the number that a bit string reads in it. -/
theorem slice_eq_string (s : BitString n) : slice s.bytes.data 0 n = s.value := by
  have hsize : s.bytes.data.size = byteCount n := s.size_eq
  have hbytes := eight_mul_byteCount n
  have hbelow : 8 * s.bytes.data.size - (0 + n) = padding n := by omega
  have hvalue : value s.bytes.data / 2 ^ padding n = s.value := rfl
  rw [slice, hbelow, hvalue, Nat.mod_eq_of_lt s.value_lt]

section Packing

variable (x : Register .big n) {z : AnyRegister} (hwidth : z.width = padding n)
  (hzero : z.register.value = 0) {wire : Array Byte} (hsize : wire.size = byteCount n)
  (hindex : 8 * byteCount n < limit indexBits)

include hwidth hzero hsize hindex

/-- A register packed in front of its padding. -/
theorem pack_before_padding :
    (pack wire [⟨.big, n, x⟩, z]).outcome = .ok () ∧
      (pack wire [⟨.big, n, x⟩, z]).wire.size = byteCount n ∧
      value (pack wire [⟨.big, n, x⟩, z]).wire = x.value * 2 ^ padding n := by
  have hcount : bitCount [(⟨.big, n, x⟩ : AnyRegister), z] = 8 * wire.size := by
    rw [hsize, eight_mul_byteCount, ← hwidth]
    rfl
  have hrest : bitCount [z] = padding n := hwidth
  obtain ⟨houtcome, -, hwire, hvalue⟩ := pack_of_bitCount_eq wire _ hcount (by rwa [hsize])
  refine ⟨houtcome, by rw [hwire, hsize], ?_⟩
  rw [hvalue, concatenation, hrest, concatenation, hzero, Nat.zero_mul]
  rfl

/-- A register packed behind its padding. -/
theorem pack_after_padding :
    (pack wire [z, ⟨.big, n, x⟩]).outcome = .ok () ∧
      (pack wire [z, ⟨.big, n, x⟩]).wire.size = byteCount n ∧
      value (pack wire [z, ⟨.big, n, x⟩]).wire = x.value := by
  have hcount : bitCount [z, (⟨.big, n, x⟩ : AnyRegister)] = 8 * wire.size := by
    rw [hsize, eight_mul_byteCount, Nat.add_comm, ← hwidth]
    rfl
  obtain ⟨houtcome, -, hwire, hvalue⟩ := pack_of_bitCount_eq wire _ hcount (by rwa [hsize])
  refine ⟨houtcome, by rw [hwire, hsize], ?_⟩
  rw [hvalue, concatenation, hzero, Nat.zero_mul, Nat.zero_add, concatenation, bitCount, pow_zero,
    Nat.mul_one]
  rfl

end Packing

/-- A register with clear padding takes the first `n` bits of a wire as a bit string moves them to
the end. -/
theorem unpack_before_padding (s : BitString n) (hindex : 8 * byteCount n < limit indexBits)
    (y : Register .big n) (hclear : ∀ j ≥ n, y.bytes.value.testBit j = false) {w : AnyRegister}
    (hwidth : w.width = padding n) :
    ∃ (r : Register .big n) (v : AnyRegister),
      (unpack s.bytes.data [⟨.big, n, y⟩, w]).outcome = .ok () ∧
      (unpack s.bytes.data [⟨.big, n, y⟩, w]).fields = [⟨.big, n, r⟩, v] ∧
      r.bytes.value = s.value := by
  have hsize : s.bytes.data.size = byteCount n := s.size_eq
  have hcount : bitCount [(⟨.big, n, y⟩ : AnyRegister), w] = 8 * s.bytes.data.size := by
    rw [hsize, eight_mul_byteCount, ← hwidth]
    rfl
  obtain ⟨houtcome, hdelivered⟩ := unpack_of_bitCount_eq s.bytes.data _ hcount (by rwa [hsize])
  generalize hafter : (unpack s.bytes.data [⟨.big, n, y⟩, w]).fields = after at hdelivered
  cases hdelivered with
  | cons hhead htail =>
      cases htail with
      | cons _ hnil =>
          cases hnil
          obtain ⟨r, rfl, hvalue, hpadding⟩ := hhead
          refine ⟨r, _, houtcome, rfl, ?_⟩
          rw [slice_eq_string] at hvalue
          rw [← hvalue, r.bytes_value_eq_iff]
          intro j hj
          rw [hpadding j hj, hclear j hj]

/-- Packing a register with zeros behind it or before it stores the bytes that justification makes of
it, and unpacking the bytes of a bit string into a register fills it as justification does. -/
theorem transfer_eq_justification (hindex : 8 * byteCount n < limit indexBits) :
    (∀ (x : Register .big n) (z : AnyRegister) (wire : Array Byte), z.width = padding n →
      z.register.value = 0 → wire.size = byteCount n →
      ∃ (p : BitString n) (y : Register .big n),
        x.leftJustify = .ok p ∧ p.rightJustify = .ok y ∧
        (pack wire [⟨.big, n, x⟩, z]).outcome = .ok () ∧
        (pack wire [⟨.big, n, x⟩, z]).wire = p.bytes.data ∧
        (pack wire [z, ⟨.big, n, x⟩]).outcome = .ok () ∧
        (pack wire [z, ⟨.big, n, x⟩]).wire = y.bytes.data) ∧
    (∀ (q : Array Byte) (y : Register .big n) (w : AnyRegister), q.size = byteCount n →
      (∀ j ≥ n, y.bytes.value.testBit j = false) → w.width = padding n →
      ∃ (s : BitString n) (r : Register .big n) (v : AnyRegister),
        BitString.ofArray n q = .ok s ∧ s.rightJustify = .ok r ∧
        (unpack q [⟨.big, n, y⟩, w]).outcome = .ok () ∧
        (unpack q [⟨.big, n, y⟩, w]).fields = [⟨.big, n, r⟩, v]) := by
  have hn : n < limit indexBits := by
    have := eight_mul_byteCount n
    omega
  constructor
  · intro x z wire hwidth hzero hsize
    obtain ⟨p, hp, hpbytes⟩ := x.leftJustify_eq
    obtain ⟨y, hy, hybytes⟩ := p.rightJustify_eq hn
    rw [BitString.value_of_bytes hpbytes] at hybytes
    obtain ⟨hbefore, hbeforeSize, hbeforeValue⟩ := pack_before_padding x hwidth hzero hsize hindex
    obtain ⟨hafter, hafterSize, hafterValue⟩ := pack_after_padding x hwidth hzero hsize hindex
    refine ⟨p, y, hp, hy, hbefore, ?_, hafter, ?_⟩
    · exact eq_data_of_value (hbeforeSize.trans p.size_eq.symm) (hbeforeValue.trans hpbytes.symm)
    · exact eq_data_of_value (hafterSize.trans y.size_eq.symm) (hafterValue.trans hybytes.symm)
  · intro q y w hsize hclear hwidth
    obtain ⟨r, hr, hrbytes⟩ := (⟨⟨q⟩, hsize⟩ : BitString n).rightJustify_eq hn
    obtain ⟨t, v, houtcome, hfields, htbytes⟩ :=
      unpack_before_padding (⟨⟨q⟩, hsize⟩ : BitString n) hindex y hclear hwidth
    have htr : t = r := Register.eq_of_bytes_value (htbytes.trans hrbytes.symm)
    rw [htr] at hfields
    exact ⟨_, r, v, dif_pos hsize, hr, houtcome, hfields⟩

/-- Twelve bits between dirty padding, beside four zeros that store more of it. -/
theorem transfer_eq_justification_dirty :
    8 * byteCount 12 < limit indexBits ∧
    (∃ p : BitString 12, (⟨⟨#[0xFA, 0xD7]⟩, rfl⟩ : Register .big 12).leftJustify = .ok p ∧
      (pack #[0x55, 0xAA] ([⟨.big, 12, ⟨⟨#[0xFA, 0xD7]⟩, rfl⟩⟩,
        ⟨.little, 4, ⟨⟨#[0xF0]⟩, rfl⟩⟩] : List AnyRegister)).wire = p.bytes.data) ∧
    (∃ (s : BitString 12) (r : Register .big 12) (v : AnyRegister),
      BitString.ofArray 12 #[0xAD, 0x7F] = .ok s ∧ s.rightJustify = .ok r ∧
      (unpack #[0xAD, 0x7F] [⟨.big, 12, ⟨⟨#[0x05, 0x55]⟩, rfl⟩⟩,
        ⟨.little, 4, ⟨⟨#[0xF3]⟩, rfl⟩⟩]).fields = [⟨.big, 12, r⟩, v]) := by
  obtain ⟨hpack, hunpack⟩ := transfer_eq_justification (n := 12) (by decide)
  obtain ⟨p, -, hp, -, -, hwire, -⟩ := hpack ⟨⟨#[0xFA, 0xD7]⟩, rfl⟩
    ⟨.little, 4, ⟨⟨#[0xF0]⟩, rfl⟩⟩ #[0x55, 0xAA] rfl (by decide) rfl
  have hclear := (⟨⟨#[0x05, 0x55]⟩, rfl⟩ : Register .big 12).bytes_value_eq_iff.1 (by decide)
  obtain ⟨s, r, v, hs, hr, -, hfields⟩ := hunpack #[0xAD, 0x7F] ⟨⟨#[0x05, 0x55]⟩, rfl⟩
    ⟨.little, 4, ⟨⟨#[0xF3]⟩, rfl⟩⟩ rfl hclear rfl
  exact ⟨by decide, ⟨p, hp, hwire⟩, s, r, v, hs, hr, hfields⟩

end Bitfield.Wire
