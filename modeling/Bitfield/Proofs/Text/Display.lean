import Bitfield.Proofs.Justification
import Bitfield.Proofs.Text.Numeral
import Bitfield.Proofs.Wire.Value

/-! What registers, buffers and bit strings show is faithful. A register shows the binary numeral of its
number, a buffer the hexadecimal one of the number in its bytes, leading zeros included, and a bit string
its bits in the order in which they are stored. Each text determines the bits behind it, and the digits
of the bytes of a register are its padding and then its own text. -/

namespace Bitfield

namespace Buffer

variable {order : ByteOrder}

theorem valueOf_eq_sum (bytes : List Byte) :
    valueOf bytes = ∑ i : Fin bytes.length, bytes[i].toNat * 256 ^ (i : Nat) := by
  induction bytes with
  | nil => rfl
  | cons x rest ih =>
      have hsplit := Fin.sum_univ_succ fun i : Fin (rest.length + 1) =>
        (x :: rest)[i].toNat * 256 ^ (i : Nat)
      refine Eq.trans ?_ hsplit.symm
      rw [valueOf, ih, Finset.mul_sum]
      simp [pow_succ', Nat.mul_left_comm]

/-- Two hexadecimal digits a byte, the most significant byte first, are the digits of the number. -/
theorem flatMap_hexDigits (bytes : List Byte) :
    bytes.reverse.flatMap Byte.hexDigits = Numeral.digits 16 (2 * bytes.length) (valueOf bytes) := by
  induction bytes with
  | nil => rfl
  | cons x rest ih =>
      have hx := x.isLt
      have hrest : (x.toNat + 256 * valueOf rest) / 16 ^ 2 = valueOf rest := by omega
      have hlow : x.toNat = (x.toNat + 256 * valueOf rest) % 16 ^ 2 := by omega
      have hdigits : x.hexDigits = Numeral.digits 16 2 (x.toNat + 256 * valueOf rest) := by
        rw [Byte.hexDigits, hlow, Numeral.digits_mod, ← hlow]
      rw [List.reverse_cons, List.flatMap_append, List.flatMap_singleton, ih, hdigits,
        List.length_cons, Nat.mul_succ, Numeral.digits_add, valueOf, hrest]

theorem render_eq (b : Buffer order) :
    b.render = .ok ("0x" ++ String.ofList (Numeral.digits 16 (2 * b.size) b.value)) := by
  rw [render, b.mapM_byte, Outcome.ok_bind, Byte.hex, flatMap_hexDigits, length_toList]
  rfl

end Buffer

namespace Register

variable {order : ByteOrder} {n : Nat}

theorem denotes_binary (r : Register order n) :
    Numeral.Denotes 2 n r.value (Numeral.binary n r.value).toList := by
  rw [Numeral.toList_binary]
  exact Numeral.denotes_digits (by decide) (by decide) r.value_lt

/-- The digits of the bytes, each as four bits, are the padding and then the bits of the number. -/
theorem expand_bytes (r : Register order n) :
    Numeral.expand (Numeral.digits 16 (2 * r.bytes.size) r.bytes.value) =
      ((List.range (padding n)).reverse.map fun i =>
        Numeral.bitDigit (r.bytes.value.testBit (n + i))) ++ (Numeral.binary n r.value).toList := by
  have hpadding : (Numeral.binary (padding n) (r.bytes.value / 2 ^ n)).toList =
      (List.range (padding n)).reverse.map fun i =>
        Numeral.bitDigit (r.bytes.value.testBit (n + i)) := by
    simp only [Numeral.binary, String.toList_ofList, Nat.testBit_div_two_pow, Nat.add_comm]
  have hwidth : 4 * (2 * r.bytes.size) = padding n + n := by
    have := eight_mul_byteCount n
    rw [r.size_eq]
    omega
  have hvalue : Numeral.digits 2 n r.value = Numeral.digits 2 n r.bytes.value :=
    Numeral.digits_mod 2 n r.bytes.value
  rw [← hpadding, Numeral.toList_binary, Numeral.toList_binary, hvalue, Numeral.expand_digits, hwidth,
    Numeral.digits_add]

theorem render_eq_iff (r s : Register order n) :
    r.render = s.render ↔ ∀ i < n, r.getBit i = s.getBit i := by
  rw [r.render_eq, s.render_eq, Except.ok.injEq, Numeral.binary_eq_iff]
  refine forall₂_congr fun i hi => ?_
  rw [r.getBit_of_lt hi, s.getBit_of_lt hi, Except.ok.injEq]

end Register

theorem Buffer.render_eq_iff {order : ByteOrder} (b c : Buffer order) :
    b.render = c.render ↔ b.toList = c.toList := by
  constructor
  · intro h
    rw [render, render, b.mapM_byte, c.mapM_byte, Outcome.ok_bind, Outcome.ok_bind, Except.ok.injEq,
      String.append_right_inj] at h
    have hbytes := congrArg (fun text => Byte.ofHex? text.toList) h
    simpa [Byte.ofHex?_hex] using hbytes
  · intro h
    rw [ext_toList h]

namespace BitString

variable {n : Nat}

theorem render_eq_iff (hn : n < limit indexBits) (s t : BitString n) :
    s.render = t.render ↔ ∀ i < n, s.getBit i = t.getBit i := by
  rw [s.render_eq hn, t.render_eq hn, Except.ok.injEq, Numeral.binary_eq_iff]
  refine forall₂_congr fun i hi => ?_
  rw [s.getBit_of_lt hn hi, t.getBit_of_lt hn hi, Except.ok.injEq]

/-- The text of a string is the bits of its buffer from the start on. -/
theorem toList_binary_value (s : BitString n) :
    (Numeral.binary n s.value).toList =
      (List.range n).map fun k => Numeral.bitDigit (Wire.bitAt s.bytes.data k) := by
  rw [Numeral.binary, String.toList_ofList]
  apply List.ext_getElem
  · simp
  · intro k hk _
    have hk : k < n := by simpa using hk
    have hsize : 8 * s.bytes.data.size = n + padding n := by
      rw [← eight_mul_byteCount, ← s.size_eq]
      rfl
    have hroom : k < 8 * s.bytes.data.size := by omega
    have hbit := Wire.testBit_value_bitAt s.bytes.data hroom
    have hplace : 8 * s.bytes.data.size - 1 - k = padding n + (n - 1 - k) := by omega
    have hvalue : s.bytes.value = Wire.value s.bytes.data := rfl
    rw [hplace, ← hvalue] at hbit
    simp [s.testBit_value, hbit]

end BitString

open Numeral (Denotes bitDigit expand)

/-- A register shows exactly as many binary digits as it has bits, a buffer exactly two lowercase
hexadecimal digits a byte, and these numerals denote the numbers in them; a bit string shows its bits in
the order in which they are stored. Texts are the same exactly if the bits, or the bytes, are, and the
bytes of a register show its padding and then its own text. -/
theorem render_faithful {order : ByteOrder} {n : Nat} (hn : n < limit indexBits)
    (r r' : Register order n) (b b' : Buffer order) (s s' : BitString n) :
    (∃ text, r.render = .ok text ∧ Denotes 2 n r.value text.toList) ∧
    (∃ digits, b.render = .ok ("0x" ++ String.ofList digits) ∧
      Denotes 16 (2 * b.size) (∑ i : Fin b.toList.length, b.toList[i].toNat * 256 ^ (i : Nat))
        digits) ∧
    (∃ text, s.render = .ok text ∧
      text.toList = (List.range n).map fun k => bitDigit (Wire.bitAt s.bytes.data k)) ∧
    (r.render = r'.render ↔ ∀ i < n, r.getBit i = r'.getBit i) ∧
    (b.render = b'.render ↔ b.toList = b'.toList) ∧
    (s.render = s'.render ↔ ∀ i < n, s.getBit i = s'.getBit i) ∧
    ∃ text digits, r.render = .ok text ∧ r.bytes.render = .ok ("0x" ++ String.ofList digits) ∧
      expand digits = ((List.range (padding n)).reverse.map fun i =>
        bitDigit (r.bytes.value.testBit (n + i))) ++ text.toList := by
  refine ⟨⟨_, r.render_eq, r.denotes_binary⟩, ⟨_, b.render_eq, ?_⟩,
    ⟨_, s.render_eq hn, s.toList_binary_value⟩, r.render_eq_iff r', b.render_eq_iff b',
    s.render_eq_iff hn s', _, _, r.render_eq, r.bytes.render_eq, r.expand_bytes⟩
  have hvalue : b.value < 16 ^ (2 * b.size) := by
    have hlt := Buffer.valueOf_lt b.toList
    rw [b.length_toList, limit_eq] at hlt
    calc b.value < 2 ^ (8 * b.size) := hlt
      _ = (2 ^ 4) ^ (2 * b.size) := by rw [← pow_mul, ← Nat.mul_assoc]
      _ = 16 ^ (2 * b.size) := rfl
  rw [← Buffer.valueOf_eq_sum]
  exact Numeral.denotes_digits (by decide) (by decide) hvalue

/-- Twelve bits below a padding that is set, stored from the low byte on, and a string of twelve bits
before one. -/
theorem render_faithful_twelve :
    12 < limit indexBits ∧
      (∃ text, (⟨⟨#[0x5A, 0xF0]⟩, rfl⟩ : Register .little 12).render = .ok text ∧
        Denotes 2 12 0x05A text.toList) ∧
      (∃ digits, (⟨#[0x5A, 0xF0]⟩ : Buffer .little).render = .ok ("0x" ++ String.ofList digits) ∧
        Denotes 16 4 0xF05A digits) ∧
      (∃ text, (⟨⟨#[0x5A, 0xF3]⟩, rfl⟩ : BitString 12).render = .ok text ∧
        text.toList = "010110101111".toList) ∧
      (⟨⟨#[0x5A, 0xF0]⟩, rfl⟩ : Register .little 12).render =
        (⟨⟨#[0x5A, 0x00]⟩, rfl⟩ : Register .little 12).render ∧
      ∃ text digits, (⟨⟨#[0x5A, 0xF0]⟩, rfl⟩ : Register .little 12).render = .ok text ∧
        (⟨#[0x5A, 0xF0]⟩ : Buffer .little).render = .ok ("0x" ++ String.ofList digits) ∧
        expand digits = "1111".toList ++ text.toList := by
  obtain ⟨⟨x, hx, hxdenotes⟩, ⟨y, hy, hydenotes⟩, ⟨z, hz, hzbits⟩, hiff, -, -, t, u, ht, hu, hexpand⟩ :=
    render_faithful (n := 12) (by decide) (⟨⟨#[0x5A, 0xF0]⟩, rfl⟩ : Register .little 12)
      ⟨⟨#[0x5A, 0x00]⟩, rfl⟩ ⟨#[0x5A, 0xF0]⟩ ⟨#[]⟩ ⟨⟨#[0x5A, 0xF3]⟩, rfl⟩ ⟨⟨#[0x00, 0x00]⟩, rfl⟩
  exact ⟨by decide, ⟨x, hx, hxdenotes⟩, ⟨y, hy, hydenotes⟩, ⟨z, hz, hzbits⟩,
    hiff.2 (by decide), t, u, ht, hu, hexpand⟩

end Bitfield
