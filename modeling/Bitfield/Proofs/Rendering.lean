import Bitfield.BitString
import Bitfield.Proofs.Outcome
import Bitfield.Proofs.Register.Interval

/-! What registers and bit strings show: their bits one by one, and all of them as a binary numeral.
Both depend on the number alone. -/

namespace Bitfield

namespace Numeral

/-- The lowest `count` bits of a number as digits, the most significant first. -/
def binary (count value : Nat) : String :=
  String.ofList ((List.range count).reverse.map fun i => bitDigit (value.testBit i))

/-- Bits that are read one by one and shown as digits are the binary numeral. -/
theorem binary_of_bits {count value : Nat} {bit : Nat → Outcome Bool}
    (h : ∀ i < count, bit i = .ok (value.testBit i)) :
    ((List.range count).reverse.mapM bit >>= fun bits =>
      (.ok (String.ofList (bits.map bitDigit)) : Outcome String)) = .ok (binary count value) := by
  have hbits : (List.range count).reverse.mapM bit =
      .ok ((List.range count).reverse.map value.testBit) := by
    apply Outcome.mapM_of_ok
    intro i hi
    exact h i (List.mem_range.1 (List.mem_reverse.1 hi))
  rw [hbits, Outcome.ok_bind, List.map_map]
  rfl

end Numeral

/-- The bits of the bytes that hold `n` bits are all indices. -/
theorem eight_mul_byteCount_le {n : Nat} (hn : n < limit indexBits) :
    8 * byteCount n ≤ limit indexBits := by
  have hlimit : limit indexBits = 8 * limit 61 := by decide
  rw [byteCount]
  omega

/-- The bytes of a buffer, read one by one from the most significant on. -/
theorem Buffer.mapM_byte {order : ByteOrder} (b : Buffer order) :
    (List.range b.size).reverse.mapM b.byte = .ok b.toList.reverse := by
  have hbytes : (List.range b.size).map (fun i => b.toList.getD i 0) = b.toList := by
    apply List.ext_getElem
    · simp [length_toList]
    · intro i _ hi
      simp [List.getElem?_eq_getElem hi]
  rw [← hbytes, ← List.map_reverse]
  apply Outcome.mapM_of_ok
  intro i hi
  have hlist : i < b.toList.length := by
    rw [length_toList]
    exact List.mem_range.1 (List.mem_reverse.1 hi)
  rw [byte_of_lt b hlist, List.getD_eq_getElem?_getD, List.getElem?_eq_getElem hlist,
    Option.getD_some]

theorem Register.render_eq {order : ByteOrder} {n : Nat} (r : Register order n) :
    r.render = .ok (Numeral.binary n r.value) := by
  apply Numeral.binary_of_bits
  intro i hi
  have hbytes := eight_mul_byteCount n
  rw [r.bit_of_lt (by omega), r.testBit_value, decide_eq_true hi, Bool.true_and]

namespace BitString

variable {n : Nat}

theorem testBit_value (s : BitString n) (j : Nat) :
    s.value.testBit j = s.bytes.value.testBit (padding n + j) := by
  rw [value, limit_eq, Nat.testBit_div_two_pow, Nat.add_comm]

theorem getBit_of_lt (s : BitString n) (hn : n < limit indexBits) {i : Nat} (h : i < n) :
    s.getBit i = .ok (s.value.testBit i) := by
  rw [getBit, if_neg (Nat.not_le.2 h), s.bit_of_lt h (eight_mul_byteCount_le hn)]

theorem getBit_of_le (s : BitString n) {i : Nat} (h : n ≤ i) :
    s.getBit i = refuse (.bitOutOfRange i n) :=
  if_pos h

theorem render_eq (s : BitString n) (hn : n < limit indexBits) :
    s.render = .ok (Numeral.binary n s.value) := by
  apply Numeral.binary_of_bits
  intro i hi
  exact s.bit_of_lt hi (eight_mul_byteCount_le hn)

end BitString

end Bitfield
