import Bitfield.Buffer.Value
import Bitfield.Padding

/-!
A bit string: `n` bits from the start of a buffer on, most significant first, with the padding after
the last of them. Bits are numbered as in a register, bit 0 being the least significant, so the same
number shows the same digits in both.
-/

namespace Bitfield

/-- A string of `n` bits over a buffer of exactly the bytes it needs. -/
structure BitString (n : Nat) where
  bytes : Buffer .big
  size_eq : bytes.size = byteCount n
deriving DecidableEq

namespace BitString

variable {n : Nat}

def value (s : BitString n) : Nat :=
  s.bytes.value / limit (padding n)

/-- A bit string over bytes in the order in which they are stored, refused unless they are exactly
the bytes it needs. -/
def ofArray (n : Nat) (data : Array Byte) : Outcome (BitString n) :=
  let b : Buffer .big := ⟨data⟩
  if h : b.size = byteCount n then .ok ⟨b, h⟩ else refuse (.bufferSize (byteCount n) b.size)

/-- A bit string over a buffer whose size is known to be right. -/
def ofSized (b : Buffer .big) : Outcome (BitString n) :=
  if h : b.size = byteCount n then .ok ⟨b, h⟩ else fault .sizeChanged

/-- Bit `i`, which lies above the padding. -/
def bit (s : BitString n) (i : Nat) : Outcome Bool := do
  let place ← Checked.add indexBits i (padding n)
  let x ← s.bytes.byte (place / 8)
  let flag ← Checked.shiftLeft 1 (place % 8)
  .ok (x &&& flag != 0)

def getBit (s : BitString n) (i : Nat) : Outcome Bool :=
  if n ≤ i then refuse (.bitOutOfRange i n) else s.bit i

def render (s : BitString n) : Outcome String := do
  let bits ← (List.range n).reverse.mapM s.bit
  .ok (String.ofList (bits.map Numeral.bitDigit))

def record (s : BitString n) : Outcome Record := do
  let text ← s.render
  .ok ⟨"PackedBits", [("bits", toString n), ("value", text)]⟩

theorem bit_of_lt (s : BitString n) {i : Nat} (h : i < n)
    (hindex : 8 * byteCount n ≤ limit indexBits) :
    s.bit i = .ok (s.value.testBit i) := by
  have hbits := eight_mul_byteCount n
  have hbyte : (i + padding n) / 8 < s.bytes.toList.length := by
    rw [Buffer.length_toList, s.size_eq]
    omega
  simp only [bit]
  rw [Checked.add_of_lt (by omega), Outcome.ok_bind, Buffer.byte_of_lt _ hbyte, Outcome.ok_bind,
    Checked.shiftLeft_of_lt _ (Nat.mod_lt (i + padding n) (by decide)), Outcome.ok_bind,
    Word.bit_ne_zero _ (Nat.mod_lt (i + padding n) (by decide)), value, limit, Nat.pow_eq,
    Nat.testBit_div_two_pow, Buffer.testBit_value, List.getD_eq_getElem?_getD,
    List.getElem?_eq_getElem hbyte, Option.getD_some]

end BitString

end Bitfield
