import Bitfield.Buffer.Value
import Bitfield.Padding

/-!
A register: an integer of `n` bits in the fewest bytes that hold it. Bit 0 is the least significant
bit whatever the byte order. The bits above bit `n - 1` in the most significant byte are padding,
which no reading of the value shows.
-/

namespace Bitfield

/-- An integer of `n` bits over a buffer of exactly the bytes it needs. -/
structure Register (order : ByteOrder) (n : Nat) where
  bytes : Buffer order
  size_eq : bytes.size = byteCount n
deriving DecidableEq

namespace Register

variable {order : ByteOrder} {n : Nat}

/-- The number in the `n` data bits. -/
def value (r : Register order n) : Nat :=
  r.bytes.value % limit n

/-- A register over a buffer, refused unless the buffer has exactly the bytes it needs. -/
def ofBuffer (n : Nat) (b : Buffer order) : Outcome (Register order n) :=
  if h : b.size = byteCount n then .ok ⟨b, h⟩ else refuse (.bufferSize (byteCount n) b.size)

def ofArray (order : ByteOrder) (n : Nat) (data : Array Byte) : Outcome (Register order n) :=
  ofBuffer n ⟨data⟩

/-- A register over a buffer whose size is known to be right. -/
def ofSized (b : Buffer order) : Outcome (Register order n) :=
  if h : b.size = byteCount n then .ok ⟨b, h⟩ else fault .sizeChanged

/-- The byte in which only bit `i % 8` is set. -/
def bitFlag (i : Nat) : Outcome Byte :=
  Checked.shiftLeft 1 (i % 8)

/-- Bit `i` of the bytes, data or padding. -/
def bit (r : Register order n) (i : Nat) : Outcome Bool := do
  let x ← r.bytes.byte (i / 8)
  let flag ← bitFlag i
  .ok (x &&& flag != 0)

/-- Bit `i` of the value. -/
def getBit (r : Register order n) (i : Nat) : Outcome Bool :=
  if n ≤ i then refuse (.bitOutOfRange i n) else r.bit i

def getByte (r : Register order n) (index : Nat) : Outcome Byte :=
  r.bytes.get index

/-- The value as a binary numeral of `n` digits. -/
def render (r : Register order n) : Outcome String := do
  let bits ← (List.range n).reverse.mapM r.bit
  .ok (String.ofList (bits.map Numeral.bitDigit))

def record (r : Register order n) : Outcome Record := do
  let text ← r.render
  .ok ⟨"BitView", [("endianness", order.name), ("bits", toString n), ("value", text)]⟩

theorem length_toList (r : Register order n) : r.bytes.toList.length = byteCount n := by
  rw [Buffer.length_toList, r.size_eq]

theorem byte_div_lt (r : Register order n) {i : Nat} (h : i < n) :
    i / 8 < r.bytes.toList.length := by
  rw [length_toList]
  have := eight_mul_byteCount n
  omega

/-- A buffer of as many bytes makes a register again. -/
theorem ofSized_of_length (r : Register order n) {b : Buffer order}
    (h : b.toList.length = r.bytes.toList.length) :
    ∃ s : Register order n, ofSized b = .ok s ∧ s.bytes = b := by
  have hsize : b.size = byteCount n := by
    rw [← Buffer.length_toList, h, length_toList]
  exact ⟨⟨b, hsize⟩, dif_pos hsize, rfl⟩

/-- A bit inside the bytes is that bit of the number they hold. -/
theorem bit_of_lt (r : Register order n) {i : Nat} (h : i < 8 * byteCount n) :
    r.bit i = .ok (r.bytes.value.testBit i) := by
  have hbyte : i / 8 < r.bytes.toList.length := by
    rw [length_toList]
    omega
  simp only [bit, bitFlag]
  rw [Buffer.byte_of_lt _ hbyte, Outcome.ok_bind,
    Checked.shiftLeft_of_lt _ (Nat.mod_lt i (by decide)), Outcome.ok_bind,
    Word.bit_ne_zero _ (Nat.mod_lt i (by decide)), Buffer.testBit_value,
    List.getD_eq_getElem?_getD, List.getElem?_eq_getElem hbyte, Option.getD_some]

/-- A bit of the value is that bit of the number. -/
theorem getBit_of_lt (r : Register order n) {i : Nat} (h : i < n) :
    r.getBit i = .ok (r.value.testBit i) := by
  have hbytes : i < 8 * byteCount n := by
    rw [eight_mul_byteCount]
    omega
  rw [getBit, if_neg (by omega), bit_of_lt r hbytes, value, limit, Nat.pow_eq,
    Nat.testBit_mod_two_pow]
  simp [h]

theorem getBit_of_le (r : Register order n) {i : Nat} (h : n ≤ i) :
    r.getBit i = refuse (.bitOutOfRange i n) :=
  if_pos h

end Register

end Bitfield
