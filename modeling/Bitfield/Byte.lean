import Bitfield.Text.Numeral

/-!
Bytes, and the digits that write them: two hexadecimal or eight binary ones.
-/

namespace Bitfield

abbrev Byte := BitVec 8

namespace Byte

def hexDigits (x : Byte) : List Char :=
  Numeral.digits 16 2 x.toNat

def binaryDigits (x : Byte) : List Char :=
  Numeral.digits 2 8 x.toNat

/-- Bytes as hexadecimal digits, two for each byte in the order given. -/
def hex (bytes : List Byte) : String :=
  String.ofList (bytes.flatMap hexDigits)

/-- The bytes that pairs of hexadecimal digits denote, in the order given. -/
def ofHex? : List Char → Option (List Byte)
  | [] => some []
  | [_] => none
  | high :: low :: rest => do
    let value ← Numeral.read? 16 [high, low]
    let bytes ← ofHex? rest
    some (BitVec.ofNat 8 value :: bytes)

theorem read?_hexDigits (x : Byte) : Numeral.read? 16 x.hexDigits = some x.toNat := by
  rw [hexDigits, Numeral.read?_digits 16 2 x.toNat (by decide) (by decide)]
  exact congrArg some (Nat.mod_eq_of_lt x.isLt)

/-- Hexadecimal digits denote the bytes that they write. -/
theorem ofHex?_hex (bytes : List Byte) : ofHex? (hex bytes).toList = some bytes := by
  rw [hex, String.toList_ofList]
  induction bytes with
  | nil => rfl
  | cons x rest ih =>
      have hread := read?_hexDigits x
      obtain ⟨high, low, hdigits⟩ : ∃ high low, hexDigits x = [high, low] :=
        ⟨_, _, rfl⟩
      rw [hdigits] at hread
      simp [hdigits, ofHex?, hread, ih]

end Byte

end Bitfield
