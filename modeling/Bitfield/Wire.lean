import Bitfield.Field

/-!
A wire: bytes that hold the bits of several fields without gaps, the first field first and each
from its top bit on, so that the bytes in their stored order are one number. Fields go onto a wire
only if they fill it exactly.
-/

namespace Bitfield.Wire

/-- The number that a wire holds, its first bit being the most significant. -/
def value (wire : Array Byte) : Nat :=
  Buffer.valueOf wire.toList.reverse

variable {φ : Type} [ReadableField φ]

/-- The bits of all fields together. -/
def bitCount : List φ → Nat
  | [] => 0
  | field :: rest => ReadableField.width field + bitCount rest

def addWidth (total : Nat) (field : φ) : Outcome Nat :=
  Checked.add indexBits total (ReadableField.width field)

/-- The bits of all fields together, counted as an index. -/
def totalWidth (fields : List φ) : Outcome Nat :=
  fields.foldlM addWidth 0

/-- Refuses fields whose bits do not fill `size` bytes exactly. -/
def checkCapacity (fields : List φ) (size : Nat) : Outcome Unit := do
  let total ← totalWidth fields
  let capacity ← Checked.mul indexBits size 8
  if total = capacity then .ok () else refuse (.widthMismatch total capacity)

theorem totalWidth_of_lt (fields : List φ) (h : bitCount fields < limit indexBits) :
    totalWidth fields = .ok (bitCount fields) := by
  have hfrom : ∀ (rest : List φ) (total : Nat), total + bitCount rest < limit indexBits →
      rest.foldlM addWidth total = .ok (total + bitCount rest) := by
    intro rest
    induction rest with
    | nil => exact fun total _ => rfl
    | cons field rest ih =>
        intro total htotal
        rw [bitCount, ← Nat.add_assoc] at htotal ⊢
        rw [List.foldlM_cons, addWidth, Checked.add_of_lt (by omega), Outcome.ok_bind, ih _ htotal]
  rw [totalWidth, hfrom fields 0 (by rwa [Nat.zero_add]), Nat.zero_add]

/-- Fields are accepted exactly when their bits fill the wire. -/
theorem checkCapacity_of_lt (fields : List φ) (size : Nat)
    (hfields : bitCount fields < limit indexBits) (hsize : size * 8 < limit indexBits) :
    checkCapacity fields size =
      if bitCount fields = size * 8 then .ok ()
      else refuse (.widthMismatch (bitCount fields) (size * 8)) := by
  rw [checkCapacity, totalWidth_of_lt fields hfields, Outcome.ok_bind, Checked.mul_of_lt hsize,
    Outcome.ok_bind]

end Bitfield.Wire
