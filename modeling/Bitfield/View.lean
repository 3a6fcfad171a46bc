import Bitfield.Field
import Bitfield.Justification

/-!
A view: a register or a bit string over one buffer, which justification turns into each other and
which can be taken anew, with another width, over the same bytes. A view that cannot be taken leaves
the one before it in place.
-/

namespace Bitfield

inductive View where
  | register (r : AnyRegister)
  | string (width : Nat) (s : BitString width)

namespace View

def data : View → Array Byte
  | register r => r.data
  | string _ s => s.bytes.data

/-- Whether a view of the same kind and width over given bytes is the same view. -/
def sameOver (v : View) (data : Array Byte) : Outcome Bool :=
  match v with
  | register r => r.sameOver data
  | string n s => do
    let other ← BitString.ofArray n data
    .ok (s == other)

/-- The bit string that a big-endian register becomes, and what is logged of it; there is none for
any other view. -/
def leftJustify? : View → Option (Outcome (View × Log.Entry))
  | register ⟨.big, n, r⟩ => some do
    let s ← r.leftJustify
    let entry ← justifiedEntry "left" n s.bytes
    .ok (string n s, entry)
  | _ => none

/-- The register that a bit string becomes, and what is logged of it; there is none for any other
view. -/
def rightJustify? : View → Option (Outcome (View × Log.Entry))
  | string n s => some do
    let r ← s.rightJustify
    let entry ← justifiedEntry "right" n r.bytes
    .ok (register ⟨.big, n, r⟩, entry)
  | _ => none

/-- A register over the same bytes, set to an integer if one is given. -/
def asRegister (v : View) (order : ByteOrder) (n : Nat) (start : Option Integer) :
    Outcome View := do
  let r ← AnyRegister.ofArray order n v.data start
  .ok (register r)

def asString (v : View) (n : Nat) : Outcome View := do
  let s ← BitString.ofArray n v.data
  .ok (string n s)

end View

end Bitfield
