import Bitfield.Form
import Bitfield.Wire.Unpacking

/-!
What happens to `n` bits over their buffer in the course of a program: the requests made to them, and
the unpackings in which their register is one of the targets. An unpacking that fails leaves in the
register what it wrote there before.
-/

namespace Bitfield

namespace Register

variable {order : ByteOrder} {n : Nat} {φ : Type}

/-- A register as a field of a layout, with the fields that lie before and after it. -/
def among (r : Register order n) (before after : List φ) : List (Register order n ⊕ φ) :=
  before.map .inr ++ .inl r :: after.map .inr

/-- Unpacks a wire into a register and other fields, and tells how this ended and what the register is
then. -/
def unpackAmong? [WritableField φ] (r : Register order n) (wire : Array Byte)
    (before after : List φ) : Option (Outcome Unit × Register order n) :=
  let run := Wire.unpack wire (r.among before after)
  match run.fields[before.length]? with
  | some (.inl s) => some (run.outcome, s)
  | _ => none

end Register

namespace Form

inductive Operation (φ : Type) (n : Nat) where
  | request (q : Request n)
  /-- Unpacks a wire into the register and the fields before and after it. -/
  | unpack (wire : Array Byte) (before after : List φ)

variable {φ : Type} {n : Nat}

def isRegister : Form n → Bool
  | register .. => true
  | string _ => false

/-- Whether a form can be part of an operation. Only registers are targets of an unpacking. -/
def admits (f : Form n) : Operation φ n → Bool
  | .request q => f.takes q
  | .unpack .. => f.isRegister

variable [WritableField φ]

/-- The answer to an operation and the form after it; there is none if the form is no part of such an
operation. -/
def operate? (f : Form n) : Operation φ n → Option (Outcome Register.Answer × Form n)
  | .request q => f.answer? q
  | .unpack wire before after =>
    match f with
    | register order r =>
      (r.unpackAmong? wire before after).map fun (outcome, s) =>
        (outcome.map fun _ => .done, register order s)
    | string _ => none

/-- The form after operations one after the other, leaving out those that it is no part of. -/
def operateAll (f : Form n) : List (Operation φ n) → Form n
  | [] => f
  | op :: rest =>
    match f.operate? op with
    | none => operateAll f rest
    | some (_, g) => operateAll g rest

end Form

end Bitfield
