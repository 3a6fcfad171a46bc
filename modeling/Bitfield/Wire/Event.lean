import Bitfield.Field
import Bitfield.Log

/-!
What happens while fields are moved to or from a wire, step by step: the start, each request made to
a field, and each wire byte that is finished. All but the requests are logged.
-/

namespace Bitfield.Wire

/-- One step of a transfer. Fields are numbered from 0 in their order on the wire. -/
inductive Event where
  | packing (fields bytes : Nat)
  | asked (field : Nat) (chunk : Chunk)
  /-- A byte of the wire is complete and stored. -/
  | stored (index : Nat) (x : Byte)
  | unpacking (bytes fields : Nat)
  | given (field : Nat) (chunk : Chunk) (bits : Byte)
  /-- All bits of a byte of the wire are delivered. -/
  | consumed (index : Nat)
deriving DecidableEq

namespace Event

def entry? : Event → Option Log.Entry
  | packing fields bytes => some ⟨.debug, s!"Packing {fields} fields into {bytes} bytes"⟩
  | stored index x =>
    some ⟨.trace, s!"Packed byte {index}: 0b" ++ String.ofList x.binaryDigits⟩
  | unpacking bytes fields => some ⟨.debug, s!"Unpacking {bytes} bytes into {fields} fields"⟩
  | consumed index => some ⟨.trace, s!"Consumed byte {index}"⟩
  | asked .. => none
  | given .. => none

end Event

/-- A transfer that has ended: how, what the wire and the fields hold after it, and its steps. A
transfer that fails keeps what it did before the failure. -/
structure Run (φ : Type) where
  outcome : Outcome Unit
  wire : Array Byte
  fields : List φ
  events : List Event

def Run.log {φ : Type} (run : Run φ) : List Log.Entry :=
  run.events.filterMap Event.entry?

end Bitfield.Wire
