import Bitfield.Buffer.InPlace
import Bitfield.Register.Access

/-!
Writing a register in place. The bytes are changed one after the other in the buffer itself, so what
was changed before a failure would stay changed.
-/

namespace Bitfield

/-- Makes the steps of a loop in place: the first one that fails ends it, and those before it stay
made. -/
def Outcome.inPlace {σ α : Type} (step : σ → α → Outcome σ) : List α → σ → Outcome Unit × σ
  | [], s => (.ok (), s)
  | a :: rest, s =>
    match step s a with
    | .ok next => inPlace step rest next
    | .error e => (.error e, s)

namespace Register

variable {order : ByteOrder} {n : Nat}

/-- Clears the padding of a buffer after the loop that wrote it, unless that failed. -/
def clearPaddingAfter (n : Nat) : Outcome Unit × Buffer order → Outcome Unit × Buffer order
  | (.error e, b) => (.error e, b)
  | (.ok (), b) => (clearPadding n b).atOnce b

def storeInPlace (r : Register order n) (ty : IntType) (x : ty.Value) :
    Outcome Unit × Buffer order :=
  match ty.fits x (narrow countBits n) with
  | .error e => (.error e, r.bytes)
  | .ok false => (refuse (.valueOutOfRange n), r.bytes)
  | .ok true =>
    clearPaddingAfter n (Outcome.inPlace (storeByte ty x) (List.range (byteCount n)) r.bytes)

def negateInPlace (r : Register order n) : Outcome Unit × Buffer order :=
  let (outcome, state) := Outcome.inPlace negateByte (List.range (byteCount n)) (r.bytes, true)
  clearPaddingAfter n (outcome, state.1)

def writeBitsInPlace (r : Register order n) (length offset : Nat) (bits : Byte) :
    Outcome Unit × Register order n :=
  if 8 < length then
    (refuse (.tooManyBits length 8), r)
  else if IntervalWithin length offset n then
    Outcome.inPlace (writeBit offset bits) (List.range length) r
  else
    (refuse (.intervalOutOfRange length offset n), r)

/-- Sets or clears a bit in place. The byte of the bit is reached for as one that is there. -/
def setBitInPlace (r : Register order n) (i : Nat) (on : Bool) : Outcome Unit × Buffer order :=
  if n ≤ i then
    (refuse (.bitOutOfRange i n), r.bytes)
  else
    match bitFlag i with
    | .error e => (.error e, r.bytes)
    | .ok flag =>
      let (outcome, b) := r.bytes.modifyInPlace (i / 8) fun x => flagged x flag on
      (outcome.insist, b)

/-- The answer to an access that writes. -/
def written {σ : Type} : Outcome Unit × σ → Outcome Answer × σ
  | (outcome, s) => (outcome.map fun _ => .done, s)

/-- The answer to an access and the buffer after it. -/
def accessInPlace (r : Register order n) (a : Access n) : Outcome Answer × Buffer order :=
  match a with
  | .getBit .. | .read .. | .slice .. | .slice? .. | .readBits .. | .getByte .. | .render =>
    ((r.access a).1, r.bytes)
  | .setBit i on => written (r.setBitInPlace i on)
  | .setBitOn i => written (r.setBitInPlace i true)
  | .setBitOff i => written (r.setBitInPlace i false)
  | .store ty x => written (r.storeInPlace ty x)
  | .negate => written r.negateInPlace
  | .writeBits length offset bits =>
    written (Prod.map id bytes (r.writeBitsInPlace length offset bits))
  | .setByte index x => written (r.bytes.setInPlace index x)

end Register

end Bitfield
