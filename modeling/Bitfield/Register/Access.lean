import Bitfield.Register.Writing

/-!
The accesses that a register answers, as data, so that a sequence of them is a value too. An access
that needs a bound known in advance carries the proof of it. An access that is refused or faults
leaves the register as it was.
-/

namespace Bitfield.Register

inductive Access (n : Nat) where
  | getBit (i : Nat)
  | setBit (i : Nat) (on : Bool)
  | setBitOn (i : Nat)
  | setBitOff (i : Nat)
  | read (ty : IntType) (hwidth : n ≤ ty.width)
  | slice (ty : IntType) (length offset : Nat) (hlength : length ≤ ty.width)
      (hend : length + offset ≤ n)
  | slice? (ty : IntType) (length offset : Nat)
  | store (ty : IntType) (x : ty.Value)
  | negate
  | readBits (length offset : Nat)
  | writeBits (length offset : Nat) (bits : Byte)
  | getByte (index : Nat)
  | setByte (index : Nat) (x : Byte)
  | render

inductive Answer where
  | done
  | bit (on : Bool)
  | integer (x : Integer)
  | byte (x : Byte)
  | text (s : String)

variable {order : ByteOrder} {n : Nat}

/-- Makes one access and tells the answer and the register after it. -/
def perform (r : Register order n) : Access n → Outcome (Answer × Register order n)
  | .getBit i => do
    let on ← r.getBit i
    .ok (.bit on, r)
  | .setBit i on => do
    let s ← r.setBit i on
    .ok (.done, s)
  | .setBitOn i => do
    let s ← r.setBitOn i
    .ok (.done, s)
  | .setBitOff i => do
    let s ← r.setBitOff i
    .ok (.done, s)
  | .read ty hwidth => do
    let x ← r.read ty hwidth
    .ok (.integer ⟨ty, x⟩, r)
  | .slice ty length offset hlength hend => do
    let x ← r.slice ty.width length offset hlength hend
    .ok (.integer ⟨ty, x⟩, r)
  | .slice? ty length offset => do
    let x ← r.slice? ty.width length offset
    .ok (.integer ⟨ty, x⟩, r)
  | .store ty x => do
    let s ← r.store ty x
    .ok (.done, s)
  | .negate => do
    let s ← r.negate
    .ok (.done, s)
  | .readBits length offset => do
    let x ← r.readBits length offset
    .ok (.byte x, r)
  | .writeBits length offset bits => do
    let s ← r.writeBits length offset bits
    .ok (.done, s)
  | .getByte index => do
    let x ← r.getByte index
    .ok (.byte x, r)
  | .setByte index x => do
    let s ← r.setByte index x
    .ok (.done, s)
  | .render => do
    let text ← r.render
    .ok (.text text, r)

/-- The answer to an access and the register after it, which stays as it was on a failure. -/
def access (r : Register order n) (a : Access n) : Outcome Answer × Register order n :=
  match r.perform a with
  | .ok (answer, s) => (.ok answer, s)
  | .error e => (.error e, r)

def accessAll (r : Register order n) : List (Access n) → List (Outcome Answer) × Register order n
  | [] => ([], r)
  | a :: rest =>
    let (answer, s) := r.access a
    let (answers, t) := s.accessAll rest
    (answer :: answers, t)

end Bitfield.Register
