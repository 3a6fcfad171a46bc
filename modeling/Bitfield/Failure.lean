import Bitfield.Text.Record

/-!
Two kinds of failure. A refusal is an answer: a request outside what a buffer, a register or a
layout allows is turned down with an `Error` that names its bounds. A fault is a defect: an access,
a shift or an index that left its range although no caller could ask for that. Computations return
an `Outcome`, so that the absence of faults is a statement about them.
-/

namespace Bitfield

/-- Why a request is turned down. -/
inductive Error where
  | byteOutOfRange (index size : Nat)
  | bitOutOfRange (index bits : Nat)
  /-- A buffer does not hold exactly the bytes that its width needs. -/
  | bufferSize (expected actual : Nat)
  | intervalOutOfRange (length offset bits : Nat)
  /-- More bits are requested at once than the result holds. -/
  | tooManyBits (requested limit : Nat)
  | widthMismatch (fields capacity : Nat)
  | valueOutOfRange (bits : Nat)
deriving DecidableEq

namespace Error

def name : Error → String
  | byteOutOfRange .. => "ByteOutOfRange"
  | bitOutOfRange .. => "BitOutOfRange"
  | bufferSize .. => "BufferSize"
  | intervalOutOfRange .. => "IntervalOutOfRange"
  | tooManyBits .. => "TooManyBits"
  | widthMismatch .. => "WidthMismatch"
  | valueOutOfRange .. => "ValueOutOfRange"

def message : Error → String
  | byteOutOfRange index size => s!"byte index {index} out of range for a {size}-byte view"
  | bitOutOfRange index bits => s!"bit index {index} out of range for a {bits}-bit view"
  | bufferSize expected actual => s!"buffer holds {actual} bytes, view requires exactly {expected}"
  | intervalOutOfRange length offset bits =>
    s!"interval of {length} bits at offset {offset} exceeds a {bits}-bit view"
  | tooManyBits requested limit => s!"cannot read {requested} bits at once, at most {limit} fit"
  | widthMismatch fields capacity =>
    s!"fields total {fields} bits but the buffer holds {capacity}"
  | valueOutOfRange bits => s!"value does not fit in {bits} bits"

/-- The bounds that an error carries, with the labels they are shown under. -/
def bounds : Error → List (String × Nat)
  | byteOutOfRange index size => [("index", index), ("len", size)]
  | bitOutOfRange index bits => [("index", index), ("bits", bits)]
  | bufferSize expected actual => [("expected", expected), ("actual", actual)]
  | intervalOutOfRange length offset bits =>
    [("length", length), ("offset", offset), ("bits", bits)]
  | tooManyBits requested limit => [("requested", requested), ("max", limit)]
  | widthMismatch fields capacity => [("fields", fields), ("capacity", capacity)]
  | valueOutOfRange bits => [("bits", bits)]

def record (e : Error) : Record :=
  ⟨e.name, e.bounds.map fun (label, bound) => (label, toString bound)⟩

end Error

/-- What went wrong in a computation that promised to stay within its bounds. -/
inductive Fault where
  /-- An access that cannot report an error met one. -/
  | unhandled (error : Error)
  /-- The parts of a mask do not add up to the width of the word. -/
  | maskParts
  | overflow
  | shiftCount
  | outside
  | sizeChanged
deriving DecidableEq

namespace Fault

def message : Fault → String
  | unhandled error => error.message
  | maskParts => "interval mask parts must cover the whole integer"
  | overflow => "index arithmetic left its range"
  | shiftCount => "shift count reaches the width of the word"
  | outside => "offset outside the buffer"
  | sizeChanged => "buffer size changed"

end Fault

inductive Failure where
  | refused (error : Error)
  | fault (fault : Fault)
deriving DecidableEq

/-- The result of a computation that may be refused, or may fault. -/
abbrev Outcome := Except Failure

def refuse {α : Type} (e : Error) : Outcome α :=
  .error (.refused e)

def fault {α : Type} (f : Fault) : Outcome α :=
  .error (.fault f)

namespace Outcome

variable {α β : Type}

/-- Treats a refusal as a fault, for an access that promised to be in range. -/
def insist : Outcome α → Outcome α
  | .error (.refused e) => fault (.unhandled e)
  | outcome => outcome

/-- Treats a refusal as absence; a fault stays a fault. -/
def optional : Outcome α → Outcome (Option α)
  | .ok a => .ok (some a)
  | .error (.refused _) => .ok none
  | .error (.fault f) => fault f

/-- Changes a state at once: if the change fails, the state stays as it was. -/
def atOnce {σ : Type} (s : σ) : Outcome σ → Outcome Unit × σ
  | .ok t => (.ok (), t)
  | .error e => (.error e, s)

@[simp] theorem ok_bind (a : α) (next : α → Outcome β) :
    ((Except.ok a : Outcome α) >>= next) = next a := rfl

@[simp] theorem error_bind (e : Failure) (next : α → Outcome β) :
    ((Except.error e : Outcome α) >>= next) = .error e := rfl

theorem pure_eq_ok (a : α) : (pure a : Outcome α) = .ok a := rfl

@[simp] theorem insist_ok (a : α) : insist (.ok a) = .ok a := rfl

@[simp] theorem optional_ok (a : α) : optional (.ok a) = .ok (some a) := rfl

end Outcome

end Bitfield
