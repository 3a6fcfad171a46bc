import Bitfield.Justification
import Bitfield.Register.InPlace

/-!
The forms in which `n` bits are kept in a buffer: a register, or a bit string. Each form answers the
requests made to it over the buffer, and justification turns one form into the other.
-/

namespace Bitfield

inductive Form (n : Nat) where
  | register (order : ByteOrder) (r : Register order n)
  | string (s : BitString n)

namespace Form

inductive Request (n : Nat) where
  | access (a : Register.Access n)
  /-- Bit `i` of a string. -/
  | bit (i : Nat)
  /-- The text of a string. -/
  | render
  | leftJustify
  | rightJustify

/-- A request that a form has answered, and the form before and after it. -/
structure Step (n : Nat) where
  before : Form n
  answer : Outcome Register.Answer
  after : Form n

variable {n : Nat}

def data : Form n → Array Byte
  | register _ r => r.bytes.data
  | string s => s.bytes.data

/-- Whether a form takes a request. Only big-endian registers are justified. -/
def takes : Form n → Request n → Bool
  | register _ _, .access _ => true
  | register .big _, .leftJustify => true
  | string _, .bit _ => true
  | string _, .render => true
  | string _, .rightJustify => true
  | _, _ => false

/-- The form that a justification leads to, or the same one if it fails. -/
def become (f : Form n) : Outcome (Register.Answer × Form n) → Outcome Register.Answer × Form n
  | .ok (answer, g) => (.ok answer, g)
  | .error e => (.error e, f)

/-- The answer to a request and the form after it; there is none if the form does not take such a
request. A justification is answered by what is logged of it. -/
def answer? (f : Form n) (q : Request n) : Option (Outcome Register.Answer × Form n) :=
  match f, q with
  | register order r, .access a =>
    let (answer, b) := r.accessInPlace a
    match Register.ofSized b with
    | .ok s => some (answer, register order s)
    | .error e => some (.error e, f)
  | register .big r, .leftJustify => some (f.become do
    let s ← r.leftJustify
    let entry ← justifiedEntry "left" n s.bytes
    .ok (.text entry.line, string s))
  | string s, .bit i => some (s.getBit i >>= fun on => .ok (.bit on), f)
  | string s, .render => some (s.render >>= fun text => .ok (.text text), f)
  | string s, .rightJustify => some (f.become do
    let r ← s.rightJustify
    let entry ← justifiedEntry "right" n r.bytes
    .ok (.text entry.line, register .big r))
  | _, _ => none

/-- Makes requests one after the other, leaving out those that the form does not take. -/
def run (f : Form n) : List (Request n) → List (Step n)
  | [] => []
  | q :: rest =>
    match f.answer? q with
    | none => run f rest
    | some (answer, g) => ⟨f, answer, g⟩ :: run g rest

end Form

end Bitfield
