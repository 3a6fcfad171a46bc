/-!
Numerals with a fixed number of digits, most significant digit first, and the reading of such a
numeral. A numeral denotes the number its digits were taken from as far as they suffice for it.
-/

namespace Bitfield

namespace Numeral

/-- The lowest `count` digits of `value` in `base`, most significant first. -/
def digits (base : Nat) : Nat → Nat → List Char
  | 0, _ => []
  | count + 1, value => digits base count (value / base) ++ [Nat.digitChar (value % base)]

/-- The value of a digit, with lowercase letters above nine. -/
def digitValue? (c : Char) : Option Nat :=
  if '0' ≤ c ∧ c ≤ '9' then some (c.toNat - '0'.toNat)
  else if 'a' ≤ c ∧ c ≤ 'f' then some (c.toNat - 'a'.toNat + 10)
  else none

/-- The number that a numeral in `base` denotes after the digits already read as `value`. -/
def readFrom? (base : Nat) : Nat → List Char → Option Nat
  | value, [] => some value
  | value, c :: rest =>
    match digitValue? c with
    | some d => if d < base then readFrom? base (value * base + d) rest else none
    | none => none

/-- The number that a numeral in `base` denotes; the empty numeral denotes zero. -/
def read? (base : Nat) (numeral : List Char) : Option Nat :=
  readFrom? base 0 numeral

def bitDigit (on : Bool) : Char :=
  if on then '1' else '0'

theorem digits_length (base count value : Nat) : (digits base count value).length = count := by
  induction count generalizing value with
  | zero => rfl
  | succ count ih => simp [digits, ih]

theorem readFrom?_append (base value : Nat) (left right : List Char) :
    readFrom? base value (left ++ right) =
      (readFrom? base value left).bind (fun read => readFrom? base read right) := by
  induction left generalizing value with
  | nil => rfl
  | cons c left ih =>
      simp only [List.cons_append, readFrom?]
      split
      · split
        · exact ih _
        · rfl
      · rfl

theorem digitValue?_digitChar : ∀ d < 16, digitValue? (Nat.digitChar d) = some d := by
  decide

/-- A numeral denotes the number that its digits were taken from, up to the digits left out. -/
theorem read?_digits (base count value : Nat) (hpos : 0 < base) (hbase : base ≤ 16) :
    read? base (digits base count value) = some (value % Nat.pow base count) := by
  induction count generalizing value with
  | zero => simp [read?, digits, readFrom?, Nat.mod_one]
  | succ count ih =>
      have hdigit : value % base < base := Nat.mod_lt _ hpos
      simp only [read?] at ih ⊢
      rw [digits, readFrom?_append, ih, Option.bind_some]
      have hread := digitValue?_digitChar _ (Nat.lt_of_lt_of_le hdigit hbase)
      simp only [readFrom?, hread, if_pos hdigit]
      rw [Nat.pow_eq, Nat.pow_eq, Nat.pow_succ', Nat.mod_mul,
        Nat.mul_comm (value / base % base ^ count), Nat.add_comm]

end Numeral

end Bitfield
