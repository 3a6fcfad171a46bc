import Bitfield.Proofs.Rendering

/-! Numerals with a fixed number of digits. The lowest digits of a number denote it if they suffice; a
numeral is cut where its higher digits end; each hexadecimal digit is four binary ones; and binary
digits are bits. -/

namespace Bitfield.Numeral

/-- The digits of a base, lowercase letters standing for those above nine. -/
def alphabet (base : Nat) : List Char :=
  ['0', '1', '2', '3', '4', '5', '6', '7', '8', '9', 'a', 'b', 'c', 'd', 'e', 'f'].take base

/-- A numeral of exactly `count` digits in `base`, leading zeros included, that denotes a number. -/
structure Denotes (base count value : Nat) (numeral : List Char) : Prop where
  length_eq : numeral.length = count
  mem_alphabet : ∀ c ∈ numeral, c ∈ alphabet base
  read?_eq : read? base numeral = some value

variable {base : Nat}

theorem digitChar_mem_alphabet : ∀ base ≤ 16, ∀ d < base, Nat.digitChar d ∈ alphabet base := by
  decide

theorem mem_alphabet_of_mem_digits (hpos : 0 < base) (hbase : base ≤ 16) {count value : Nat} {c : Char}
    (h : c ∈ digits base count value) : c ∈ alphabet base := by
  induction count generalizing value with
  | zero => cases h
  | succ count ih =>
      rw [digits, List.mem_append, List.mem_singleton] at h
      rcases h with h | rfl
      · exact ih h
      · exact digitChar_mem_alphabet base hbase _ (Nat.mod_lt value hpos)

/-- The digits of a number denote it if there are enough of them. -/
theorem denotes_digits (hpos : 0 < base) (hbase : base ≤ 16) {count value : Nat}
    (h : value < base ^ count) : Denotes base count value (digits base count value) where
  length_eq := digits_length base count value
  mem_alphabet := fun _ => mem_alphabet_of_mem_digits hpos hbase
  read?_eq := by
    rw [read?_digits base count value hpos hbase]
    exact congrArg some (Nat.mod_eq_of_lt h)

theorem digits_add (base high low value : Nat) :
    digits base (high + low) value = digits base high (value / base ^ low) ++ digits base low value := by
  induction low generalizing value with
  | zero => simp [digits]
  | succ low ih =>
      rw [← Nat.add_assoc, digits, ih, digits, List.append_assoc, Nat.div_div_eq_div_mul, pow_succ']

/-- Digits that are left out do not matter. -/
theorem digits_mod (base count value : Nat) :
    digits base count (value % base ^ count) = digits base count value := by
  induction count generalizing value with
  | zero => rfl
  | succ count ih =>
      have hlast : value % base ^ (count + 1) % base = value % base :=
        Nat.mod_mod_of_dvd value (dvd_pow_self base (Nat.succ_ne_zero count))
      have hrest : value % base ^ (count + 1) / base = value / base % base ^ count := by
        rw [pow_succ', Nat.mod_mul_right_div_self]
      rw [digits, digits, hlast, hrest, ih]

/-- A hexadecimal numeral with four binary digits for each of its own. -/
def expand (numeral : List Char) : List Char :=
  numeral.flatMap fun c => digits 2 4 ((digitValue? c).getD 0)

theorem expand_digits (count value : Nat) :
    expand (digits 16 count value) = digits 2 (4 * count) value := by
  induction count generalizing value with
  | zero => rfl
  | succ count ih =>
      have hdigit : value % 16 < 16 := Nat.mod_lt value (by decide)
      have hlast : digits 2 4 (value % 16) = digits 2 4 value := digits_mod 2 4 value
      unfold expand at ih ⊢
      rw [digits, List.flatMap_append, ih, List.flatMap_singleton, digitValue?_digitChar _ hdigit,
        Option.getD_some, hlast, Nat.mul_succ, digits_add]
      rfl

theorem bitDigit_testBit_zero (value : Nat) :
    bitDigit (value.testBit 0) = Nat.digitChar (value % 2) := by
  rw [Nat.testBit_zero]
  rcases Nat.mod_two_eq_zero_or_one value with h | h <;> rw [h] <;> rfl

/-- Binary digits are bits, the most significant first. -/
theorem toList_binary (count value : Nat) : (binary count value).toList = digits 2 count value := by
  rw [binary, String.toList_ofList]
  induction count generalizing value with
  | zero => rfl
  | succ count ih =>
      have htail := ih (value / 2)
      rw [digits, ← htail, ← bitDigit_testBit_zero, List.range_succ_eq_map, List.reverse_cons,
        List.map_append, List.map_singleton, ← List.map_reverse, List.map_map]
      simp only [Function.comp_def, Nat.testBit_succ]

theorem bitDigit_injective : ∀ left right, bitDigit left = bitDigit right → left = right := by
  decide

/-- Binary numerals of one length are the same if the bits that they show are. -/
theorem binary_eq_iff {count left right : Nat} :
    binary count left = binary count right ↔ ∀ i < count, left.testBit i = right.testBit i := by
  rw [binary, binary, String.ofList_inj, List.map_inj_left]
  simp only [List.mem_reverse, List.mem_range]
  exact ⟨fun h i hi => bitDigit_injective _ _ (h i hi), fun h i hi => congrArg bitDigit (h i hi)⟩

end Bitfield.Numeral
