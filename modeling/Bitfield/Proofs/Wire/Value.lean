import Bitfield.Proofs.Register.Interval
import Bitfield.Wire
import Mathlib.Algebra.BigOperators.Fin
import Mathlib.Tactic.Ring

/-! What a wire holds, as a number: the number in its first bytes, its bits and intervals of them,
and the number that registers write one after the other. Two wires of one size with the same number
are the same wire. -/

namespace Bitfield

/-- The lowest `a + b` bits of a number are `a` bits above its lowest `b`. -/
theorem mod_two_pow_add (v a b : Nat) :
    v % 2 ^ (a + b) = v / 2 ^ b % 2 ^ a * 2 ^ b + v % 2 ^ b := by
  rw [Nat.add_comm a b, pow_add, Nat.mod_mul]
  ring

namespace Wire

theorem value_lt (wire : Array Byte) : value wire < 2 ^ (8 * wire.size) := by
  have h := Buffer.valueOf_lt wire.toList.reverse
  rwa [List.length_reverse, Array.length_toList] at h

theorem value_injective {left right : Array Byte} (hsize : left.size = right.size)
    (h : value left = value right) : left = right := by
  apply Array.ext'
  apply List.reverse_injective
  apply Buffer.valueOf_injective _ h
  rw [List.length_reverse, List.length_reverse, Array.length_toList, Array.length_toList, hsize]

/-- Bit `k` of byte `index` of a wire, as a bit of its number. -/
theorem testBit_value (wire : Array Byte) {index k : Nat} (h : index < wire.size) (hk : k < 8) :
    (value wire).testBit (8 * (wire.size - 1 - index) + k) = wire[index].getLsbD k := by
  have hlist : wire.size - 1 - index < wire.toList.reverse.length := by
    rw [List.length_reverse, Array.length_toList]
    omega
  have hdiv : (8 * (wire.size - 1 - index) + k) / 8 = wire.size - 1 - index := by omega
  have hmod : (8 * (wire.size - 1 - index) + k) % 8 = k := by omega
  rw [value, Buffer.testBit_valueOf, hdiv, hmod, List.getD_eq_getElem?_getD,
    List.getElem?_eq_getElem hlist, Option.getD_some]
  simp only [List.getElem_reverse, Array.length_toList, Array.getElem_toList]
  congr 2
  omega

/-- Bit `place` of a wire, counted from the top bit of its first byte. -/
def bitAt (wire : Array Byte) (place : Nat) : Bool :=
  (wire.getD (place / 8) 0).getLsbD (7 - place % 8)

theorem testBit_value_bitAt (wire : Array Byte) {place : Nat} (h : place < 8 * wire.size) :
    (value wire).testBit (8 * wire.size - 1 - place) = bitAt wire place := by
  have hindex : place / 8 < wire.size := by omega
  have hmod : 7 - place % 8 < 8 := by omega
  have hplace : 8 * (wire.size - 1 - place / 8) + (7 - place % 8) = 8 * wire.size - 1 - place := by
    omega
  have hbit := testBit_value wire hindex hmod
  rw [hplace] at hbit
  rw [hbit, bitAt, Array.getD_eq_getD_getElem?, Array.getElem?_eq_getElem hindex, Option.getD_some]

def prefixValue (wire : Array Byte) (count : Nat) : Nat :=
  Buffer.valueOf (wire.toList.take count).reverse

theorem prefixValue_size (wire : Array Byte) : prefixValue wire wire.size = value wire := by
  rw [prefixValue, ← Array.length_toList, List.take_length, value]

theorem prefixValue_succ (wire : Array Byte) {count : Nat} (h : count < wire.size) :
    prefixValue wire (count + 1) = 256 * prefixValue wire count + wire[count].toNat := by
  have hlist : count < wire.toList.length := by rwa [Array.length_toList]
  rw [prefixValue, List.take_succ_eq_append_getElem hlist, List.reverse_append,
    List.reverse_singleton, List.singleton_append, Buffer.valueOf, Array.getElem_toList, Nat.add_comm]
  rfl

theorem prefixValue_set (wire : Array Byte) {count index : Nat} (x : Byte)
    (hle : count ≤ index) (h : index < wire.size) :
    prefixValue (wire.set index x h) count = prefixValue wire count := by
  rw [prefixValue, Array.toList_set, List.take_set_of_le hle]
  rfl

/-- The number in the `length` bits of a wire from bit `start` on, its first bit being bit 0. -/
def slice (wire : Array Byte) (start length : Nat) : Nat :=
  value wire / 2 ^ (8 * wire.size - (start + length)) % 2 ^ length

theorem slice_lt (wire : Array Byte) (start length : Nat) :
    slice wire start length < 2 ^ length :=
  Nat.mod_lt _ (Nat.two_pow_pos length)

theorem testBit_slice (wire : Array Byte) (start length j : Nat) :
    (slice wire start length).testBit j =
      (decide (j < length) && (value wire).testBit (8 * wire.size - (start + length) + j)) := by
  rw [slice, Nat.testBit_mod_two_pow, Nat.testBit_div_two_pow, Nat.add_comm j]

/-- The bits of an interval, from its top bit on, are those of the wire. -/
theorem testBit_slice_bitAt (wire : Array Byte) {start length k : Nat} (hk : k < length)
    (hroom : start + length ≤ 8 * wire.size) :
    (slice wire start length).testBit (length - 1 - k) = bitAt wire (start + k) := by
  have hlow : length - 1 - k < length := by omega
  have hwire : start + k < 8 * wire.size := by omega
  have hplace : 8 * wire.size - (start + length) + (length - 1 - k) =
      8 * wire.size - 1 - (start + k) := by
    omega
  rw [testBit_slice, decide_eq_true hlow, Bool.true_and, ← testBit_value_bitAt wire hwire, hplace]

/-- An interval is cut into its first bits and those after them. -/
theorem slice_add (wire : Array Byte) {start a b : Nat} (h : start + (a + b) ≤ 8 * wire.size) :
    slice wire start (a + b) = slice wire start a * 2 ^ b + slice wire (start + a) b := by
  have hsum : 8 * wire.size - (start + (a + b)) + b = 8 * wire.size - (start + a) := by omega
  rw [slice, mod_two_pow_add, Nat.div_div_eq_div_mul, ← pow_add, hsum, slice, slice,
    Nat.add_assoc start a b]

theorem slice_zero_size (wire : Array Byte) : slice wire 0 (8 * wire.size) = value wire := by
  rw [slice, Nat.zero_add, Nat.sub_self, pow_zero, Nat.div_one, Nat.mod_eq_of_lt (value_lt wire)]

/-- The number that registers write one after the other, the first of them at the top. -/
def concatenation : List AnyRegister → Nat
  | [] => 0
  | r :: rest => r.register.value * 2 ^ bitCount rest + concatenation rest

theorem concatenation_eq_sum (fields : List AnyRegister) :
    concatenation fields =
      ∑ i : Fin fields.length, fields[i].register.value * 2 ^ bitCount (fields.drop (i + 1)) := by
  induction fields with
  | nil => rfl
  | cons r rest ih =>
      rw [concatenation, ih]
      exact (Fin.sum_univ_succ fun i : Fin (rest.length + 1) =>
        (r :: rest)[i].register.value * 2 ^ bitCount ((r :: rest).drop (i + 1))).symm

theorem bitCount_eq_sum {φ : Type} [ReadableField φ] (fields : List φ) :
    bitCount fields = (fields.map ReadableField.width).sum := by
  induction fields with
  | nil => rfl
  | cons field rest ih => rw [bitCount, ih, List.map_cons, List.sum_cons]

/-- A field ends where the fields up to it have their bits, and that is on the wire. -/
theorem bitCount_take_add_le {φ : Type} [ReadableField φ] {fields : List φ} {index : Nat}
    (h : index < fields.length) :
    bitCount (fields.take index) + ReadableField.width fields[index] ≤ bitCount fields := by
  induction fields generalizing index with
  | nil => cases h
  | cons field rest ih =>
      cases index with
      | zero =>
          rw [List.take_zero, List.getElem_cons_zero, bitCount, bitCount, Nat.zero_add]
          exact Nat.le_add_right _ _
      | succ index =>
          rw [List.take_succ_cons, List.getElem_cons_succ, bitCount, bitCount, Nat.add_assoc]
          exact Nat.add_le_add_left (ih (Nat.lt_of_succ_lt_succ h)) _

theorem bitCount_eq_of_widths {left right : List AnyRegister}
    (h : left.map (·.width) = right.map (·.width)) : bitCount left = bitCount right := by
  rw [bitCount_eq_sum, bitCount_eq_sum]
  exact congrArg List.sum h

theorem checkCapacity_of_eq {φ : Type} [ReadableField φ] {fields : List φ} {size : Nat}
    (hcount : bitCount fields = 8 * size) (hindex : 8 * size < limit indexBits) :
    checkCapacity fields size = .ok () := by
  rw [checkCapacity_of_lt fields size (by omega) (by omega)]
  exact if_pos (by omega)

theorem checkCapacity_of_ne {φ : Type} [ReadableField φ] {fields : List φ} {size : Nat}
    (hcount : bitCount fields ≠ 8 * size) (hfields : bitCount fields < limit indexBits)
    (hindex : 8 * size < limit indexBits) :
    checkCapacity fields size = refuse (.widthMismatch (bitCount fields) (8 * size)) := by
  rw [checkCapacity_of_lt fields size hfields (by omega), Nat.mul_comm size 8]
  exact if_neg hcount

theorem checkCapacity_refuses {φ : Type} [ReadableField φ] {fields : List φ} {size : Nat}
    (hcount : bitCount fields ≠ 8 * size) (hfields : bitCount fields < limit indexBits) :
    ∃ e, checkCapacity fields size = .error e := by
  rw [checkCapacity, totalWidth_of_lt fields hfields, Outcome.ok_bind, Checked.mul]
  split
  · rw [Outcome.ok_bind, if_neg (by omega)]
    exact ⟨_, rfl⟩
  · exact ⟨_, rfl⟩

/-- Only the widths and the numbers of registers count. -/
theorem concatenation_congr {left right : List AnyRegister}
    (hwidth : left.map (·.width) = right.map (·.width))
    (hvalue : left.map (·.register.value) = right.map (·.register.value)) :
    concatenation left = concatenation right := by
  induction left generalizing right with
  | nil =>
      rw [List.map_nil, eq_comm, List.map_eq_nil_iff] at hwidth
      rw [hwidth]
  | cons r left ih =>
      cases right with
      | nil => cases hwidth
      | cons s right =>
          rw [List.map_cons, List.map_cons, List.cons.injEq] at hwidth hvalue
          rw [concatenation, concatenation, ih hwidth.2 hvalue.2, hvalue.1,
            bitCount_eq_of_widths hwidth.2]

theorem concatenation_lt (fields : List AnyRegister) :
    concatenation fields < 2 ^ bitCount fields := by
  induction fields with
  | nil => exact Nat.one_pos
  | cons r rest ih =>
      have hcount : bitCount (r :: rest) = r.width + bitCount rest := rfl
      have hvalue : r.register.value < 2 ^ r.width := Register.value_lt r.register
      rw [hcount, pow_add, concatenation]
      calc r.register.value * 2 ^ bitCount rest + concatenation rest
          < r.register.value * 2 ^ bitCount rest + 2 ^ bitCount rest := Nat.add_lt_add_left ih _
        _ = (r.register.value + 1) * 2 ^ bitCount rest := by ring
        _ ≤ 2 ^ r.width * 2 ^ bitCount rest := Nat.mul_le_mul_right _ hvalue

/-- Registers of known widths are determined by the number they write one after the other. -/
theorem concatenation_injective {left right : List AnyRegister}
    (hwidth : left.map (·.width) = right.map (·.width))
    (h : concatenation left = concatenation right) :
    left.map (·.register.value) = right.map (·.register.value) := by
  induction left generalizing right with
  | nil =>
      rw [List.map_nil, eq_comm, List.map_eq_nil_iff] at hwidth
      rw [hwidth]
  | cons r left ih =>
      cases right with
      | nil => cases hwidth
      | cons s right =>
          rw [List.map_cons, List.map_cons, List.cons.injEq] at hwidth
          have hright := concatenation_lt right
          have hleft := concatenation_lt left
          rw [concatenation, concatenation, bitCount_eq_of_widths hwidth.2] at h
          rw [bitCount_eq_of_widths hwidth.2] at hleft
          have hhead := congrArg (· / 2 ^ bitCount right) h
          have htail := congrArg (· % 2 ^ bitCount right) h
          simp only [Nat.mul_add_mod_self_right, Nat.mod_eq_of_lt hleft, Nat.mod_eq_of_lt hright] at htail
          simp only [Nat.mul_comm _ (2 ^ bitCount right), Nat.mul_add_div (Nat.two_pow_pos _),
            Nat.div_eq_of_lt hleft, Nat.div_eq_of_lt hright, Nat.add_zero] at hhead
          rw [List.map_cons, List.map_cons, hhead, ih hwidth.2 htail]

end Wire

end Bitfield
