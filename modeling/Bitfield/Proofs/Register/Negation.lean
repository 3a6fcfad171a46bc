import Bitfield.Proofs.Register.Codec
import Mathlib.Tactic.Ring

/-! Negating a register. The bytes are inverted from the lowest on and the carry of an added one runs
through them, so the bytes that are done and the carry out of them are what the old ones lack to a
power of two. The padding takes part in this and is cleared at the end. -/

namespace Bitfield

/-- A byte inverted with a carry added and the byte itself make up all ones and the carry. -/
theorem Register.invertWithCarry_add (x : Byte) (carry : Bool) :
    (invertWithCarry x carry).1.toNat + 256 * (invertWithCarry x carry).2.toNat + x.toNat =
      255 + carry.toNat := by
  have hx := x.isLt
  have hnot : (~~~x).toNat = 255 - x.toNat := BitVec.toNat_not
  have hcarry : carry.toNat ≤ 1 := Bool.toNat_le carry
  simp only [invertWithCarry, hnot, BitVec.toNat_ofNat]
  by_cases hover : 256 ≤ 255 - x.toNat + carry.toNat
  · rw [decide_eq_true hover, Bool.toNat_true]
    omega
  · rw [decide_eq_false hover, Bool.toNat_false]
    omega

namespace Buffer

variable {order : ByteOrder}

/-- The number in the lowest `count` bytes. -/
def low (b : Buffer order) (count : Nat) : Nat :=
  b.value % 2 ^ (8 * count)

theorem low_zero (b : Buffer order) : b.low 0 = 0 :=
  Nat.mod_one _

theorem low_size (b : Buffer order) : b.low b.size = b.value := by
  have h := valueOf_lt b.toList
  rw [length_toList] at h
  exact Nat.mod_eq_of_lt h

theorem low_congr {b c : Buffer order} {count : Nat}
    (h : ∀ j < 8 * count, b.value.testBit j = c.value.testBit j) : b.low count = c.low count := by
  apply Nat.eq_of_testBit_eq
  intro j
  rw [low, low, Nat.testBit_mod_two_pow, Nat.testBit_mod_two_pow]
  by_cases hj : j < 8 * count
  · rw [h j hj]
  · rw [decide_eq_false hj, Bool.false_and, Bool.false_and]

theorem low_succ (b : Buffer order) {count : Nat} {x : Byte}
    (h : ∀ k < 8, x.getLsbD k = b.value.testBit (8 * count + k)) :
    b.low (count + 1) = x.toNat * 2 ^ (8 * count) + b.low count := by
  have hbyte : b.value / 2 ^ (8 * count) % 2 ^ 8 = x.toNat := by
    apply Nat.eq_of_testBit_eq
    intro k
    rw [Nat.testBit_mod_two_pow, Nat.testBit_div_two_pow, BitVec.testBit_toNat, Nat.add_comm]
    by_cases hk : k < 8
    · rw [decide_eq_true hk, Bool.true_and, h k hk]
    · rw [decide_eq_false hk, Bool.false_and, BitVec.getLsbD_of_ge _ _ (Nat.le_of_not_lt hk)]
  have hsplit : 8 * (count + 1) = 8 * count + 8 := Nat.mul_succ 8 count
  rw [low, hsplit, pow_add, Nat.mod_mul, hbyte, low]
  ring

end Buffer

namespace Register

variable {order : ByteOrder} {n : Nat}

theorem negateByte_of_size (b : Buffer order) (carry : Bool) {index : Nat} (h : index < b.size) :
    ∃ (x : Byte) (c : Buffer order),
      negateByte (b, carry) index = .ok (c, (invertWithCarry x carry).2) ∧ c.size = b.size ∧
      (∀ k < 8, x.getLsbD k = b.value.testBit (8 * index + k)) ∧
      ∀ j, c.value.testBit j =
        if j / 8 = index then (invertWithCarry x carry).1.getLsbD (j % 8)
        else b.value.testBit j := by
  obtain ⟨x, hx, hxbits⟩ := b.byte_of_size h
  obtain ⟨c, hc, hsize, hbits⟩ := b.put_of_size (invertWithCarry x carry).1 h
  refine ⟨x, c, ?_, hsize, hxbits, hbits⟩
  simp only [negateByte]
  rw [hx, Outcome.ok_bind, hc, Outcome.ok_bind]

/-- After `count` steps the lowest `count` bytes and the carry out of them are what those of the old
buffer lack to a power of two, and the bytes above are the old ones. -/
theorem foldlM_negateByte (b : Buffer order) {count : Nat} (hcount : count ≤ b.size) :
    ∃ t, (List.range count).foldlM negateByte (b, true) = .ok t ∧ t.1.size = b.size ∧
      (∀ j, 8 * count ≤ j → t.1.value.testBit j = b.value.testBit j) ∧
      t.1.low count + 2 ^ (8 * count) * t.2.toNat + b.low count = 2 ^ (8 * count) := by
  apply Outcome.foldlM_range
  · exact ⟨rfl, fun _ _ => rfl, by rw [b.low_zero]; rfl⟩
  · rintro index hindex ⟨c, carry⟩ ⟨hsize, habove, hlow⟩
    simp only at hsize habove hlow
    obtain ⟨x, d, hd, hdsize, hxbits, hdbits⟩ :=
      negateByte_of_size c carry (by omega : index < c.size)
    have hkept : d.low index = c.low index :=
      Buffer.low_congr fun j hj => by rw [hdbits, if_neg (by omega)]
    have hdbyte : ∀ k < 8, (invertWithCarry x carry).1.getLsbD k = d.value.testBit (8 * index + k) := by
      intro k hk
      have hdiv : (8 * index + k) / 8 = index := by omega
      have hmod : (8 * index + k) % 8 = k := by omega
      rw [hdbits, if_pos hdiv, hmod]
    have hbbyte : ∀ k < 8, x.getLsbD k = b.value.testBit (8 * index + k) := by
      intro k hk
      rw [hxbits k hk, habove _ (Nat.le_add_right _ _)]
    refine ⟨_, hd, hdsize.trans hsize, ?_, ?_⟩
    · intro j hj
      rw [hdbits, if_neg (by omega), habove j (by omega)]
    · have hbyte := invertWithCarry_add x carry
      rw [d.low_succ hdbyte, b.low_succ hbbyte, hkept, Nat.mul_succ, pow_add]
      generalize 2 ^ (8 * index) = power at hlow ⊢
      generalize (invertWithCarry x carry).1.toNat = high at hbyte ⊢
      generalize (invertWithCarry x carry).2.toNat = out at hbyte ⊢
      calc high * power + c.low index + power * 2 ^ 8 * out + (x.toNat * power + b.low index)
          = (high + 256 * out + x.toNat) * power + (c.low index + b.low index) := by ring
        _ = 255 * power + (c.low index + power * carry.toNat + b.low index) := by
            rw [hbyte]
            ring
        _ = power * 2 ^ 8 := by
            rw [hlow]
            ring

/-- What makes up a multiple of `power` together with `v` is what `v` lacks to one. -/
theorem mod_eq_sub_of_add_mod {a v power : Nat} (hpos : 0 < power) (h : (a + v) % power = 0) :
    a % power = (power - v % power) % power := by
  have ha := Nat.mod_lt a hpos
  have hv := Nat.mod_lt v hpos
  rw [Nat.add_mod] at h
  by_cases hzero : v % power = 0
  · rw [hzero, Nat.add_zero, Nat.mod_mod] at h
    rw [hzero, Nat.sub_zero, Nat.mod_self, h]
  · have hge : power ≤ a % power + v % power := by
      by_contra hlt
      rw [Nat.mod_eq_of_lt (by omega)] at h
      omega
    rw [Nat.mod_eq_sub_mod hge, Nat.mod_eq_of_lt (by omega)] at h
    rw [Nat.mod_eq_of_lt (by omega : power - v % power < power)]
    omega

/-- The loop that negates and the clearing of the padding after it. -/
theorem negate_steps (r : Register order n) :
    ∃ (c : Buffer order) (carry : Bool) (s : Register order n),
      (List.range (byteCount n)).foldlM negateByte (r.bytes, true) = .ok (c, carry) ∧
      clearPadding n c = .ok s.bytes ∧ s.bytes.value = (2 ^ n - r.value) % 2 ^ n := by
  have hsize := r.size_eq
  obtain ⟨⟨c, carry⟩, hc, hcsize, -, hlow⟩ := foldlM_negateByte r.bytes (Nat.le_refl _)
  simp only at hcsize hlow
  obtain ⟨s, hs, hbits⟩ := clearPadding_of_size (hcsize.trans hsize)
  rw [hsize] at hc
  refine ⟨c, carry, s, hc, hs, ?_⟩
  have hvalue : s.bytes.value = c.value % 2 ^ n := by
    apply Nat.eq_of_testBit_eq
    intro j
    rw [hbits, Nat.testBit_mod_two_pow]
  rw [hvalue]
  apply mod_eq_sub_of_add_mod (Nat.two_pow_pos n)
  have hclow := c.low_size
  rw [hcsize] at hclow
  rw [hclow, r.bytes.low_size, hsize, eight_mul_byteCount, pow_add] at hlow
  cases carry with
  | true =>
      have hnone : c.value + r.bytes.value = 0 := by
        rw [Bool.toNat_true, Nat.mul_one] at hlow
        omega
      rw [hnone, Nat.zero_mod]
  | false =>
      rw [Bool.toNat_false, Nat.mul_zero, Nat.add_zero] at hlow
      rw [hlow, Nat.mul_mod_right]

theorem negate_of_steps (r : Register order n) {c : Buffer order} {carry : Bool}
    {s : Register order n}
    (hc : (List.range (byteCount n)).foldlM negateByte (r.bytes, true) = .ok (c, carry))
    (hs : clearPadding n c = .ok s.bytes) : r.negate = .ok s := by
  rw [negate, hc, Outcome.ok_bind]
  simp only [hs, Outcome.ok_bind, ofSized_bytes]

/-- Negation replaces the number by what it lacks to a power of two and clears the padding. -/
theorem negate_eq (r : Register order n) :
    ∃ s, r.negate = .ok s ∧ s.bytes.value = (2 ^ n - r.value) % 2 ^ n := by
  obtain ⟨c, carry, s, hc, hs, hvalue⟩ := r.negate_steps
  exact ⟨s, r.negate_of_steps hc hs, hvalue⟩

end Register

end Bitfield
