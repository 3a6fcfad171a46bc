import Bitfield.Proofs.Buffer
import Bitfield.Proofs.Outcome
import Bitfield.Register.Writing
import Mathlib.Tactic.Ring

/-! Reading and writing an interval of a register, bit by bit. However the interval lies across the
bytes, what is read are its bits of the number in the bytes, and what is written are those bits and
no others. -/

namespace Bitfield

theorem limit_eq (bits : Nat) : limit bits = 2 ^ bits := rfl

/-- No interval inside `n` bits ends past the last index. -/
theorem intervalWithin_iff {n : Nat} (hn : n < limit indexBits) (length offset : Nat) :
    IntervalWithin length offset n ↔ offset + length ≤ n :=
  ⟨And.right, fun h => ⟨Nat.lt_of_le_of_lt h hn, h⟩⟩

namespace Register

variable {order : ByteOrder} {n : Nat}

theorem value_lt (r : Register order n) : r.value < 2 ^ n :=
  Nat.mod_lt _ (Nat.two_pow_pos n)

theorem testBit_value (r : Register order n) (j : Nat) :
    r.value.testBit j = (decide (j < n) && r.bytes.value.testBit j) := by
  rw [value, limit_eq, Nat.testBit_mod_two_pow]

theorem eq_of_bytes_value {r s : Register order n} (h : r.bytes.value = s.bytes.value) : r = s := by
  have hsize : r.bytes.size = s.bytes.size := by rw [r.size_eq, s.size_eq]
  have hbytes := Buffer.ext_toList (Buffer.toList_eq_of_value hsize h)
  cases r
  cases s
  cases hbytes
  rfl

/-- The padding of a register is clear exactly when its bytes hold no more than its number. -/
theorem bytes_value_eq_iff (r : Register order n) :
    r.bytes.value = r.value ↔ ∀ j ≥ n, r.bytes.value.testBit j = false := by
  constructor
  · intro h j hj
    rw [h, testBit_value, decide_eq_false (Nat.not_lt.2 hj), Bool.false_and]
  · intro h
    apply Nat.eq_of_testBit_eq
    intro j
    rw [testBit_value]
    by_cases hj : j < n
    · rw [decide_eq_true hj, Bool.true_and]
    · rw [h j (Nat.le_of_not_lt hj), Bool.and_false]

theorem extract_zero (r : Register order n) (w offset : Nat) :
    r.extract w 0 offset = .ok 0 := by
  rw [extract, if_pos rfl]

theorem extract_of_same_byte (r : Register order n) (w : Nat) {length offset : Nat}
    (hpos : 0 < length) (hend : offset + length ≤ n) (hindex : offset + length < limit indexBits)
    (hsame : offset / 8 = (offset + length - 1) / 8) :
    ∃ word : BitVec w, r.extract w length offset = .ok word ∧ ∀ j < w,
      word.getLsbD j = (decide (j < length) && r.bytes.value.testBit (offset + j)) := by
  have hstart : offset < n := by omega
  have hlength : length ≤ 8 := by omega
  have hbyte := r.byte_div_lt hstart
  obtain ⟨mask, hmask, hbits⟩ := Word.lowMask_of_le hlength
  refine ⟨(r.bytes.toList[offset / 8] >>> (offset % 8) &&& mask).setWidth w, ?_, ?_⟩
  · rw [extract, if_neg (by omega), Checked.add_of_lt hindex, Outcome.ok_bind,
      Checked.sub_of_le (by omega), Outcome.ok_bind]
    simp only [if_pos hsame]
    rw [Buffer.byte_of_lt _ hbyte, Outcome.ok_bind,
      Checked.shiftRight_of_lt _ (Nat.mod_lt offset (by decide)), Outcome.ok_bind, hmask,
      Outcome.ok_bind]
  · intro j hj
    rw [BitVec.getLsbD_setWidth, BitVec.getLsbD_and, BitVec.getLsbD_ushiftRight, hbits]
    by_cases hlow : j < length
    · have hplace : 8 * (offset / 8) + (offset % 8 + j) = offset + j := by omega
      rw [Buffer.getLsbD_getElem _ hbyte (by omega), hplace]
      simp [hj, hlow]
    · simp [hlow]

/-- An interval that ends in a later byte than it starts in. -/
theorem extract_of_later_byte (r : Register order n) (w : Nat) {length offset : Nat}
    (hend : offset + length ≤ n) (hindex : offset + length < limit indexBits)
    (hlater : offset / 8 < (offset + length - 1) / 8) :
    ∃ word : BitVec w, r.extract w length offset = .ok word ∧ ∀ j < w,
      word.getLsbD j = (decide (j < length) && r.bytes.value.testBit (offset + j)) := by
  have hstart : offset < n := by omega
  have htop : offset + length - 1 < n := by omega
  have hrest : offset + length - (offset + length - 1) / 8 * 8 ≤ 8 := by omega
  have hsecond : offset / 8 + 1 < limit indexBits := by omega
  have hfirst := r.byte_div_lt hstart
  have hlast := r.byte_div_lt htop
  obtain ⟨mask, hmask, hbits⟩ := Word.lowMask_of_le hrest
  obtain ⟨upper, hupper, hupperBits⟩ := Buffer.shiftIn_range' r.bytes
    ((r.bytes.toList[(offset + length - 1) / 8] &&& mask).setWidth w) (offset / 8 + 1)
    ((offset + length - 1) / 8 - (offset / 8 + 1)) (by omega)
  refine ⟨Word.shiftUp upper (8 - offset % 8) |||
    (r.bytes.toList[offset / 8] >>> (offset % 8)).setWidth w, ?_, ?_⟩
  · rw [extract, if_neg (by omega), Checked.add_of_lt hindex, Outcome.ok_bind,
      Checked.sub_of_le (by omega), Outcome.ok_bind]
    simp only [if_neg (Nat.ne_of_lt hlater)]
    rw [Checked.mul_of_lt (by omega), Outcome.ok_bind, Checked.sub_of_le (by omega),
      Outcome.ok_bind, hmask, Outcome.ok_bind, Buffer.byte_of_lt _ hlast, Outcome.ok_bind,
      Checked.add_of_lt hsecond, Outcome.ok_bind, hupper, Outcome.ok_bind,
      Checked.sub_of_le (by omega), Outcome.ok_bind, Buffer.byte_of_lt _ hfirst, Outcome.ok_bind,
      Checked.shiftRight_of_lt _ (Nat.mod_lt offset (by decide)), Outcome.ok_bind]
  · intro j hj
    rw [BitVec.getLsbD_or, Word.shiftUp_eq, BitVec.getLsbD_shiftLeft, BitVec.getLsbD_setWidth,
      BitVec.getLsbD_ushiftRight]
    by_cases hlow : j < 8 - offset % 8
    · have hplace : 8 * (offset / 8) + (offset % 8 + j) = offset + j := by omega
      have hlength : j < length := by omega
      rw [Buffer.getLsbD_getElem _ hfirst (by omega), hplace]
      simp [hj, hlow, hlength]
    · rw [BitVec.getLsbD_of_ge r.bytes.toList[offset / 8] _ (by omega), hupperBits _ (by omega)]
      by_cases hmiddle : j - (8 - offset % 8) < 8 * ((offset + length - 1) / 8 - (offset / 8 + 1))
      · have hplace : 8 * (offset / 8 + 1) + (j - (8 - offset % 8)) = offset + j := by omega
        have hlength : j < length := by omega
        rw [if_pos hmiddle, hplace]
        simp [hj, hlow, hlength]
      · rw [if_neg hmiddle, BitVec.getLsbD_setWidth, BitVec.getLsbD_and, hbits]
        have hplace : 8 * ((offset + length - 1) / 8) + (j - (8 - offset % 8) -
            8 * ((offset + length - 1) / 8 - (offset / 8 + 1))) = offset + j := by omega
        have hless : j - (8 - offset % 8) - 8 * ((offset + length - 1) / 8 - (offset / 8 + 1)) < w := by
          omega
        by_cases hlength : j < length
        · rw [Buffer.getLsbD_getElem _ hlast (by omega), hplace]
          have hinside : j - (8 - offset % 8) - 8 * ((offset + length - 1) / 8 - (offset / 8 + 1)) <
              offset + length - (offset + length - 1) / 8 * 8 := by omega
          simp [hj, hlow, hlength, hless, hinside]
        · have houtside : ¬ j - (8 - offset % 8) -
              8 * ((offset + length - 1) / 8 - (offset / 8 + 1)) <
              offset + length - (offset + length - 1) / 8 * 8 := by omega
          simp [hlength, houtside]

/-- The bits of an interval inside the value, moved to the bottom of a word. -/
theorem extract_of_within (r : Register order n) (w : Nat) {length offset : Nat}
    (h : IntervalWithin length offset n) :
    ∃ word : BitVec w, r.extract w length offset = .ok word ∧ ∀ j < w,
      word.getLsbD j = (decide (j < length) && r.bytes.value.testBit (offset + j)) := by
  rcases Nat.eq_zero_or_pos length with rfl | hpos
  · exact ⟨0, extract_zero r w offset, fun j _ => by simp⟩
  · have hbytes : offset / 8 ≤ (offset + length - 1) / 8 := by omega
    rcases Nat.lt_or_eq_of_le hbytes with hlater | hsame
    · exact extract_of_later_byte r w h.2 h.1 hlater
    · exact extract_of_same_byte r w hpos h.2 h.1 hsame

theorem extract_toNat (r : Register order n) {w length offset : Nat} (hlength : length ≤ w)
    (h : IntervalWithin length offset n) :
    ∃ word : BitVec w, r.extract w length offset = .ok word ∧
      word.toNat = r.value / 2 ^ offset % 2 ^ length := by
  obtain ⟨word, hword, hbits⟩ := extract_of_within r w h
  refine ⟨word, hword, Nat.eq_of_testBit_eq fun j => ?_⟩
  rw [Nat.testBit_mod_two_pow, Nat.testBit_div_two_pow, testBit_value, BitVec.testBit_toNat]
  have hend := h.2
  by_cases hj : j < length
  · rw [hbits j (by omega), Nat.add_comm j offset]
    have hdata : offset + j < n := by omega
    simp [hj, hdata]
  · rcases Nat.lt_or_ge j w with hjw | hjw
    · rw [hbits j hjw]
      simp [hj]
    · rw [BitVec.getLsbD_of_ge _ _ hjw]
      simp [hj]

theorem slice?_of_lt (r : Register order n) {w length : Nat} (offset : Nat) (h : w < length) :
    r.slice? w length offset = refuse (.tooManyBits length w) :=
  if_pos h

theorem slice?_of_not_within (r : Register order n) {w length offset : Nat} (hlength : length ≤ w)
    (h : ¬ IntervalWithin length offset n) :
    r.slice? w length offset = refuse (.intervalOutOfRange length offset n) := by
  rw [slice?, if_neg (Nat.not_lt.2 hlength), if_neg h]

theorem slice?_of_within (r : Register order n) {w length offset : Nat} (hlength : length ≤ w)
    (h : IntervalWithin length offset n) :
    r.slice? w length offset = r.extract w length offset := by
  rw [slice?, if_neg (Nat.not_lt.2 hlength), if_pos h]

/-- A chunk of a register is read as the number in its bits. -/
theorem readBits_of_within (r : Register order n) {length offset : Nat} (hlength : length ≤ 8)
    (h : IntervalWithin length offset n) :
    ∃ x, r.readBits length offset = .ok x ∧ x.toNat = r.value / 2 ^ offset % 2 ^ length := by
  rw [readBits, slice?, if_neg (Nat.not_lt.2 hlength), if_pos h]
  exact extract_toNat r hlength h

theorem writeBit_of_lt (r : Register order n) (bits : Byte) {offset k : Nat} (hk : k < 8)
    (hend : offset + k < n) (hindex : offset + k < limit indexBits) :
    ∃ s, writeBit offset bits r k = .ok s ∧
      ∀ j, s.bytes.value.testBit j =
        if j = offset + k then bits.getLsbD k else r.bytes.value.testBit j := by
  have hbit : (bits >>> k &&& 1 != 0) = bits.getLsbD k := by
    have := Word.bit_ne_zero (bits >>> k) (Nat.succ_pos 7)
    rwa [BitVec.getLsbD_ushiftRight, BitVec.shiftLeft_zero, Nat.add_zero] at this
  obtain ⟨s, hs, hbits⟩ := setBit_of_lt r (bits.getLsbD k) hend
  refine ⟨s, ?_, hbits⟩
  rw [writeBit, Checked.add_of_lt hindex, Outcome.ok_bind, Checked.shiftRight_of_lt _ hk,
    Outcome.ok_bind, hbit, hs]

/-- After `count` steps of writing an interval its lowest `count` bits are replaced. -/
theorem foldlM_writeBit (r : Register order n) (bits : Byte) (offset : Nat) {count : Nat}
    (hcount : count ≤ 8) (h : IntervalWithin count offset n) :
    ∃ s, (List.range count).foldlM (writeBit offset bits) r = .ok s ∧
      ∀ j, s.bytes.value.testBit j =
        if offset ≤ j ∧ j < offset + count then bits.getLsbD (j - offset)
        else r.bytes.value.testBit j := by
  obtain ⟨hindex, hend⟩ := h
  apply Outcome.foldlM_range
  · intro j
    rw [if_neg (by omega)]
  · intro k hk s hbits
    obtain ⟨t, ht, hlast⟩ := writeBit_of_lt s bits (by omega : k < 8) (by omega : offset + k < n) (by omega)
    refine ⟨t, ht, ?_⟩
    intro j
    rw [hlast]
    by_cases hj : j = offset + k
    · have hplace : j - offset = k := by omega
      rw [if_pos hj, if_pos (by omega), hplace]
    · rw [if_neg hj, hbits]
      by_cases hlow : offset ≤ j ∧ j < offset + k
      · rw [if_pos hlow, if_pos (by omega)]
      · rw [if_neg hlow, if_neg (by omega)]

theorem writeBits_of_lt (r : Register order n) (bits : Byte) {length : Nat} (offset : Nat)
    (h : 8 < length) : r.writeBits length offset bits = refuse (.tooManyBits length 8) :=
  if_pos h

theorem writeBits_of_not_within (r : Register order n) (bits : Byte) {length offset : Nat}
    (hlength : length ≤ 8) (h : ¬ IntervalWithin length offset n) :
    r.writeBits length offset bits = refuse (.intervalOutOfRange length offset n) := by
  rw [writeBits, if_neg (Nat.not_lt.2 hlength), if_neg h]

/-- A chunk is written into the bits of its interval and into no other, padding included. -/
theorem writeBits_of_within (r : Register order n) (bits : Byte) {length offset : Nat}
    (hlength : length ≤ 8) (h : IntervalWithin length offset n) :
    ∃ s, r.writeBits length offset bits = .ok s ∧
      ∀ j, s.bytes.value.testBit j =
        if offset ≤ j ∧ j < offset + length then bits.getLsbD (j - offset)
        else r.bytes.value.testBit j := by
  rw [writeBits, if_neg (Nat.not_lt.2 hlength), if_pos h]
  exact foldlM_writeBit r bits offset hlength h

end Register

end Bitfield
