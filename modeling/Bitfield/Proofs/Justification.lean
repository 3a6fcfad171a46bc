import Bitfield.Justification
import Bitfield.Proofs.Register.Codec
import Bitfield.Proofs.Rendering

/-! Moving bits to one end of a buffer. Each byte takes bits from a neighbour that its loop has not
reached yet, so the bits of the whole buffer move by the padding: they are multiplied or divided by a
power of two, and no number changes. -/

namespace Bitfield

theorem moveUp_of_lt (x below : Byte) {shift : Nat} (h : shift < 8) :
    ∃ y, moveUp x below shift = .ok y ∧ ∀ k < 8, y.getLsbD k =
      if k < shift then below.getLsbD (8 - shift + k) else x.getLsbD (k - shift) := by
  have hgap : 8 - (8 - shift) = shift := by omega
  refine ⟨x <<< shift ||| below >>> (8 - shift), ?_, ?_⟩
  · rw [moveUp, Checked.sub_of_le (by omega), Outcome.ok_bind,
      Word.justifyLeft_of_le _ (Nat.sub_le _ _), Outcome.ok_bind,
      Word.justifyRight_of_le _ (Nat.le_of_lt h), Outcome.ok_bind, hgap]
  · intro k hk
    rw [BitVec.getLsbD_or, BitVec.getLsbD_shiftLeft, BitVec.getLsbD_ushiftRight]
    by_cases hlow : k < shift
    · simp [hlow]
    · have habove : below.getLsbD (8 - shift + k) = false := BitVec.getLsbD_of_ge _ _ (by omega)
      simp [hlow, hk, habove]

theorem moveDown_of_lt (x above : Byte) {shift : Nat} (h : shift < 8) :
    ∃ y, moveDown x above shift = .ok y ∧ ∀ k < 8, y.getLsbD k =
      if k + shift < 8 then x.getLsbD (k + shift) else above.getLsbD (k + shift - 8) := by
  have hgap : 8 - (8 - shift) = shift := by omega
  refine ⟨x >>> shift ||| above <<< (8 - shift), ?_, ?_⟩
  · rw [moveDown, Checked.sub_of_le (by omega), Outcome.ok_bind,
      Word.justifyRight_of_le _ (Nat.sub_le _ _), Outcome.ok_bind,
      Word.justifyLeft_of_le _ (Nat.le_of_lt h), Outcome.ok_bind, hgap]
  · intro k hk
    rw [BitVec.getLsbD_or, BitVec.getLsbD_shiftLeft, BitVec.getLsbD_ushiftRight, Nat.add_comm shift]
    by_cases hlow : k + shift < 8
    · have hbelow : k < 8 - shift := by omega
      simp [hlow, hbelow]
    · have habove : x.getLsbD (k + shift) = false := BitVec.getLsbD_of_ge _ _ (by omega)
      have hnot : ¬ k < 8 - shift := by omega
      have hplace : k - (8 - shift) = k + shift - 8 := by omega
      simp [hlow, hk, habove, hnot, hplace]

namespace Register

variable {n : Nat}

theorem moveByteUp_of_lt (b : Buffer .big) {shift index : Nat} (hshift : shift < 8)
    (hpos : 0 < index) (hindex : index < b.size) :
    ∃ c, moveByteUp shift b index = .ok c ∧ c.size = b.size ∧
      ∀ j, c.value.testBit j =
        if j / 8 = index then b.value.testBit (j - shift) else b.value.testBit j := by
  have hprevious : index - 1 < b.size := by omega
  obtain ⟨x, hx, hxbits⟩ := b.byte_of_size hindex
  obtain ⟨below, hbelow, hbelowBits⟩ := b.byte_of_size hprevious
  obtain ⟨y, hy, hybits⟩ := moveUp_of_lt x below hshift
  obtain ⟨c, hc, hsize, hbits⟩ := b.put_of_size y hindex
  refine ⟨c, ?_, hsize, ?_⟩
  · rw [moveByteUp, Checked.sub_of_le hpos, Outcome.ok_bind, hx, Outcome.ok_bind, hbelow,
      Outcome.ok_bind, hy, Outcome.ok_bind, hc]
  · intro j
    rw [hbits]
    by_cases hj : j / 8 = index
    · rw [if_pos hj, if_pos hj, hybits _ (Nat.mod_lt j (by decide))]
      by_cases hlow : j % 8 < shift
      · have hplace : 8 * (index - 1) + (8 - shift + j % 8) = j - shift := by omega
        rw [if_pos hlow, hbelowBits _ (by omega), hplace]
      · have hplace : 8 * index + (j % 8 - shift) = j - shift := by omega
        rw [if_neg hlow, hxbits _ (by omega), hplace]
    · rw [if_neg hj, if_neg hj]

/-- The bytes from 1 to `count` moved up, the highest first. Each reads only below itself, where nothing
has moved yet. -/
theorem foldlM_moveByteUp (b : Buffer .big) {shift count : Nat} (hshift : shift < 8)
    (hcount : count < b.size) :
    ∃ c, (List.range' 1 count).reverse.foldlM (moveByteUp shift) b = .ok c ∧ c.size = b.size ∧
      ∀ j, c.value.testBit j =
        if 8 ≤ j ∧ j < 8 * (count + 1) then b.value.testBit (j - shift)
        else b.value.testBit j := by
  induction count generalizing b with
  | zero => exact ⟨b, rfl, rfl, fun j => by rw [if_neg (by omega)]⟩
  | succ count ih =>
      obtain ⟨c, hc, hcsize, hcbits⟩ := moveByteUp_of_lt b hshift (Nat.succ_pos count) hcount
      obtain ⟨d, hd, hdsize, hdbits⟩ := ih c (by omega)
      refine ⟨d, ?_, hdsize.trans hcsize, ?_⟩
      · rw [List.range'_concat, Nat.one_mul, Nat.add_comm 1 count, List.reverse_append,
          List.reverse_singleton, List.singleton_append, List.foldlM_cons, hc, Outcome.ok_bind, hd]
      · intro j
        rw [hdbits]
        by_cases hlow : 8 ≤ j ∧ j < 8 * (count + 1)
        · rw [if_pos hlow, if_pos (by omega), hcbits, if_neg (by omega)]
        · rw [if_neg hlow, hcbits]
          by_cases htop : j / 8 = count + 1
          · rw [if_pos htop, if_pos (by omega)]
          · rw [if_neg htop, if_neg (by omega)]

theorem leftJustify_of_empty (r : Register .big n) (h : r.bytes.size = 0) :
    r.leftJustify = .ok ⟨r.bytes, r.size_eq⟩ := by
  have hloop : List.range' 1 (r.bytes.size - 1) = [] := by
    rw [h]
    rfl
  have hlow := r.bytes.lowByte?_of_empty h
  rw [leftJustify, hloop]
  simp only [List.reverse_nil, List.foldlM_nil, Outcome.pure_eq_ok, Outcome.ok_bind, hlow]
  exact dif_pos r.size_eq

theorem leftJustify_of_pos (r : Register .big n) (h : 0 < r.bytes.size) :
    ∃ s, r.leftJustify = .ok s ∧
      ∀ j < 8 * byteCount n, s.bytes.value.testBit j =
        (decide (padding n ≤ j) && r.bytes.value.testBit (j - padding n)) := by
  have hpadding := padding_lt n
  have hsize := r.size_eq
  have hgap : 8 - (8 - padding n) = padding n := by omega
  obtain ⟨b, hb, hbsize, hbits⟩ := foldlM_moveByteUp r.bytes hpadding (Nat.sub_lt h Nat.one_pos)
  have hbpos : 0 < b.size := by omega
  obtain ⟨low, hlow, hlowBits⟩ := b.lowByte?_of_pos hbpos
  obtain ⟨c, hc, hcsize, hcbits⟩ := b.put_of_size (low <<< padding n) hbpos
  have hcsize' : c.size = byteCount n := by omega
  refine ⟨⟨c, hcsize'⟩, ?_, ?_⟩
  · rw [leftJustify, hb, Outcome.ok_bind, hlow, Outcome.ok_bind]
    simp only
    rw [Checked.sub_of_le (by omega), Outcome.ok_bind,
      Word.justifyLeft_of_le _ (Nat.sub_le _ _), Outcome.ok_bind, hgap, hc, Outcome.ok_bind]
    exact dif_pos hcsize'
  · intro j hj
    rw [hcbits]
    by_cases hfirst : j / 8 = 0
    · have hmod : j % 8 = j := by omega
      have hbyte : j < 8 := by omega
      rw [if_pos hfirst, BitVec.getLsbD_shiftLeft, hmod]
      by_cases hzero : j < padding n
      · simp [hzero, Nat.not_le.2 hzero]
      · rw [hlowBits _ (by omega), hbits, if_neg (by omega)]
        simp [hbyte, hzero, Nat.le_of_not_lt hzero]
    · have hup : padding n ≤ j := by omega
      rw [if_neg hfirst, hbits, if_pos (by omega), decide_eq_true hup, Bool.true_and]

/-- Moved to the start, the bits of a register lie above as many zeros as it had bits of padding. -/
theorem leftJustify_eq (r : Register .big n) :
    ∃ s, r.leftJustify = .ok s ∧ s.bytes.value = r.value * 2 ^ padding n := by
  have hbytes := eight_mul_byteCount n
  obtain ⟨s, hs, hbits⟩ : ∃ s, r.leftJustify = .ok s ∧
      ∀ j < 8 * byteCount n, s.bytes.value.testBit j =
        (decide (padding n ≤ j) && r.bytes.value.testBit (j - padding n)) := by
    rcases Nat.eq_zero_or_pos r.bytes.size with hempty | hpos
    · refine ⟨_, leftJustify_of_empty r hempty, fun j hj => ?_⟩
      rw [r.size_eq] at hempty
      omega
    · exact leftJustify_of_pos r hpos
  refine ⟨s, hs, Nat.eq_of_testBit_eq fun j => ?_⟩
  rw [Nat.testBit_mul_two_pow, testBit_value]
  by_cases hj : j < 8 * byteCount n
  · rw [hbits j hj]
    by_cases hup : padding n ≤ j
    · have hdata : j - padding n < n := by omega
      rw [decide_eq_true hdata, Bool.true_and]
    · rw [decide_eq_false hup, Bool.false_and, Bool.false_and]
  · have hdata : ¬ j - padding n < n := by omega
    rw [s.bytes.testBit_value_of_le (by rw [s.size_eq]; omega), decide_eq_false hdata,
      Bool.false_and, Bool.and_false]

end Register

namespace BitString

variable {n : Nat}

theorem moveByteDown_of_lt (b : Buffer .big) {shift index : Nat} (hshift : shift < 8)
    (hnext : index + 1 < b.size) (hlimit : b.size ≤ limit indexBits) :
    ∃ c, moveByteDown shift b index = .ok c ∧ c.size = b.size ∧
      ∀ j, c.value.testBit j =
        if j / 8 = index then b.value.testBit (j + shift) else b.value.testBit j := by
  have hindex : index < b.size := Nat.lt_of_succ_lt hnext
  obtain ⟨x, hx, hxbits⟩ := b.byte_of_size hindex
  obtain ⟨above, habove, haboveBits⟩ := b.byte_of_size hnext
  obtain ⟨y, hy, hybits⟩ := moveDown_of_lt x above hshift
  obtain ⟨c, hc, hsize, hbits⟩ := b.put_of_size y hindex
  refine ⟨c, ?_, hsize, ?_⟩
  · rw [moveByteDown, Checked.add_of_lt (by omega), Outcome.ok_bind, hx, Outcome.ok_bind, habove,
      Outcome.ok_bind, hy, Outcome.ok_bind, hc]
  · intro j
    rw [hbits]
    by_cases hj : j / 8 = index
    · rw [if_pos hj, if_pos hj, hybits _ (Nat.mod_lt j (by decide))]
      by_cases hlow : j % 8 + shift < 8
      · have hplace : 8 * index + (j % 8 + shift) = j + shift := by omega
        rw [if_pos hlow, hxbits _ (by omega), hplace]
      · have hplace : 8 * (index + 1) + (j % 8 + shift - 8) = j + shift := by omega
        rw [if_neg hlow, haboveBits _ (by omega), hplace]
    · rw [if_neg hj, if_neg hj]

/-- The lowest `count` bytes moved down, the lowest first. -/
theorem foldlM_moveByteDown (b : Buffer .big) {shift count : Nat} (hshift : shift < 8)
    (hcount : count < b.size) (hlimit : b.size ≤ limit indexBits) :
    ∃ c, (List.range count).foldlM (moveByteDown shift) b = .ok c ∧ c.size = b.size ∧
      ∀ j, c.value.testBit j =
        if j < 8 * count then b.value.testBit (j + shift) else b.value.testBit j := by
  apply Outcome.foldlM_range
  · exact ⟨rfl, fun j => by rw [if_neg (by omega)]⟩
  · rintro index hindex c ⟨hcsize, hcbits⟩
    obtain ⟨d, hd, hdsize, hdbits⟩ :=
      moveByteDown_of_lt c hshift (by omega : index + 1 < c.size) (by omega)
    refine ⟨d, hd, hdsize.trans hcsize, ?_⟩
    intro j
    rw [hdbits]
    by_cases htop : j / 8 = index
    · rw [if_pos htop, if_pos (by omega), hcbits, if_neg (by omega)]
    · rw [if_neg htop, hcbits]
      by_cases hlow : j < 8 * index
      · rw [if_pos hlow, if_pos (by omega)]
      · rw [if_neg hlow, if_neg (by omega)]

theorem rightJustify_of_empty (s : BitString n) (h : s.bytes.size = 0) :
    s.rightJustify = .ok ⟨s.bytes, s.size_eq⟩ := by
  have hloop : List.range (s.bytes.size - 1) = [] := by
    rw [h]
    rfl
  have hhigh := s.bytes.highByte?_of_empty h
  rw [rightJustify, hloop]
  simp only [List.foldlM_nil, Outcome.pure_eq_ok, Outcome.ok_bind, hhigh]
  exact dif_pos s.size_eq

theorem rightJustify_of_pos (s : BitString n) (h : 0 < s.bytes.size)
    (hlimit : s.bytes.size ≤ limit indexBits) :
    ∃ r, s.rightJustify = .ok r ∧
      ∀ j < 8 * byteCount n, r.bytes.value.testBit j = s.bytes.value.testBit (j + padding n) := by
  have hpadding := padding_lt n
  have hsize := s.size_eq
  have hgap : 8 - (8 - padding n) = padding n := by omega
  obtain ⟨b, hb, hbsize, hbits⟩ :=
    foldlM_moveByteDown s.bytes hpadding (Nat.sub_lt h Nat.one_pos) hlimit
  have hlast : b.size - 1 < b.toList.length := by
    rw [Buffer.length_toList]
    omega
  have hhigh := b.highByte?_of_pos hlast
  have hindex : b.size - 1 < b.size := by omega
  obtain ⟨c, hc, hcsize, hcbits⟩ := b.put_of_size (b.toList[b.size - 1] >>> padding n) hindex
  have hcsize' : c.size = byteCount n := by omega
  refine ⟨⟨c, hcsize'⟩, ?_, ?_⟩
  · rw [rightJustify, hb, Outcome.ok_bind, hhigh, Outcome.ok_bind]
    simp only
    rw [Checked.sub_of_le (by omega), Outcome.ok_bind,
      Word.justifyRight_of_le _ (Nat.sub_le _ _), Outcome.ok_bind, hgap, hc, Outcome.ok_bind]
    exact dif_pos hcsize'
  · intro j hj
    rw [hcbits]
    by_cases htop : j / 8 = b.size - 1
    · rw [if_pos htop, BitVec.getLsbD_ushiftRight]
      by_cases hinside : padding n + j % 8 < 8
      · have hplace : 8 * (b.size - 1) + (padding n + j % 8) = j + padding n := by omega
        rw [b.getLsbD_getElem hlast hinside, hplace, hbits, if_neg (by omega)]
      · rw [BitVec.getLsbD_of_ge _ _ (by omega), s.bytes.testBit_value_of_le (by omega)]
    · rw [if_neg htop, hbits, if_pos (by omega)]

/-- Moved to the end, the bits of a string are the whole number that the bytes hold. -/
theorem rightJustify_eq (s : BitString n) (hn : n < limit indexBits) :
    ∃ r, s.rightJustify = .ok r ∧ r.bytes.value = s.value := by
  have hbytes := eight_mul_byteCount n
  have hlimit := eight_mul_byteCount_le hn
  obtain ⟨r, hr, hbits⟩ : ∃ r, s.rightJustify = .ok r ∧
      ∀ j < 8 * byteCount n, r.bytes.value.testBit j = s.bytes.value.testBit (j + padding n) := by
    rcases Nat.eq_zero_or_pos s.bytes.size with hempty | hpos
    · refine ⟨_, rightJustify_of_empty s hempty, fun j hj => ?_⟩
      rw [s.size_eq] at hempty
      omega
    · exact rightJustify_of_pos s hpos (by rw [s.size_eq]; omega)
  refine ⟨r, hr, Nat.eq_of_testBit_eq fun j => ?_⟩
  rw [testBit_value, Nat.add_comm]
  by_cases hj : j < 8 * byteCount n
  · exact hbits j hj
  · rw [r.bytes.testBit_value_of_le (by rw [r.size_eq]; omega),
      s.bytes.testBit_value_of_le (by rw [s.size_eq]; omega)]

theorem value_lt (s : BitString n) : s.value < 2 ^ n := by
  have hbytes := Buffer.valueOf_lt s.bytes.toList
  rw [Buffer.length_toList, s.size_eq, eight_mul_byteCount, limit_eq, Nat.pow_add, Nat.mul_comm] at hbytes
  rw [value, limit_eq]
  exact Nat.div_lt_of_lt_mul hbytes

/-- A string keeps the number of the register that it was moved from. -/
theorem value_of_bytes {s : BitString n} {v : Nat} (h : s.bytes.value = v * 2 ^ padding n) :
    s.value = v := by
  rw [value, limit_eq, h, Nat.mul_div_cancel _ (Nat.two_pow_pos _)]

end BitString

/-- Moving the bits of a register to the start and those of a string to the end changes neither the
bits that are read nor the text that is shown, and leaves zeros where the padding then lies. One after
the other they give back what there was, with its padding cleared. -/
theorem justification_inverse {n : Nat} (hn : n < limit indexBits) :
    (∀ x : Register .big n, ∃ (p : BitString n) (y : Register .big n),
      x.leftJustify = .ok p ∧ p.rightJustify = .ok y ∧
      (∀ i < n, ∃ on, x.getBit i = .ok on ∧ p.getBit i = .ok on) ∧
      (∃ text, x.render = .ok text ∧ p.render = .ok text) ∧
      (∀ j < padding n, p.bytes.value.testBit j = false) ∧
      (∀ j, y.bytes.value.testBit j = (decide (j < n) && x.bytes.value.testBit j)) ∧
      (y = x ↔ ∀ j ≥ n, x.bytes.value.testBit j = false)) ∧
    (∀ q : BitString n, ∃ (y : Register .big n) (p : BitString n),
      q.rightJustify = .ok y ∧ y.leftJustify = .ok p ∧
      (∀ i < n, ∃ on, q.getBit i = .ok on ∧ y.getBit i = .ok on) ∧
      (∃ text, q.render = .ok text ∧ y.render = .ok text) ∧
      (∀ j ≥ n, y.bytes.value.testBit j = false) ∧
      ∀ j, p.bytes.value.testBit j = (decide (padding n ≤ j) && q.bytes.value.testBit j)) := by
  constructor
  · intro x
    obtain ⟨p, hp, hbytes⟩ := x.leftJustify_eq
    obtain ⟨y, hy, hvalue⟩ := p.rightJustify_eq hn
    have hpx := BitString.value_of_bytes hbytes
    rw [hpx] at hvalue
    refine ⟨p, y, hp, hy, ?_, ?_, ?_, ?_, ?_⟩
    · intro i hi
      exact ⟨_, x.getBit_of_lt hi, by rw [p.getBit_of_lt hn hi, hpx]⟩
    · exact ⟨_, x.render_eq, by rw [p.render_eq hn, hpx]⟩
    · intro j hj
      rw [hbytes, Nat.testBit_mul_two_pow, decide_eq_false (Nat.not_le.2 hj), Bool.false_and]
    · intro j
      rw [hvalue, x.testBit_value]
    · rw [← x.bytes_value_eq_iff]
      constructor
      · rintro rfl
        exact hvalue
      · exact fun h => Register.eq_of_bytes_value (hvalue.trans h.symm)
  · intro q
    obtain ⟨y, hy, hvalue⟩ := q.rightJustify_eq hn
    obtain ⟨p, hp, hbytes⟩ := y.leftJustify_eq
    have hyq : y.value = q.value := by
      rw [Register.value, hvalue, limit_eq, Nat.mod_eq_of_lt q.value_lt]
    refine ⟨y, p, hy, hp, ?_, ?_, ?_, ?_⟩
    · intro i hi
      exact ⟨_, q.getBit_of_lt hn hi, by rw [y.getBit_of_lt hi, hyq]⟩
    · exact ⟨_, q.render_eq hn, by rw [y.render_eq, hyq]⟩
    · rw [← y.bytes_value_eq_iff, hvalue, hyq]
    · intro j
      rw [hbytes, hyq, Nat.testBit_mul_two_pow, q.testBit_value]
      by_cases hup : padding n ≤ j
      · rw [Nat.add_sub_cancel' hup]
      · rw [decide_eq_false hup, Bool.false_and, Bool.false_and]

theorem justification_inverse_dirty :
    12 < limit indexBits ∧
    (∃ (p : BitString 12) (y : Register .big 12),
      (⟨⟨#[0xFA, 0xD7]⟩, rfl⟩ : Register .big 12).leftJustify = .ok p ∧ p.rightJustify = .ok y ∧
      y ≠ ⟨⟨#[0xFA, 0xD7]⟩, rfl⟩) ∧
    (∃ (y : Register .big 12) (p : BitString 12),
      (⟨⟨#[0xAD, 0x7F]⟩, rfl⟩ : BitString 12).rightJustify = .ok y ∧ y.leftJustify = .ok p ∧
      p.bytes.value.testBit 3 = false) := by
  obtain ⟨hleft, hright⟩ := justification_inverse (n := 12) (by decide)
  obtain ⟨p, y, hp, hy, -, -, -, -, hiff⟩ := hleft ⟨⟨#[0xFA, 0xD7]⟩, rfl⟩
  obtain ⟨z, q, hz, hq, -, -, -, hbits⟩ := hright ⟨⟨#[0xAD, 0x7F]⟩, rfl⟩
  have hdirty : ¬ ∀ j ≥ 12,
      (⟨⟨#[0xFA, 0xD7]⟩, rfl⟩ : Register .big 12).bytes.value.testBit j = false :=
    fun h => absurd (h 12 (Nat.le_refl 12)) (by decide)
  exact ⟨by decide, ⟨p, y, hp, hy, mt hiff.1 hdirty⟩, z, q, hz, hq, by rw [hbits]; decide⟩

end Bitfield
