import Bitfield.Proofs.IntType
import Bitfield.Proofs.Register.Interval

/-! Integers in registers. A number that is stored leaves its lowest bits in the register and clears
the padding, and a number that is read is that of the data bits, whichever the byte order. What is
stored is refused exactly when it is not in the range of the register, so a number that was read can
always be stored again. -/

namespace Bitfield

open Word (InRange number)

namespace Register

variable {order : ByteOrder} {n : Nat}

/-- The most significant byte holds its bits up to the width of the value, and the padding above. -/
theorem high_place (hn : 0 < n) {j : Nat} (hj : j / 8 = byteCount n - 1) :
    j % 8 + padding n < 8 ↔ j < n := by
  have := eight_mul_byteCount n
  have := padding_lt n
  omega

theorem ofSized_bytes (r : Register order n) : ofSized r.bytes = .ok r :=
  dif_pos r.size_eq

/-- Clearing the padding makes a register of the data bits. One without bits has no byte to clear. -/
theorem clearPadding_of_size {b : Buffer order} (hsize : b.size = byteCount n) :
    ∃ s : Register order n, clearPadding n b = .ok s.bytes ∧
      ∀ j, s.bytes.value.testBit j = (decide (j < n) && b.value.testBit j) := by
  have hbytes := eight_mul_byteCount n
  have hpadding := padding_lt n
  obtain ⟨mask, hmask, hbits⟩ := paddingMask_eq n
  rcases Nat.eq_zero_or_pos n with rfl | hn
  · have hzero : b.size = 0 := by omega
    refine ⟨⟨b, hsize⟩, ?_, ?_⟩
    · rw [clearPadding, hmask, Outcome.ok_bind, Buffer.modifyHigh?, if_pos hzero]
      rfl
    · intro j
      rw [b.testBit_value_of_le (by omega)]
      rfl
  · have hhigh : b.size - 1 < b.toList.length := by
      rw [Buffer.length_toList]
      omega
    obtain ⟨c, hc, hlist⟩ := b.modifyHigh?_of_pos (· &&& ~~~mask) hhigh
    have hcsize : c.size = byteCount n := by
      rw [← Buffer.length_toList, hlist, List.length_set, Buffer.length_toList, hsize]
    refine ⟨⟨c, hcsize⟩, ?_, ?_⟩
    · rw [clearPadding, hmask, Outcome.ok_bind, hc]
      rfl
    · intro j
      rw [Buffer.testBit_value_of_set hhigh hlist]
      by_cases hj : j / 8 = b.size - 1
      · have hplace := high_place hn (hj.trans (by rw [hsize]))
        have hbyte : b.value.testBit j = b.toList[b.size - 1].getLsbD (j % 8) := by
          rw [Buffer.testBit_value, hj, List.getD_eq_getElem?_getD, List.getElem?_eq_getElem hhigh,
            Option.getD_some]
        have hmod : j % 8 < 8 := Nat.mod_lt j (by decide)
        rw [if_pos hj, BitVec.getLsbD_and, BitVec.getLsbD_not, hbits, hbyte]
        by_cases hdata : j < n
        · simp [hdata, hmod, hplace.2 hdata]
        · simp [hdata, hmod, Nat.le_of_not_lt (mt hplace.1 hdata)]
      · rw [if_neg hj]
        by_cases hdata : j < n
        · simp [hdata]
        · rw [b.testBit_value_of_le (by omega), Bool.and_false]

/-- Bit `j` of what is stored of an integer. The index of its byte is handed on as a count. -/
def storedBit (ty : IntType) (x : ty.Value) (j : Nat) : Bool :=
  Word.bit ty.signed x (8 * narrow countBits (j / 8) + j % 8)

theorem storedBit_of_lt (ty : IntType) (x : ty.Value) {j : Nat} (h : j < 8 * limit countBits) :
    storedBit ty x j = Word.bit ty.signed x j := by
  have hindex : j / 8 < limit countBits := by omega
  rw [storedBit, narrow, Nat.mod_eq_of_lt hindex, Nat.div_add_mod]

theorem storeByte_of_lt (ty : IntType) (x : ty.Value) (b : Buffer order) {index : Nat}
    (hindex : index < b.size) :
    ∃ c, storeByte ty x b index = .ok c ∧ c.size = b.size ∧
      ∀ j, c.value.testBit j = if j / 8 = index then storedBit ty x j else b.value.testBit j := by
  obtain ⟨y, hy, hbits⟩ := ty.byteAt_eq x (narrow countBits index)
  obtain ⟨c, hc, hsize, hset⟩ := b.put_of_size y hindex
  refine ⟨c, ?_, hsize, ?_⟩
  · rw [storeByte, hy, Outcome.ok_bind, hc]
  · intro j
    rw [hset]
    split
    · rename_i hj
      rw [hbits _ (Nat.mod_lt j (by decide)), storedBit, hj]
    · rfl

/-- After `count` steps of storing an integer the lowest `count` bytes are replaced. -/
theorem foldlM_storeByte (ty : IntType) (x : ty.Value) (b : Buffer order) {count : Nat}
    (hsize : count ≤ b.size) :
    ∃ c, (List.range count).foldlM (storeByte ty x) b = .ok c ∧ c.size = b.size ∧
      ∀ j, c.value.testBit j =
        if j < 8 * count then storedBit ty x j else b.value.testBit j := by
  apply Outcome.foldlM_range
  · exact ⟨rfl, fun j => by rw [if_neg (by omega)]⟩
  · rintro index hindex c ⟨hcsize, hbits⟩
    obtain ⟨d, hd, hdsize, hlast⟩ := storeByte_of_lt ty x c (by omega : index < c.size)
    refine ⟨d, hd, hdsize.trans hcsize, ?_⟩
    intro j
    rw [hlast, hbits]
    by_cases hj : j / 8 = index
    · rw [if_pos hj, if_pos (by omega)]
    · rw [if_neg hj]
      by_cases hlow : j < 8 * index
      · rw [if_pos hlow, if_pos (by omega)]
      · rw [if_neg hlow, if_neg (by omega)]

/-- The loop that stores an integer and the clearing of the padding after it. -/
theorem store_steps (r : Register order n) (ty : IntType) (x : ty.Value) :
    ∃ (b : Buffer order) (s : Register order n),
      (List.range (byteCount n)).foldlM (storeByte ty x) r.bytes = .ok b ∧
      clearPadding n b = .ok s.bytes ∧
      ∀ j, s.bytes.value.testBit j = (decide (j < n) && storedBit ty x j) := by
  have hbytes := eight_mul_byteCount n
  obtain ⟨b, hb, hbsize, hbits⟩ := foldlM_storeByte ty x r.bytes (Nat.le_of_eq r.size_eq.symm)
  obtain ⟨s, hs, hdata⟩ := clearPadding_of_size (hbsize.trans r.size_eq)
  refine ⟨b, s, hb, hs, ?_⟩
  intro j
  rw [hdata, hbits]
  by_cases hj : j < n
  · rw [if_pos (by omega)]
  · rw [decide_eq_false hj, Bool.false_and, Bool.false_and]

theorem store_of_steps (r : Register order n) {ty : IntType} {x : ty.Value} {b : Buffer order}
    {s : Register order n} (h : ty.fits x (narrow countBits n) = .ok true)
    (hb : (List.range (byteCount n)).foldlM (storeByte ty x) r.bytes = .ok b)
    (hs : clearPadding n b = .ok s.bytes) : r.store ty x = .ok s := by
  rw [store, h, Outcome.ok_bind, if_pos rfl, hb, Outcome.ok_bind, hs, Outcome.ok_bind, ofSized_bytes]

/-- An integer that passes the check is stored: its bits become the data bits, and the padding is
cleared. -/
theorem store_of_fits (r : Register order n) {ty : IntType} {x : ty.Value}
    (h : ty.fits x (narrow countBits n) = .ok true) :
    ∃ s, r.store ty x = .ok s ∧
      ∀ j, s.bytes.value.testBit j = (decide (j < n) && storedBit ty x j) := by
  obtain ⟨b, s, hb, hs, hbits⟩ := r.store_steps ty x
  exact ⟨s, r.store_of_steps h hb hs, hbits⟩

theorem store_of_not_fits (r : Register order n) {ty : IntType} {x : ty.Value}
    (h : ty.fits x (narrow countBits n) = .ok false) :
    r.store ty x = refuse (.valueOutOfRange n) := by
  rw [store, h]
  rfl

/-- A number in the range of a register is stored, and the bytes hold its lowest `n` bits and
nothing else. -/
theorem store_of_inRange (r : Register order n) {ty : IntType} {x : ty.Value}
    (hn : n < limit countBits) (h : InRange ty.signed n (ty.toInt x)) :
    ∃ s, r.store ty x = .ok s ∧ s.bytes.value = (BitVec.ofInt n (ty.toInt x)).toNat := by
  have hnarrow : narrow countBits n = n := Nat.mod_eq_of_lt hn
  have hfits : ty.fits x (narrow countBits n) = .ok true := by
    rw [hnarrow, ty.fits_eq, decide_eq_true h]
  obtain ⟨s, hs, hbits⟩ := store_of_fits r hfits
  refine ⟨s, hs, ?_⟩
  apply Nat.eq_of_testBit_eq
  intro j
  rw [hbits, BitVec.testBit_toNat]
  by_cases hj : j < n
  · rw [storedBit_of_lt _ _ (by omega), IntType.toInt_eq_number, Word.getLsbD_ofInt_number _ _ hj,
      decide_eq_true hj, Bool.true_and]
  · rw [BitVec.getLsbD_of_ge _ _ (Nat.le_of_not_lt hj), decide_eq_false hj, Bool.false_and]

theorem store_of_narrow_not_inRange (r : Register order n) {ty : IntType} {x : ty.Value}
    (h : ¬ InRange ty.signed (narrow countBits n) (ty.toInt x)) :
    r.store ty x = refuse (.valueOutOfRange n) := by
  apply r.store_of_not_fits
  rw [ty.fits_eq, decide_eq_false h]

theorem store_of_not_inRange (r : Register order n) {ty : IntType} {x : ty.Value}
    (hn : n < limit countBits) (h : ¬ InRange ty.signed n (ty.toInt x)) :
    r.store ty x = refuse (.valueOutOfRange n) := by
  have hnarrow : narrow countBits n = n := Nat.mod_eq_of_lt hn
  exact r.store_of_narrow_not_inRange (by rwa [hnarrow])

/-- All bytes shifted in, the highest one without its padding, are the number of the data bits. -/
theorem shiftIn_value (r : Register order n) (w : Nat) (hn : 0 < n) {mask : Byte}
    (hmask : ∀ j, mask.getLsbD j = (decide (8 - padding n ≤ j) && decide (j < 8)))
    (hhigh : r.bytes.size - 1 < r.bytes.toList.length) :
    r.bytes.shiftIn ((~~~mask &&& r.bytes.toList[r.bytes.size - 1]).setWidth w)
      ((List.range (byteCount n)).reverse.drop 1) = .ok (BitVec.ofNat w r.value) := by
  have hsize := r.size_eq
  have hbytes := eight_mul_byteCount n
  have hpadding := padding_lt n
  obtain ⟨last, hlast⟩ : ∃ last, byteCount n = last + 1 := ⟨byteCount n - 1, by omega⟩
  have hindices : (List.range (byteCount n)).reverse.drop 1 = (List.range' 0 last).reverse := by
    rw [hlast, List.range_succ, List.reverse_append, List.reverse_singleton, List.singleton_append,
      List.drop_one, List.tail_cons, List.range_eq_range']
  obtain ⟨word, hword, hbits⟩ := r.bytes.shiftIn_range'
    ((~~~mask &&& r.bytes.toList[r.bytes.size - 1]).setWidth w) 0 last
    (by rw [length_toList]; omega)
  rw [hindices, hword]
  apply congrArg Except.ok
  apply BitVec.eq_of_getLsbD_eq
  intro j hj
  rw [hbits j hj, BitVec.getLsbD_ofNat, decide_eq_true hj, Bool.true_and, testBit_value, Nat.mul_zero,
    Nat.zero_add]
  by_cases hlow : j < 8 * last
  · have hdata : j < n := by omega
    rw [if_pos hlow, decide_eq_true hdata, Bool.true_and]
  · rw [if_neg hlow, BitVec.getLsbD_setWidth, BitVec.getLsbD_and, BitVec.getLsbD_not, hmask]
    by_cases hdata : j < n
    · have hkept : ¬ 8 - padding n ≤ j - 8 * last := by omega
      have hbyte : j - 8 * last < 8 := by omega
      have hword : j - 8 * last < w := by omega
      have hplace : 8 * (r.bytes.size - 1) + (j - 8 * last) = j := by omega
      rw [Buffer.getLsbD_getElem _ hhigh hbyte, hplace, decide_eq_true hdata, decide_eq_false hkept,
        decide_eq_true hword, decide_eq_true hbyte]
      rfl
    · have hcleared : 8 - padding n ≤ j - 8 * last := by omega
      rw [decide_eq_false hdata, decide_eq_true hcleared]
      cases decide (j - 8 * last < 8) <;> simp

theorem read_eq (r : Register order n) (ty : IntType) (h : n ≤ ty.width) :
    ∃ y, r.read ty h = .ok y ∧ ty.toInt y = number ty.signed (BitVec.ofNat n r.value) := by
  have hsize := r.size_eq
  have hbytes := eight_mul_byteCount n
  have hpadding := padding_lt n
  rcases Nat.eq_zero_or_pos n with rfl | hn
  · refine ⟨0, ?_, ?_⟩
    · rw [read, Buffer.highByte?, if_pos (by omega), Outcome.ok_bind]
    · rw [IntType.toInt_eq_number, (Word.number_eq_zero_iff _ _).2 rfl,
        (Word.number_eq_zero_iff _ _).2 (BitVec.eq_nil _)]
  · have hhigh : r.bytes.size - 1 < r.bytes.toList.length := by
      rw [Buffer.length_toList]
      omega
    obtain ⟨mask, hmask, hbits⟩ := paddingMask_eq n
    have hword := r.shiftIn_value ty.width hn hbits hhigh
    have hnarrow : narrow countBits n = n := Nat.mod_eq_of_lt (Nat.lt_of_le_of_lt h ty.width_lt)
    have hlow : (BitVec.ofNat ty.width r.value).setWidth n = BitVec.ofNat n r.value :=
      BitVec.setWidth_ofNat_of_le h r.value
    cases hsigned : ty.signed with
    | true =>
        refine ⟨(BitVec.ofNat n r.value).signExtend ty.width, ?_, ?_⟩
        · rw [read, r.bytes.highByte?_of_pos hhigh, Outcome.ok_bind]
          simp only [hmask, Outcome.ok_bind, IntType.ofByte, hword, hsigned, if_pos, hnarrow]
          rw [Word.signExtend_eq _ hn h ty.width_lt, hlow]
        · rw [IntType.toInt_eq_number, hsigned]
          exact BitVec.toInt_signExtend_of_le h
    | false =>
        refine ⟨BitVec.ofNat ty.width r.value, ?_, ?_⟩
        · rw [read, r.bytes.highByte?_of_pos hhigh, Outcome.ok_bind]
          simp only [hmask, Outcome.ok_bind, IntType.ofByte, hword, hsigned]
          rfl
        · have hlt := r.value_lt
          have hwide : 2 ^ n ≤ 2 ^ ty.width := Nat.pow_le_pow_right Nat.two_pos h
          rw [IntType.toInt_eq_number, hsigned]
          apply congrArg Nat.cast
          rw [BitVec.toNat_ofNat, BitVec.toNat_ofNat, Nat.mod_eq_of_lt hlt,
            Nat.mod_eq_of_lt (Nat.lt_of_lt_of_le hlt hwide)]

/-- A number that was stored is read again modulo two to the width, whatever the types, and as it
was by a type of the same signedness. A number that was read is always stored again, and no bit
changes except the padding, which is cleared. -/
theorem read_store_inverse (r : Register order n) :
    (∀ (ty : IntType) (x : ty.Value) (s : Register order n), r.store ty x = .ok s →
      ∀ (target : IntType) (h : n ≤ target.width), ∃ y, s.read target h = .ok y ∧
        target.toInt y ≡ ty.toInt x [ZMOD 2 ^ n] ∧
        (target.signed = ty.signed → target.toInt y = ty.toInt x)) ∧
    (∀ (ty : IntType) (h : n ≤ ty.width), ∃ y s, r.read ty h = .ok y ∧ r.store ty y = .ok s ∧
      ∀ j, s.bytes.value.testBit j = (decide (j < n) && r.bytes.value.testBit j)) := by
  have hnarrow : ∀ ty : IntType, n ≤ ty.width → n < limit countBits :=
    fun ty h => Nat.lt_of_le_of_lt h ty.width_lt
  constructor
  · intro ty x s hs target h
    have hrange : InRange ty.signed n (ty.toInt x) := by
      by_contra hout
      rw [store_of_not_inRange r (hnarrow target h) hout] at hs
      cases hs
    obtain ⟨t, ht, hvalue⟩ := store_of_inRange r (hnarrow target h) hrange
    obtain rfl : t = s := Except.ok.inj (ht.symm.trans hs)
    obtain ⟨y, hy, hnumber⟩ := t.read_eq target h
    have hdata : BitVec.ofNat n t.value = BitVec.ofInt n (ty.toInt x) := by
      rw [value, limit_eq, hvalue, Nat.mod_eq_of_lt (BitVec.isLt _)]
      exact (BitVec.ofNat_toNat n _).trans (BitVec.setWidth_eq _)
    rw [hdata] at hnumber
    refine ⟨y, hy, ?_, ?_⟩
    · rw [hnumber]
      exact Word.number_ofInt_modEq _ _ _
    · intro hsigned
      rw [hnumber, hsigned]
      exact Word.number_ofInt_of_inRange hrange
  · intro ty h
    obtain ⟨y, hy, hnumber⟩ := r.read_eq ty h
    have hrange : InRange ty.signed n (ty.toInt y) := by
      rw [hnumber]
      exact Word.number_inRange _ _
    obtain ⟨s, hs, hvalue⟩ := store_of_inRange r (hnarrow ty h) hrange
    refine ⟨y, s, hy, hs, ?_⟩
    intro j
    rw [hvalue, hnumber, Word.ofInt_number, BitVec.toNat_ofNat, Nat.mod_eq_of_lt r.value_lt,
      testBit_value]

theorem read_store_inverse_narrow :
    ∃ s : Register .little 12,
      (⟨⟨#[0xAB, 0xFD]⟩, rfl⟩ : Register .little 12).store ⟨.w8, true⟩ 0xFD = .ok s ∧
      (∃ y, s.read ⟨.w16, true⟩ (by decide) = .ok y ∧ IntType.toInt ⟨.w16, true⟩ y = -3) ∧
      ∃ y t, s.read ⟨.w16, false⟩ (by decide) = .ok y ∧ s.store ⟨.w16, false⟩ y = .ok t := by
  have hs : (⟨⟨#[0xAB, 0xFD]⟩, rfl⟩ : Register .little 12).store ⟨.w8, true⟩ 0xFD =
      .ok ⟨⟨#[0xFD, 0x0F]⟩, rfl⟩ := by
    decide
  obtain ⟨y, hy, -, hsame⟩ :=
    (read_store_inverse _).1 ⟨.w8, true⟩ 0xFD _ hs ⟨.w16, true⟩ (by decide)
  obtain ⟨z, t, hz, ht, -⟩ :=
    (read_store_inverse (⟨⟨#[0xFD, 0x0F]⟩, rfl⟩ : Register .little 12)).2 ⟨.w16, false⟩ (by decide)
  exact ⟨_, hs, ⟨y, hy, hsame rfl⟩, z, t, hz, ht⟩

end Register

end Bitfield
