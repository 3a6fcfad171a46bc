import Bitfield.Field
import Bitfield.Proofs.Form
import Mathlib.Order.Interval.Finset.Nat

/-! Reading and writing a chunk of a register belong together. Both are refused for the same chunks and
the same reason. Where they are not, the reading is determined by the bits of the interval and the writing
replaces them and nothing else, so that they undo, hide and pass by each other as a field of a record
does when it is read and set. -/

namespace Bitfield.Register

variable {order : ByteOrder} {n length offset length' offset' : Nat} {bits other : Byte}
  {r s t u : Register order n}

/-- Two registers differ in no bit outside an interval, and in it the second one has the lowest bits of a
byte. -/
def Replaced (length offset : Nat) (bits : Byte) (r s : Register order n) : Prop :=
  ∀ j, s.bytes.value.testBit j =
    if offset ≤ j ∧ j < offset + length then bits.getLsbD (j - offset)
    else r.bytes.value.testBit j

namespace Replaced

theorem eq (hs : Replaced length offset bits r s) (ht : Replaced length offset bits r t) : s = t := by
  apply eq_of_bytes_value
  apply Nat.eq_of_testBit_eq
  intro j
  rw [hs, ht]

/-- A second replacement of an interval hides the first. -/
theorem hide (hs : Replaced length offset bits r s) (ht : Replaced length offset other r t) :
    Replaced length offset other s t := by
  intro j
  rw [ht]
  by_cases hj : offset ≤ j ∧ j < offset + length
  · rw [if_pos hj, if_pos hj]
  · rw [if_neg hj, if_neg hj, hs, if_neg hj]

/-- Replacements of disjoint intervals pass by each other. -/
theorem pass (hdisjoint : Disjoint (Finset.Ico offset (offset + length))
      (Finset.Ico offset' (offset' + length')))
    (hs : Replaced length offset bits r s) (ht : Replaced length' offset' other r t)
    (hu : Replaced length' offset' other s u) : Replaced length offset bits t u := by
  intro j
  rw [hu, ht, hs]
  by_cases hj : offset ≤ j ∧ j < offset + length
  · have hother : ¬ (offset' ≤ j ∧ j < offset' + length') := fun h =>
      Finset.disjoint_left.1 hdisjoint (Finset.mem_Ico.2 hj) (Finset.mem_Ico.2 h)
    rw [if_neg hother, if_pos hj, if_pos hj]
  · rw [if_neg hj, if_neg hj]

end Replaced

section Bounds

variable (hn : n < limit indexBits) (hlength : length ≤ 8) (hend : offset + length ≤ n)

include hn hlength hend

/-- A chunk is read by the bits of its interval. -/
theorem readBits_iff {x : Byte} : r.readBits length offset = .ok x ↔
    ∀ k < 8, x.getLsbD k = (decide (k < length) && r.bytes.value.testBit (offset + k)) := by
  have hwithin := (intervalWithin_iff hn length offset).2 hend
  obtain ⟨y, hy, hbits⟩ := r.extract_of_within 8 hwithin
  have hread : r.readBits length offset = .ok y := (r.slice?_of_within hlength hwithin).trans hy
  rw [hread]
  constructor
  · intro h
    rwa [← Except.ok.inj h]
  · intro h
    apply congrArg Except.ok
    apply BitVec.eq_of_getLsbD_eq
    intro k hk
    rw [hbits k hk, h k hk]

theorem writeBitsInPlace_of_le (r : Register order n) (bits : Byte) :
    ∃ s, r.writeBitsInPlace length offset bits = (.ok (), s) ∧ Replaced length offset bits r s := by
  obtain ⟨s, hs, hbits⟩ :=
    r.writeBits_of_within bits hlength ((intervalWithin_iff hn length offset).2 hend)
  refine ⟨s, ?_, hbits⟩
  rw [writeBitsInPlace_eq, hs]
  rfl

theorem writeBitsInPlace_iff :
    r.writeBitsInPlace length offset bits = (.ok (), s) ↔ Replaced length offset bits r s := by
  obtain ⟨t, ht, hbits⟩ := writeBitsInPlace_of_le hn hlength hend r bits
  rw [ht]
  constructor
  · intro h
    obtain rfl : t = s := congrArg Prod.snd h
    exact hbits
  · intro h
    rw [hbits.eq h]

/-- What was written is read again. -/
theorem readBits_of_replaced (h : Replaced length offset bits r s) :
    s.readBits length offset = .ok (BitVec.ofNat 8 (bits.toNat % 2 ^ length)) := by
  rw [readBits_iff hn hlength hend]
  intro k hk
  rw [BitVec.getLsbD_ofNat, decide_eq_true hk, Bool.true_and, Nat.testBit_mod_two_pow,
    BitVec.testBit_toNat, h]
  by_cases hlow : k < length
  · rw [if_pos (by omega), Nat.add_sub_cancel_left]
  · rw [decide_eq_false hlow, Bool.false_and, Bool.false_and]

/-- What was read replaces nothing. -/
theorem replaced_of_readBits (h : r.readBits length offset = .ok bits) :
    Replaced length offset bits r r := by
  rw [readBits_iff hn hlength hend] at h
  intro j
  split
  · rename_i hj
    have hlow : j - offset < length := by omega
    have hplace : offset + (j - offset) = j := by omega
    rw [h _ (by omega), decide_eq_true hlow, Bool.true_and, hplace]
  · rfl

end Bounds

theorem writeBitsInPlace_of_lt (r : Register order n) (bits : Byte) (offset : Nat)
    (h : 8 < length) :
    r.writeBitsInPlace length offset bits = (refuse (.tooManyBits length 8), r) :=
  if_pos h

theorem writeBitsInPlace_of_past (r : Register order n) (bits : Byte) (hlength : length ≤ 8)
    (h : n < offset + length) :
    r.writeBitsInPlace length offset bits = (refuse (.intervalOutOfRange length offset n), r) := by
  have hpast : ¬ IntervalWithin length offset n := fun hwithin => Nat.not_le.2 h hwithin.2
  rw [writeBitsInPlace, if_neg (Nat.not_lt.2 hlength), if_neg hpast]

/-- A chunk is refused by its bounds alone, and the register is left as it was. -/
theorem writeBitsInPlace_of_not_le (order : ByteOrder)
    (h : ¬ (length ≤ 8 ∧ offset + length ≤ n)) :
    ∃ e, ∀ (r : Register order n) (bits : Byte),
      r.writeBitsInPlace length offset bits = (refuse e, r) := by
  by_cases hlength : length ≤ 8
  · exact ⟨_, fun r bits => r.writeBitsInPlace_of_past bits hlength (by omega)⟩
  · exact ⟨_, fun r bits => r.writeBitsInPlace_of_lt bits offset (Nat.lt_of_not_le hlength)⟩

/-- Chunks of disjoint intervals are written in either order, each with the answer that it has alone. -/
theorem writeBitsInPlace_comm (hn : n < limit indexBits) (r : Register order n)
    (hdisjoint : Disjoint (Finset.Ico offset (offset + length))
      (Finset.Ico offset' (offset' + length'))) (bits other : Byte) :
    ∃ u, (r.writeBitsInPlace length offset bits).2.writeBitsInPlace length' offset' other =
        ((r.writeBitsInPlace length' offset' other).1, u) ∧
      (r.writeBitsInPlace length' offset' other).2.writeBitsInPlace length offset bits =
        ((r.writeBitsInPlace length offset bits).1, u) := by
  by_cases hfirst : length ≤ 8 ∧ offset + length ≤ n
  · by_cases hsecond : length' ≤ 8 ∧ offset' + length' ≤ n
    · obtain ⟨s, hs, hbits⟩ := writeBitsInPlace_of_le hn hfirst.1 hfirst.2 r bits
      obtain ⟨t, ht, hother⟩ := writeBitsInPlace_of_le hn hsecond.1 hsecond.2 r other
      obtain ⟨u, hu, hboth⟩ := writeBitsInPlace_of_le hn hsecond.1 hsecond.2 s other
      rw [hs, ht]
      exact ⟨u, hu,
        (writeBitsInPlace_iff hn hfirst.1 hfirst.2).2 (hbits.pass hdisjoint hother hboth)⟩
    · obtain ⟨e, he⟩ := writeBitsInPlace_of_not_le order hsecond
      rw [he, he]
      exact ⟨_, rfl, rfl⟩
  · obtain ⟨e, he⟩ := writeBitsInPlace_of_not_le order hfirst
    rw [he, he]
    exact ⟨_, rfl, rfl⟩

/-- A single bit is set as a chunk of one bit is written. -/
theorem setBit_replaced (r : Register order n) {i : Nat} (hi : i < n) (bits : Byte) :
    ∃ s, r.setBit i (bits.getLsbD 0) = .ok s ∧ Replaced 1 i bits r s := by
  obtain ⟨s, hs, hbits⟩ := r.setBit_of_lt (bits.getLsbD 0) hi
  refine ⟨s, hs, fun j => ?_⟩
  rw [hbits]
  by_cases hj : j = i
  · rw [if_pos hj, if_pos (by omega), hj, Nat.sub_self]
  · rw [if_neg hj, if_neg (by omega)]

/-- A chunk is refused by reading and writing alike, for its length first, and the register is left as it
was. Any other chunk that is written replaces its interval and nothing else, padding included. It is then
read again, what was read may be written back, a second write hides the first, and writes of disjoint
intervals may be exchanged; setting a bit is writing it. -/
theorem readBits_writeBits_lens (hn : n < limit indexBits) (r : Register order n)
    (length offset : Nat) (bits : Byte) :
    (8 < length → r.readBits length offset = refuse (.tooManyBits length 8) ∧
      r.writeBitsInPlace length offset bits = (refuse (.tooManyBits length 8), r)) ∧
    (length ≤ 8 → n < offset + length →
      r.readBits length offset = refuse (.intervalOutOfRange length offset n) ∧
      r.writeBitsInPlace length offset bits = (refuse (.intervalOutOfRange length offset n), r)) ∧
    (length ≤ 8 → offset + length ≤ n → ∃ (x : Byte) (s : Register order n),
      r.readBits length offset = .ok x ∧ r.writeBitsInPlace length offset bits = (.ok (), s) ∧
      (∀ j, s.bytes.value.testBit j =
        if offset ≤ j ∧ j < offset + length then bits.getLsbD (j - offset)
        else r.bytes.value.testBit j) ∧
      s.readBits length offset = .ok (BitVec.ofNat 8 (bits.toNat % 2 ^ length)) ∧
      r.writeBitsInPlace length offset x = (.ok (), r) ∧
      ∀ other, s.writeBitsInPlace length offset other = r.writeBitsInPlace length offset other) ∧
    (∀ (length' offset' : Nat) (other : Byte),
      Disjoint (Finset.Ico offset (offset + length)) (Finset.Ico offset' (offset' + length')) →
      ∃ u, (r.writeBitsInPlace length offset bits).2.writeBitsInPlace length' offset' other =
          ((r.writeBitsInPlace length' offset' other).1, u) ∧
        (r.writeBitsInPlace length' offset' other).2.writeBitsInPlace length offset bits =
          ((r.writeBitsInPlace length offset bits).1, u)) ∧
    (∀ i < n, ∀ on : Bool, ∃ s, r.setBit i on = .ok s ∧
      r.writeBitsInPlace 1 i (if on then 1 else 0) = (.ok (), s)) ∧
    ReadableField.read r ⟨length, offset⟩ = (r.readBits length offset, r) ∧
    WritableField.write r ⟨length, offset⟩ bits = r.writeBitsInPlace length offset bits := by
  refine ⟨?_, ?_, ?_, fun _ _ other h => writeBitsInPlace_comm hn r h bits other, ?_, rfl, ?_⟩
  · intro hlength
    exact ⟨r.slice?_of_lt offset hlength, r.writeBitsInPlace_of_lt bits offset hlength⟩
  · intro hlength hpast
    have hwithin := mt (intervalWithin_iff hn length offset).1 (Nat.not_le.2 hpast)
    exact ⟨r.slice?_of_not_within hlength hwithin, r.writeBitsInPlace_of_past bits hlength hpast⟩
  · intro hlength hend
    obtain ⟨x, hx, -⟩ := r.readBits_of_within hlength ((intervalWithin_iff hn length offset).2 hend)
    obtain ⟨s, hs, hbits⟩ := writeBitsInPlace_of_le hn hlength hend r bits
    have hback := replaced_of_readBits hn hlength hend hx
    refine ⟨x, s, hx, hs, hbits, readBits_of_replaced hn hlength hend hbits,
      (writeBitsInPlace_iff hn hlength hend).2 hback, fun other => ?_⟩
    obtain ⟨t, ht, hother⟩ := writeBitsInPlace_of_le hn hlength hend r other
    rw [ht, writeBitsInPlace_iff hn hlength hend]
    exact hbits.hide hother
  · intro i hi on
    have hbit : (if on then 1 else 0 : Byte).getLsbD 0 = on := by cases on <;> rfl
    obtain ⟨s, hs, hbits⟩ := r.setBit_replaced hi (if on then 1 else 0)
    rw [hbit] at hs
    exact ⟨s, hs, (writeBitsInPlace_iff hn (by omega) hi).2 hbits⟩
  · rw [writeBitsInPlace_eq]
    simp only [WritableField.write]
    cases r.writeBits length offset bits <;> rfl

/-- Eight bits across two bytes below a padding that is set; beside them the three bits below; one bit
more than there are, and one more than a byte. -/
theorem readBits_writeBits_lens_straddling :
    12 < limit indexBits ∧
    (∃ s : Register .big 12,
      (⟨⟨#[0xFA, 0xD7]⟩, rfl⟩ : Register .big 12).writeBitsInPlace 8 3 0xA5 = (.ok (), s) ∧
      s.readBits 8 3 = .ok 0xA5 ∧
      ∃ u, s.writeBitsInPlace 3 0 0x00 = (.ok (), u) ∧
        (⟨⟨#[0xFA, 0xD0]⟩, rfl⟩ : Register .big 12).writeBitsInPlace 8 3 0xA5 = (.ok (), u)) ∧
    (⟨⟨#[0xFA, 0xD7]⟩, rfl⟩ : Register .big 12).writeBitsInPlace 4 9 0xFF =
      (refuse (.intervalOutOfRange 4 9 12), ⟨⟨#[0xFA, 0xD7]⟩, rfl⟩) ∧
    (⟨⟨#[0xFA, 0xD7]⟩, rfl⟩ : Register .big 12).writeBitsInPlace 9 9 0xFF =
      (refuse (.tooManyBits 9 8), ⟨⟨#[0xFA, 0xD7]⟩, rfl⟩) := by
  have hn : 12 < limit indexBits := by decide
  have hlens := readBits_writeBits_lens hn (⟨⟨#[0xFA, 0xD7]⟩, rfl⟩ : Register .big 12)
  obtain ⟨-, -, hinside, hcomm, -⟩ := hlens 8 3 0xA5
  obtain ⟨x, s, -, hs, -, hread, -⟩ := hinside (by decide) (by decide)
  obtain ⟨u, hleft, hright⟩ := hcomm 3 0 0x00 (by decide)
  have hlow : (⟨⟨#[0xFA, 0xD7]⟩, rfl⟩ : Register .big 12).writeBitsInPlace 3 0 0x00 =
      (.ok (), ⟨⟨#[0xFA, 0xD0]⟩, rfl⟩) := by
    decide
  rw [hs, hlow] at hleft hright
  exact ⟨hn, ⟨s, hs, hread, u, hleft, hright⟩, ((hlens 4 9 0xFF).2.1 (by decide) (by decide)).2,
    ((hlens 9 9 0xFF).1 (by decide)).2⟩

end Bitfield.Register
