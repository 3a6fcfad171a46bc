import Bitfield.Proofs.Register.Negation
import Bitfield.Proofs.Rendering
import Bitfield.Register.Access

/-! Registers that no access tells apart. Two registers that hold the same bits below some bit, in one
byte order or in two, answer every access alike and go on to hold the same bits there. Below the width
of the value this leaves the padding out, so neither the byte order nor the padding shows in the
answers; with the padding included it also determines the bytes. -/

namespace Bitfield

open Outcome (Alike)

theorem IntType.toInt_injective {ty : IntType} {x y : ty.Value} (h : ty.toInt x = ty.toInt y) :
    x = y := by
  rw [toInt_eq_number, toInt_eq_number] at h
  rw [← Word.ofInt_number ty.signed x, h, Word.ofInt_number]

namespace Register

variable {order order' : ByteOrder} {n : Nat}

theorem setBit_of_le (r : Register order n) {i : Nat} (on : Bool) (h : n ≤ i) :
    r.setBit i on = refuse (.bitOutOfRange i n) := by
  cases on with
  | true => exact if_pos h
  | false => exact if_pos h

theorem setByte_of_lt (r : Register order n) {index : Nat} (x : Byte) (h : index < byteCount n) :
    ∃ s, r.setByte index x = .ok s ∧ ∀ j, s.bytes.value.testBit j =
      if j / 8 = index then x.getLsbD (j % 8) else r.bytes.value.testBit j := by
  obtain ⟨b, hb, hsize, hbits⟩ := r.bytes.set_of_size x (by rwa [r.size_eq])
  have hsize' : b.size = byteCount n := hsize.trans r.size_eq
  refine ⟨⟨b, hsize'⟩, ?_, hbits⟩
  rw [setByte, hb, Outcome.ok_bind]
  exact dif_pos hsize'

theorem setByte_of_le (r : Register order n) {index : Nat} (x : Byte) (h : byteCount n ≤ index) :
    r.setByte index x = refuse (.byteOutOfRange index (byteCount n)) := by
  rw [setByte, r.bytes.set_of_le x (by rwa [r.size_eq]), r.size_eq]
  rfl

/-- Two registers hold the same bits below bit `count`, each in its own byte order. -/
def Agree (count : Nat) (left : Register order n) (right : Register order' n) : Prop :=
  ∀ j < count, left.bytes.value.testBit j = right.bytes.value.testBit j

/-- The accesses that reach a register through its value and not through single bytes. -/
def Access.onValue : Access n → Bool
  | .getByte _ => false
  | .setByte _ _ => false
  | _ => true

theorem agree_of_value_eq {left : Register order n} {right : Register order' n}
    (h : left.value = right.value) : Agree n left right := by
  intro j hj
  have hbit := congrArg (Nat.testBit · j) h
  simpa only [testBit_value, decide_eq_true hj, Bool.true_and] using hbit

namespace Agree

variable {left : Register order n} {right : Register order' n} {count : Nat}

theorem value_eq (h : Agree count left right) (hcount : n ≤ count) : left.value = right.value := by
  apply Nat.eq_of_testBit_eq
  intro j
  rw [testBit_value, testBit_value]
  by_cases hj : j < n
  · rw [h j (Nat.lt_of_lt_of_le hj hcount)]
  · rw [decide_eq_false hj, Bool.false_and, Bool.false_and]

theorem toList_eq (h : Agree count left right) (hcount : 8 * byteCount n ≤ count) :
    left.bytes.toList = right.bytes.toList := by
  apply Buffer.toList_eq_of_value
  · rw [left.size_eq, right.size_eq]
  · apply Nat.eq_of_testBit_eq
    intro j
    by_cases hj : j < 8 * byteCount n
    · exact h j (Nat.lt_of_lt_of_le hj hcount)
    · rw [left.bytes.testBit_value_of_le (by rw [left.size_eq]; omega),
        right.bytes.testBit_value_of_le (by rw [right.size_eq]; omega)]

/-- Registers agree after a write that makes their bits from the same ones. -/
theorem of_testBit {s : Register order n} {t : Register order' n} (h : Agree count left right)
    (change : Nat → Bool → Bool)
    (hs : ∀ j, s.bytes.value.testBit j = change j (left.bytes.value.testBit j))
    (ht : ∀ j, t.bytes.value.testBit j = change j (right.bytes.value.testBit j)) :
    Agree count s t := by
  intro j hj
  rw [hs, ht, h j hj]

theorem of_bytes_value {s : Register order n} {t : Register order' n}
    (h : s.bytes.value = t.bytes.value) : Agree count s t := by
  intro j _
  rw [h]

theorem getBit (h : Agree count left right) (hcount : n ≤ count) (i : Nat) :
    Alike Eq (left.getBit i) (right.getBit i) := by
  by_cases hi : i < n
  · rw [left.getBit_of_lt hi, right.getBit_of_lt hi, h.value_eq hcount]
    exact .ok rfl
  · rw [left.getBit_of_le (Nat.le_of_not_lt hi), right.getBit_of_le (Nat.le_of_not_lt hi)]
    exact .refused _

theorem setBit (h : Agree count left right) (i : Nat) (on : Bool) :
    Alike (Agree count) (left.setBit i on) (right.setBit i on) := by
  by_cases hi : i < n
  · obtain ⟨s, hs, hsbits⟩ := left.setBit_of_lt on hi
    obtain ⟨t, ht, htbits⟩ := right.setBit_of_lt on hi
    rw [hs, ht]
    exact .ok (h.of_testBit (fun j old => if j = i then on else old) hsbits htbits)
  · rw [left.setBit_of_le on (Nat.le_of_not_lt hi), right.setBit_of_le on (Nat.le_of_not_lt hi)]
    exact .refused _

theorem read (h : Agree count left right) (hcount : n ≤ count) (ty : IntType)
    (hwidth : n ≤ ty.width) : Alike Eq (left.read ty hwidth) (right.read ty hwidth) := by
  obtain ⟨x, hx, hxint⟩ := left.read_eq ty hwidth
  obtain ⟨y, hy, hyint⟩ := right.read_eq ty hwidth
  rw [h.value_eq hcount, ← hyint] at hxint
  rw [hx, hy]
  exact .ok (IntType.toInt_injective hxint)

theorem extract (h : Agree count left right) (hcount : n ≤ count) {w length offset : Nat}
    (hlength : length ≤ w) (hwithin : IntervalWithin length offset n) :
    Alike Eq (left.extract w length offset) (right.extract w length offset) := by
  obtain ⟨x, hx, hxvalue⟩ := left.extract_toNat hlength hwithin
  obtain ⟨y, hy, hyvalue⟩ := right.extract_toNat hlength hwithin
  rw [h.value_eq hcount, ← hyvalue] at hxvalue
  rw [hx, hy]
  exact .ok (BitVec.eq_of_toNat_eq hxvalue)

theorem slice? (h : Agree count left right) (hcount : n ≤ count) (w length offset : Nat) :
    Alike Eq (left.slice? w length offset) (right.slice? w length offset) := by
  rw [Register.slice?, Register.slice?]
  split
  · exact .refused _
  · rename_i hlength
    split
    · rename_i hwithin
      exact h.extract hcount (Nat.le_of_not_lt hlength) hwithin
    · exact .refused _

theorem store (ty : IntType) (x : ty.Value) :
    Alike (Agree count) (left.store ty x) (right.store ty x) := by
  rcases ty.fits_true_or_false x (narrow countBits n) with hfits | hfits
  · obtain ⟨s, hs, hsbits⟩ := left.store_of_fits hfits
    obtain ⟨t, ht, htbits⟩ := right.store_of_fits hfits
    rw [hs, ht]
    exact .ok fun j _ => by rw [hsbits, htbits]
  · rw [left.store_of_not_fits hfits, right.store_of_not_fits hfits]
    exact .refused _

theorem negate (h : Agree count left right) (hcount : n ≤ count) :
    Alike (Agree count) left.negate right.negate := by
  obtain ⟨s, hs, hsvalue⟩ := left.negate_eq
  obtain ⟨t, ht, htvalue⟩ := right.negate_eq
  rw [h.value_eq hcount, ← htvalue] at hsvalue
  rw [hs, ht]
  exact .ok (of_bytes_value hsvalue)

theorem writeBits (h : Agree count left right) (length offset : Nat) (bits : Byte) :
    Alike (Agree count) (left.writeBits length offset bits) (right.writeBits length offset bits) := by
  by_cases hlength : length ≤ 8
  · by_cases hwithin : IntervalWithin length offset n
    · obtain ⟨s, hs, hsbits⟩ := left.writeBits_of_within bits hlength hwithin
      obtain ⟨t, ht, htbits⟩ := right.writeBits_of_within bits hlength hwithin
      rw [hs, ht]
      exact .ok (h.of_testBit (fun j old =>
        if offset ≤ j ∧ j < offset + length then bits.getLsbD (j - offset) else old) hsbits htbits)
    · rw [Register.writeBits, Register.writeBits, if_neg (Nat.not_lt.2 hlength), if_neg hwithin,
        if_neg (Nat.not_lt.2 hlength), if_neg hwithin]
      exact .refused _
  · rw [Register.writeBits, Register.writeBits, if_pos (Nat.lt_of_not_le hlength),
      if_pos (Nat.lt_of_not_le hlength)]
    exact .refused _

theorem render (h : Agree count left right) (hcount : n ≤ count) :
    Alike Eq left.render right.render := by
  rw [left.render_eq, right.render_eq, h.value_eq hcount]
  exact .ok rfl

theorem getByte (h : Agree count left right) (hcount : 8 * byteCount n ≤ count) (index : Nat) :
    Alike Eq (left.getByte index) (right.getByte index) := by
  have hlist := h.toList_eq hcount
  by_cases hindex : index < byteCount n
  · rw [Register.getByte, Register.getByte,
      left.bytes.get_of_lt (by rwa [left.length_toList]),
      right.bytes.get_of_lt (by rwa [right.length_toList])]
    exact .ok (by simp only [hlist])
  · have hleft : left.bytes.size ≤ index := by
      rw [left.size_eq]
      omega
    have hright : right.bytes.size ≤ index := by
      rw [right.size_eq]
      omega
    rw [Register.getByte, Register.getByte, left.bytes.get_of_le hleft,
      right.bytes.get_of_le hright, left.size_eq, right.size_eq]
    exact .refused _

theorem setByte (h : Agree count left right) (index : Nat) (x : Byte) :
    Alike (Agree count) (left.setByte index x) (right.setByte index x) := by
  by_cases hindex : index < byteCount n
  · obtain ⟨s, hs, hsbits⟩ := left.setByte_of_lt x hindex
    obtain ⟨t, ht, htbits⟩ := right.setByte_of_lt x hindex
    rw [hs, ht]
    exact .ok (h.of_testBit (fun j old => if j / 8 = index then x.getLsbD (j % 8) else old)
      hsbits htbits)
  · rw [left.setByte_of_le x (Nat.le_of_not_lt hindex),
      right.setByte_of_le x (Nat.le_of_not_lt hindex)]
    exact .refused _

/-- The same answer, and registers that agree after it. -/
def Answered (count : Nat) (x : Answer × Register order n) (y : Answer × Register order' n) : Prop :=
  x.1 = y.1 ∧ Agree count x.2 y.2

/-- A reading that ends alike is answered alike and leaves the registers as they were. -/
theorem answered_read {α : Type} {x y : Outcome α} (h : Agree count left right)
    (hread : Alike Eq x y) (answer : α → Answer) :
    Alike (Answered count) (x >>= fun a => .ok (answer a, left))
      (y >>= fun a => .ok (answer a, right)) := by
  apply hread.bind
  rintro a _ rfl
  exact .ok ⟨rfl, h⟩

theorem answered_write {x : Outcome (Register order n)} {y : Outcome (Register order' n)}
    (hwrite : Alike (Agree count) x y) :
    Alike (Answered count) (x >>= fun s => .ok (.done, s)) (y >>= fun t => .ok (.done, t)) :=
  hwrite.bind fun _ _ hafter => .ok ⟨rfl, hafter⟩

/-- Every access ends alike. Single bytes show the padding, so those accesses need it to agree. -/
theorem perform (h : Agree count left right) (hn : n < limit indexBits) (hcount : n ≤ count)
    (a : Access n) (ha : a.onValue = true ∨ 8 * byteCount n ≤ count) :
    Alike (Answered count) (left.perform a) (right.perform a) := by
  cases a with
  | getBit i => exact answered_read h (h.getBit hcount i) .bit
  | setBit i on => exact answered_write (h.setBit i on)
  | setBitOn i => exact answered_write (h.setBit i true)
  | setBitOff i => exact answered_write (h.setBit i false)
  | read ty hwidth => exact answered_read h (h.read hcount ty hwidth) fun x => .integer ⟨ty, x⟩
  | slice ty length offset hlength hend =>
      have hwithin : IntervalWithin length offset n := ⟨by omega, by omega⟩
      exact answered_read h (h.extract hcount hlength hwithin) fun x => .integer ⟨ty, x⟩
  | slice? ty length offset =>
      exact answered_read h (h.slice? hcount ty.width length offset) fun x => .integer ⟨ty, x⟩
  | store ty x => exact answered_write (store ty x)
  | negate => exact answered_write (h.negate hcount)
  | readBits length offset => exact answered_read h (h.slice? hcount 8 length offset) .byte
  | writeBits length offset bits => exact answered_write (h.writeBits length offset bits)
  | getByte index =>
      have hbytes := ha.resolve_left Bool.false_ne_true
      exact answered_read h (h.getByte hbytes index) .byte
  | setByte index x => exact answered_write (h.setByte index x)
  | render => exact answered_read h (h.render hcount) .text

theorem access (h : Agree count left right) (hn : n < limit indexBits) (hcount : n ≤ count)
    (a : Access n) (ha : a.onValue = true ∨ 8 * byteCount n ≤ count) :
    (left.access a).1 = (right.access a).1 ∧
      Agree count (left.access a).2 (right.access a).2 := by
  have hperform := h.perform hn hcount a ha
  rw [Register.access, Register.access]
  generalize left.perform a = x at hperform ⊢
  generalize right.perform a = y at hperform ⊢
  cases hperform with
  | @ok p q hafter =>
      obtain ⟨answer, s⟩ := p
      obtain ⟨answer', t⟩ := q
      exact ⟨congrArg Except.ok hafter.1, hafter.2⟩
  | refused e => exact ⟨rfl, h⟩

/-- Any number of accesses are answered alike one by one. -/
theorem accessAll (h : Agree count left right) (hn : n < limit indexBits) (hcount : n ≤ count)
    (accesses : List (Access n))
    (haccesses : ∀ a ∈ accesses, a.onValue = true ∨ 8 * byteCount n ≤ count) :
    (left.accessAll accesses).1 = (right.accessAll accesses).1 ∧
      Agree count (left.accessAll accesses).2 (right.accessAll accesses).2 := by
  induction accesses generalizing left right with
  | nil => exact ⟨rfl, h⟩
  | cons a rest ih =>
      obtain ⟨hanswer, hafter⟩ := h.access hn hcount a (haccesses a List.mem_cons_self)
      obtain ⟨hanswers, hend⟩ :=
        ih hafter fun b hb => haccesses b (List.mem_cons_of_mem a hb)
      refine ⟨?_, hend⟩
      rw [Register.accessAll, Register.accessAll]
      exact congrArg₂ List.cons hanswer hanswers

end Agree

/-- Accesses to the values of two registers that hold the same number are answered alike, in whatever
byte orders the registers are and whatever their padding is, and the registers go on to hold the same
number. If the padding is the same too, any accesses are answered alike, and the stored bytes go on to
be the same ones, or the same ones the other way round if the byte orders differ. -/
theorem accessAll_indistinguishable (hn : n < limit indexBits) (left : Register order n)
    (right : Register order' n) (hvalue : left.value = right.value) (accesses : List (Access n)) :
    ((∀ a ∈ accesses, a.onValue = true) →
      (left.accessAll accesses).1 = (right.accessAll accesses).1 ∧
      ∀ count, (left.accessAll (accesses.take count)).2.value =
        (right.accessAll (accesses.take count)).2.value) ∧
    ((∀ j ≥ n, left.bytes.value.testBit j = right.bytes.value.testBit j) →
      (left.accessAll accesses).1 = (right.accessAll accesses).1 ∧
      ∀ count,
        (order = order' → (left.accessAll (accesses.take count)).2.bytes.data =
          (right.accessAll (accesses.take count)).2.bytes.data) ∧
        (order ≠ order' → (left.accessAll (accesses.take count)).2.bytes.data =
          (right.accessAll (accesses.take count)).2.bytes.data.reverse)) := by
  have hagree := agree_of_value_eq hvalue
  constructor
  · intro hon
    have hle := Nat.le_refl n
    refine ⟨(hagree.accessAll hn hle accesses fun a ha => .inl (hon a ha)).1, fun count => ?_⟩
    have htaken := hagree.accessAll hn hle (accesses.take count)
      fun a ha => .inl (hon a (List.mem_of_mem_take ha))
    exact htaken.2.value_eq hle
  · intro hpadding
    have hle : n ≤ 8 * byteCount n := by
      have := eight_mul_byteCount n
      omega
    have hall : Agree (8 * byteCount n) left right := by
      intro j _
      rcases Nat.lt_or_ge j n with hj | hj
      · exact hagree j hj
      · exact hpadding j hj
    refine ⟨(hall.accessAll hn hle accesses fun _ _ => .inr (Nat.le_refl _)).1, fun count => ?_⟩
    have htaken := hall.accessAll hn hle (accesses.take count) fun _ _ => .inr (Nat.le_refl _)
    exact Buffer.data_eq_of_toList (htaken.2.toList_eq (Nat.le_refl _))

/-- Twelve bits that are stored with their low byte first and last, with and without padding set. -/
theorem accessAll_indistinguishable_twelve :
    12 < limit indexBits ∧
    (⟨⟨#[0xD7, 0xFA]⟩, rfl⟩ : Register .little 12).value =
      (⟨⟨#[0x0A, 0xD7]⟩, rfl⟩ : Register .big 12).value ∧
    ((⟨⟨#[0xD7, 0xFA]⟩, rfl⟩ : Register .little 12).accessAll
        [.setBit 11 false, .readBits 5 6, .negate, .getBit 12, .render]).1 =
      ((⟨⟨#[0x0A, 0xD7]⟩, rfl⟩ : Register .big 12).accessAll
        [.setBit 11 false, .readBits 5 6, .negate, .getBit 12, .render]).1 ∧
    ((⟨⟨#[0xD7, 0xFA]⟩, rfl⟩ : Register .little 12).accessAll
        [.setByte 1 0xC3, .writeBits 6 3 0x2A]).2.bytes.data =
      ((⟨⟨#[0xFA, 0xD7]⟩, rfl⟩ : Register .big 12).accessAll
        [.setByte 1 0xC3, .writeBits 6 3 0x2A]).2.bytes.data.reverse := by
  have hdata := accessAll_indistinguishable (by decide)
    (⟨⟨#[0xD7, 0xFA]⟩, rfl⟩ : Register .little 12) (⟨⟨#[0x0A, 0xD7]⟩, rfl⟩ : Register .big 12)
    (by decide) [.setBit 11 false, .readBits 5 6, .negate, .getBit 12, .render]
  have hbytes := accessAll_indistinguishable (by decide)
    (⟨⟨#[0xD7, 0xFA]⟩, rfl⟩ : Register .little 12) (⟨⟨#[0xFA, 0xD7]⟩, rfl⟩ : Register .big 12)
    (by decide) [.setByte 1 0xC3, .writeBits 6 3 0x2A]
  have hsame : (⟨⟨#[0xD7, 0xFA]⟩, rfl⟩ : Register .little 12).bytes.value =
      (⟨⟨#[0xFA, 0xD7]⟩, rfl⟩ : Register .big 12).bytes.value := by
    decide
  refine ⟨by decide, by decide, (hdata.1 (by simp [Access.onValue])).1, ?_⟩
  exact ((hbytes.2 fun j _ => by rw [hsame]).2 2).2 (by decide)

end Register

end Bitfield
