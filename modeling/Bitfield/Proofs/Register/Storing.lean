import Bitfield.Proofs.Form

/-! What storing an integer leaves in a buffer. A number that `n` bits hold is written as its residue
modulo two to the `n`, over all bytes of the buffer: the bytes that the type does not reach repeat its
sign up to the padding, which is clear. Any other number is refused and nothing is written. -/

namespace Bitfield

open Word (InRange number)

/-- The numbers that `n` bits hold, of which there is none but zero if there are no bits. -/
def Representable (signed : Bool) (n : Nat) (v : Int) : Prop :=
  if n = 0 then v = 0
  else if signed then -2 ^ (n - 1) ≤ v ∧ v < 2 ^ (n - 1)
  else 0 ≤ v ∧ v < 2 ^ n

theorem representable_iff (signed : Bool) (n : Nat) (v : Int) :
    Representable signed n v ↔ InRange signed n v := by
  cases n with
  | zero => rw [Representable, if_pos rfl, Word.inRange_zero_iff]
  | succ n =>
      rw [Representable, if_neg (Nat.succ_ne_zero n), Nat.add_sub_cancel]
      cases signed with
      | true => rw [if_pos rfl, Word.inRange_succ_iff]
      | false => rfl

namespace Register

variable {order : ByteOrder} {n : Nat} {ty : IntType} {x : ty.Value}

theorem storeInPlace_of_inRange (r : Register order n) (hn : n < limit countBits)
    (h : InRange ty.signed n (ty.toInt x)) :
    ∃ s : Register order n, r.storeInPlace ty x = (.ok (), s.bytes) ∧
      s.bytes.value = (BitVec.ofInt n (ty.toInt x)).toNat := by
  obtain ⟨s, hs, hvalue⟩ := r.store_of_inRange hn h
  refine ⟨s, ?_, hvalue⟩
  rw [storeInPlace_eq, hs]
  rfl

theorem storeInPlace_of_not_inRange (r : Register order n) (hn : n < limit countBits)
    (h : ¬ InRange ty.signed n (ty.toInt x)) :
    r.storeInPlace ty x = (refuse (.valueOutOfRange n), r.bytes) := by
  rw [storeInPlace_eq, r.store_of_not_inRange hn h]
  rfl

/-- What was stored was in range, and the bytes hold its lowest `n` bits and nothing else. -/
theorem bytes_value_of_storeInPlace {r s : Register order n} (hn : n < limit countBits)
    (h : r.storeInPlace ty x = (.ok (), s.bytes)) :
    s.bytes.value = (BitVec.ofInt n (ty.toInt x)).toNat := by
  by_cases hrange : InRange ty.signed n (ty.toInt x)
  · obtain ⟨t, ht, hvalue⟩ := r.storeInPlace_of_inRange hn hrange
    have hbytes : t.bytes = s.bytes := congrArg Prod.snd (ht.symm.trans h)
    rw [← hbytes, hvalue]
  · rw [r.storeInPlace_of_not_inRange hn hrange] at h
    cases h

/-- The bits of a stored number that the type does not reach repeat its sign, up to the padding. -/
theorem testBit_of_width_le {s : Register order n}
    (h : s.bytes.value = (BitVec.ofInt n (ty.toInt x)).toNat) {j : Nat} (hj : ty.width ≤ j) :
    s.bytes.value.testBit j = (decide (j < n) && decide (ty.toInt x < 0)) := by
  rw [h, BitVec.testBit_toNat]
  by_cases hdata : j < n
  · rw [IntType.toInt_eq_number, Word.getLsbD_ofInt_number _ _ hdata, ty.bit_of_le x hj,
      ty.signed_and_msb, decide_eq_true hdata, Bool.true_and, IntType.toInt_eq_number]
  · rw [BitVec.getLsbD_of_ge _ _ (Nat.le_of_not_lt hdata), decide_eq_false hdata, Bool.false_and]

theorem getByte_of_lt (s : Register order n) {index : Nat} (h : index < byteCount n) :
    ∃ y, s.getByte index = .ok y ∧ ∀ k < 8, y.getLsbD k = s.bytes.value.testBit (8 * index + k) := by
  have hlist : index < s.bytes.toList.length := by rwa [length_toList]
  exact ⟨_, s.bytes.get_of_lt hlist, fun k hk => s.bytes.getLsbD_getElem hlist hk⟩

/-- A number is stored exactly when `n` bits hold it. Then the whole buffer, padding included, is the
number modulo two to the `n`, whatever was there before, with the sign in the bytes past the top of the
type; otherwise every byte stays as it was. -/
theorem store_number (order : ByteOrder) (hn : n < limit countBits) (ty : IntType) (x : ty.Value) :
    (Representable ty.signed n (ty.toInt x) → ∃ s : Register order n,
      (∀ r : Register order n, r.storeInPlace ty x = (.ok (), s.bytes)) ∧
      (s.bytes.value : Int) = ty.toInt x % 2 ^ n ∧
      ∀ index < byteCount n, ty.width ≤ 8 * index → ∃ y, s.getByte index = .ok y ∧
        ∀ k < 8, y.getLsbD k = (decide (8 * index + k < n) && decide (ty.toInt x < 0))) ∧
    (¬ Representable ty.signed n (ty.toInt x) → ∀ r : Register order n,
      r.storeInPlace ty x = (refuse (.valueOutOfRange n), r.bytes)) := by
  rw [representable_iff]
  refine ⟨fun hrange => ?_, fun hrange r => r.storeInPlace_of_not_inRange hn hrange⟩
  obtain ⟨blank⟩ : Nonempty (Register order n) :=
    ⟨⟨⟨Array.replicate (byteCount n) 0⟩, Array.size_replicate⟩⟩
  obtain ⟨s, -, hvalue⟩ := blank.storeInPlace_of_inRange hn hrange
  have hany : ∀ r : Register order n, r.storeInPlace ty x = (.ok (), s.bytes) := by
    intro r
    obtain ⟨t, ht, hsame⟩ := r.storeInPlace_of_inRange hn hrange
    obtain rfl : t = s := eq_of_bytes_value (hsame.trans hvalue.symm)
    exact ht
  refine ⟨s, hany, ?_, ?_⟩
  · have hpos : (0 : Int) ≤ ty.toInt x % (2 ^ n : Nat) :=
      Int.emod_nonneg _ (by exact_mod_cast (Nat.two_pow_pos n).ne')
    rw [hvalue, BitVec.toNat_ofInt, Int.toNat_of_nonneg hpos]
    push_cast
    rfl
  · intro index hindex hwidth
    obtain ⟨y, hy, hbits⟩ := s.getByte_of_lt hindex
    exact ⟨y, hy, fun k hk => by rw [hbits k hk, testBit_of_width_le hvalue (by omega)]⟩

/-- A negative byte in twenty-one bits fills the two bytes above it up to the padding, and one bit more
than twelve bits hold is refused. -/
theorem store_number_wide :
    21 < limit countBits ∧ Representable true 21 (-3) ∧
    (⟨⟨#[0x5A, 0x5A, 0x5A]⟩, rfl⟩ : Register .big 21).storeInPlace ⟨.w8, true⟩ 0xFD =
      (.ok (), ⟨#[0x1F, 0xFF, 0xFD]⟩) ∧
    ¬ Representable false 12 0x1000 ∧
    (⟨⟨#[0xAA, 0xAA]⟩, rfl⟩ : Register .little 12).storeInPlace ⟨.w16, false⟩ 0x1000 =
      (refuse (.valueOutOfRange 12), ⟨#[0xAA, 0xAA]⟩) := by
  have hwide : Representable true 21 (-3) := by
    rw [representable_iff]
    decide
  have hover : ¬ Representable false 12 0x1000 := by
    rw [representable_iff]
    decide
  obtain ⟨s, hs, hvalue, -⟩ := (store_number (n := 21) .big (by decide) ⟨.w8, true⟩ 0xFD).1 hwide
  obtain rfl : s = ⟨⟨#[0x1F, 0xFF, 0xFD]⟩, rfl⟩ := by
    apply eq_of_bytes_value
    apply Int.ofNat.inj
    exact hvalue.trans (by decide)
  exact ⟨by decide, hwide, hs _, hover,
    (store_number (n := 12) .little (by decide) ⟨.w16, false⟩ 0x1000).2 hover _⟩

end Register

end Bitfield
