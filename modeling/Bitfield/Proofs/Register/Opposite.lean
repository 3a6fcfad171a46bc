import Bitfield.Proofs.Register.Negation
import Bitfield.Proofs.Register.Storing

/-! Negation as arithmetic. The data bits of a register are a word, and negating the register puts the
opposite word in its place. The numbers follow from that: two negations cancel, every signed type reads
the opposite number except at the least one, and storing a number and negating it is storing its
opposite. -/

namespace Bitfield

/-- The opposite of a word stands for the opposite number, except for the least number, which has no
opposite among the words and stays. -/
theorem Word.toInt_neg_cases {w : Nat} (x : BitVec w) :
    (1 ≤ w → x.toInt = -2 ^ (w - 1) → (-x).toInt = x.toInt) ∧
    (¬ (1 ≤ w ∧ x.toInt = -2 ^ (w - 1)) → (-x).toInt = -x.toInt) := by
  constructor
  · intro hw hleast
    have hx : x = BitVec.intMin w := by
      rw [← BitVec.toInt_inj, hleast, BitVec.toInt_intMin_of_pos hw]
    rw [hx, BitVec.neg_intMin]
  · intro hleast
    rcases Nat.eq_zero_or_pos w with rfl | hw
    · rw [BitVec.eq_nil x]
      rfl
    · apply BitVec.toInt_neg_of_ne_intMin
      rintro rfl
      exact hleast ⟨hw, BitVec.toInt_intMin_of_pos hw⟩

namespace Register

variable {order : ByteOrder} {n : Nat}

theorem ofNat_value {s : Register order n} {x : BitVec n} (h : s.bytes.value = x.toNat) :
    BitVec.ofNat n s.value = x := by
  rw [value, h, limit_eq, Nat.mod_eq_of_lt x.isLt, BitVec.ofNat_toNat, BitVec.setWidth_eq]

/-- Negating a register in place never fails and leaves the opposite word, without padding. -/
theorem negateInPlace_word (r : Register order n) :
    ∃ s : Register order n, r.negateInPlace = (.ok (), s.bytes) ∧
      s.bytes.value = (-BitVec.ofNat n r.value).toNat := by
  obtain ⟨s, hs, hplace⟩ := r.negateInPlace_eq
  obtain ⟨t, ht, hvalue⟩ := r.negate_eq
  obtain rfl : s = t := Except.ok.inj (hs.symm.trans ht)
  refine ⟨s, hplace, ?_⟩
  rw [hvalue, BitVec.toNat_neg, BitVec.toNat_ofNat, Nat.mod_eq_of_lt r.value_lt]

/-- Negating twice leaves the number as it was. -/
theorem negateInPlace_of_word {r s : Register order n}
    (h : s.bytes.value = (-BitVec.ofNat n r.value).toNat) :
    ∃ t : Register order n, s.negateInPlace = (.ok (), t.bytes) ∧ t.bytes.value = r.value := by
  obtain ⟨t, ht, hvalue⟩ := s.negateInPlace_word
  refine ⟨t, ht, ?_⟩
  rw [hvalue, ofNat_value h, BitVec.neg_neg, BitVec.toNat_ofNat, Nat.mod_eq_of_lt r.value_lt]

/-- A signed type reads the opposite number after a negation, or the least one again. -/
theorem read_of_word {r s : Register order n}
    (hs : s.bytes.value = (-BitVec.ofNat n r.value).toNat) {ty : IntType} (h : n ≤ ty.width)
    (hsigned : ty.signed = true) :
    ∃ x y, r.read ty h = .ok x ∧ s.read ty h = .ok y ∧
      (1 ≤ n → ty.toInt x = -2 ^ (n - 1) → ty.toInt y = ty.toInt x) ∧
      (¬ (1 ≤ n ∧ ty.toInt x = -2 ^ (n - 1)) → ty.toInt y = -ty.toInt x) := by
  obtain ⟨x, hx, hxint⟩ := r.read_eq ty h
  obtain ⟨y, hy, hyint⟩ := s.read_eq ty h
  rw [hsigned, Word.number, if_pos rfl] at hxint hyint
  rw [ofNat_value hs] at hyint
  refine ⟨x, y, hx, hy, ?_⟩
  rw [hxint, hyint]
  exact Word.toInt_neg_cases _

/-- What was stored, negated, is what storing the opposite number leaves. -/
theorem negateInPlace_of_store {r a other b : Register order n} (hn : n < limit countBits)
    {ty : IntType} {x y : ty.Value} (hopposite : ty.toInt y = -ty.toInt x)
    (ha : r.storeInPlace ty x = (.ok (), a.bytes))
    (hb : other.storeInPlace ty y = (.ok (), b.bytes)) :
    a.negateInPlace = (.ok (), b.bytes) := by
  obtain ⟨s, hs, hvalue⟩ := a.negateInPlace_word
  rw [ofNat_value (bytes_value_of_storeInPlace hn ha), ← BitVec.ofInt_neg, ← hopposite,
    ← bytes_value_of_storeInPlace hn hb] at hvalue
  rw [hs, eq_of_bytes_value hvalue]

/-- Negation leaves what the number in the data bits lacks to a power of two and nothing in the padding,
whatever was there. Twice it restores the number; a signed type reads the opposite number, the least one
apart; and on a stored number it gives the very bytes that storing the opposite one gives. -/
theorem negate_number (r : Register order n) :
    ∃ s : Register order n, r.negateInPlace = (.ok (), s.bytes) ∧
      s.bytes.value = (2 ^ n - r.value) % 2 ^ n ∧
      (∀ j ≥ n, s.bytes.value.testBit j = false) ∧
      (∃ t : Register order n, s.negateInPlace = (.ok (), t.bytes) ∧ t.bytes.value = r.value) ∧
      (∀ (ty : IntType) (h : n ≤ ty.width), ty.signed = true →
        ∃ x y, r.read ty h = .ok x ∧ s.read ty h = .ok y ∧
          (1 ≤ n → ty.toInt x = -2 ^ (n - 1) → ty.toInt y = ty.toInt x) ∧
          (¬ (1 ≤ n ∧ ty.toInt x = -2 ^ (n - 1)) → ty.toInt y = -ty.toInt x)) ∧
      (n < limit countBits → ∀ (ty : IntType) (x y : ty.Value), ty.signed = true →
        ty.toInt y = -ty.toInt x → ∀ other a b : Register order n,
        r.storeInPlace ty x = (.ok (), a.bytes) → other.storeInPlace ty y = (.ok (), b.bytes) →
        a.negateInPlace = (.ok (), b.bytes)) := by
  obtain ⟨s, hs, hword⟩ := r.negateInPlace_word
  refine ⟨s, hs, ?_, ?_, negateInPlace_of_word hword, fun ty h => read_of_word hword h, ?_⟩
  · rw [hword, BitVec.toNat_neg, BitVec.toNat_ofNat, Nat.mod_eq_of_lt r.value_lt]
  · intro j hj
    rw [hword, BitVec.testBit_toNat, BitVec.getLsbD_of_ge _ _ hj]
  · intro hn ty x y _ hopposite other a b ha hb
    exact negateInPlace_of_store hn hopposite ha hb

/-- A hundred and thirty bits of ones, minus three and three, the low byte first. -/
def ones130 : Register .little 130 :=
  ⟨⟨Array.replicate 17 0xFF⟩, rfl⟩

def minusThree130 : Register .little 130 :=
  ⟨⟨#[0xFD] ++ Array.replicate 15 0xFF ++ #[0x03]⟩, rfl⟩

def three130 : Register .little 130 :=
  ⟨⟨#[0x03] ++ Array.replicate 16 0x00⟩, rfl⟩

/-- The least number of twelve bits below a padding that is set stays, and minus three in a hundred and
thirty bits becomes the three that storing it gives. -/
theorem negate_number_least :
    (∃ s : Register .big 12,
      (⟨⟨#[0xF8, 0x00]⟩, rfl⟩ : Register .big 12).negateInPlace = (.ok (), s.bytes) ∧
      s.bytes.value = 2 ^ 11 ∧
      ∃ y, s.read ⟨.w16, true⟩ (by decide) = .ok y ∧ IntType.toInt ⟨.w16, true⟩ y = -2 ^ 11) ∧
    130 < limit countBits ∧
    ones130.storeInPlace ⟨.w8, true⟩ 0xFD = (.ok (), minusThree130.bytes) ∧
    ones130.storeInPlace ⟨.w8, true⟩ 0x03 = (.ok (), three130.bytes) ∧
    minusThree130.negateInPlace = (.ok (), three130.bytes) := by
  refine ⟨?_, by decide, by decide, by decide, ?_⟩
  · obtain ⟨s, hs, hvalue, -, -, hread, -⟩ :=
      negate_number (⟨⟨#[0xF8, 0x00]⟩, rfl⟩ : Register .big 12)
    obtain ⟨x, y, hx, hy, hleast, -⟩ := hread ⟨.w16, true⟩ (by decide) rfl
    have hx' : (⟨⟨#[0xF8, 0x00]⟩, rfl⟩ : Register .big 12).read ⟨.w16, true⟩ (by decide) =
        .ok 0xF800 := by
      decide
    obtain rfl : x = 0xF800 := Except.ok.inj (hx.symm.trans hx')
    exact ⟨s, hs, hvalue.trans (by decide), y, hy, hleast (by decide) (by decide)⟩
  · obtain ⟨-, -, -, -, -, -, hstore⟩ := negate_number ones130
    exact hstore (by decide) ⟨.w8, true⟩ 0xFD 0x03 rfl (by decide) ones130 _ _ (by decide) (by decide)

end Register

end Bitfield
