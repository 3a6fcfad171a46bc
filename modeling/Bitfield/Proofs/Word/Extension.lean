import Bitfield.Proofs.IntType

/-! Sign extension and the check for a number of bits. A word is extended to the one word that has its
lowest bits and repeats the top one of them, and extending it once more changes nothing. A signed number
is in the range of as many bits exactly when its word is such an extension already, so the check, made
with an arithmetic shift, and the extension, made with masks, agree. -/

namespace Bitfield

namespace Word

variable {w n : Nat} {x y : BitVec w}

/-- The word `y` has the lowest `n` bits of `x`, and its bit `n - 1` again in every bit above them. -/
def Extends (n : Nat) (x y : BitVec w) : Prop :=
  (∀ j < n, y.getLsbD j = x.getLsbD j) ∧
  ∀ j < w, n ≤ j → y.getLsbD j = y.getLsbD (n - 1)

instance (n : Nat) (x y : BitVec w) : Decidable (Extends n x y) :=
  inferInstanceAs (Decidable (_ ∧ _))

/-- There is one word that extends the lowest bits of another. -/
theorem extends_iff (hpos : 0 < n) (hle : n ≤ w) :
    Extends n x y ↔ y = (x.setWidth n).signExtend w := by
  constructor
  · rintro ⟨hlow, hhigh⟩
    apply BitVec.eq_of_getLsbD_eq
    intro j hj
    rw [getLsbD_signExtend_setWidth x hpos hj]
    by_cases hbelow : j < n
    · rw [if_pos hbelow, hlow j hbelow]
    · rw [if_neg hbelow, hhigh j hj (Nat.le_of_not_lt hbelow), hlow (n - 1) (by omega)]
  · rintro rfl
    constructor
    · intro j hj
      rw [getLsbD_signExtend_setWidth x hpos (by omega), if_pos hj]
    · intro j hjw hj
      rw [getLsbD_signExtend_setWidth x hpos hjw, if_neg (Nat.not_lt.2 hj),
        getLsbD_signExtend_setWidth x hpos (by omega), if_pos (by omega)]

theorem signExtend_of_outside (x : BitVec w) (h : n = 0 ∨ w ≤ n) : signExtend x n = .ok x :=
  if_pos h

/-- The lowest bits of a word are those of its number. -/
theorem setWidth_eq_ofInt (x : BitVec w) (hle : n ≤ w) : x.setWidth n = BitVec.ofInt n x.toInt := by
  apply BitVec.eq_of_getLsbD_eq
  intro j hj
  have hbits := getLsbD_ofInt_number true x hj
  rw [bit_of_lt true x (Nat.lt_of_lt_of_le hj hle)] at hbits
  rw [BitVec.getLsbD_setWidth, decide_eq_true hj, Bool.true_and]
  exact hbits.symm

/-- Extension leaves a word as it is exactly when the number of the word is in the range of the bits
that are extended. -/
theorem signExtend_eq_self_iff (hpos : 0 < n) (hw : w < limit countBits) :
    signExtend x n = .ok x ↔ InRange true n x.toInt := by
  rcases Nat.lt_or_ge n w with hlt | hge
  · have hle : n ≤ w := Nat.le_of_lt hlt
    rw [signExtend_eq x hpos hle hw, Except.ok.injEq]
    constructor
    · intro hself
      have hnumber : (x.setWidth n).toInt = x.toInt := by
        rw [← BitVec.toInt_signExtend_of_le hle, hself]
      rw [← hnumber]
      exact number_inRange true (x.setWidth n)
    · intro hrange
      apply BitVec.eq_of_toInt_eq
      rw [BitVec.toInt_signExtend_of_le hle, setWidth_eq_ofInt x hle]
      exact number_ofInt_of_inRange hrange
  · exact iff_of_true (signExtend_of_outside x (.inr hge)) ((number_inRange true x).mono hge)

/-- Whatever the count, an extension that is extended again stays as it is. -/
theorem signExtend_idempotent (x : BitVec w) (n : Nat) (hw : w < limit countBits) :
    ∃ y, signExtend x n = .ok y ∧ signExtend y n = .ok y := by
  by_cases houtside : n = 0 ∨ w ≤ n
  · exact ⟨x, signExtend_of_outside x houtside, signExtend_of_outside x houtside⟩
  · have hpos : 0 < n := by omega
    have hle : n ≤ w := by omega
    refine ⟨_, signExtend_eq x hpos hle hw, ?_⟩
    rw [signExtend_eq_self_iff hpos hw, BitVec.toInt_signExtend_of_le hle]
    exact number_inRange true (x.setWidth n)

end Word

namespace IntType

/-- Any word of a type is extended, to itself if no bit or every bit of it is kept, and otherwise to
the one word that repeats the top one of the bits that are kept. The check for a number of bits asks
for the range of a signed or an unsigned integer of as many bits, and for a signed one this is whether
the word is its own extension. -/
theorem signExtend_fits (ty : IntType) (x : ty.Value) (n : Nat) :
    (n = 0 ∨ ty.width ≤ n → Word.signExtend x n = .ok x) ∧
    (0 < n → n < ty.width →
      ∃ y, Word.signExtend x n = .ok y ∧ ∀ z, Word.Extends n x z ↔ z = y) ∧
    (∃ y, Word.signExtend x n = .ok y ∧ Word.signExtend y n = .ok y) ∧
    ∃ holds, ty.fits x n = .ok holds ∧
      (ty.signed = true → 0 < n →
        (holds = true ↔ Word.signExtend x n = .ok x) ∧
        (holds = true ↔
          -2 ^ (n - 1) ≤ ty.toInt x ∧ ty.toInt x < 2 ^ (n - 1) ∨ ty.width ≤ n)) ∧
      (ty.signed = false → (holds = true ↔ ty.toInt x < 2 ^ n)) := by
  refine ⟨Word.signExtend_of_outside x, fun hpos hlt => ?_,
    Word.signExtend_idempotent x n ty.width_lt, _, ty.fits_eq x n, fun hsigned hpos => ⟨?_, ?_⟩,
    fun hsigned => ?_⟩
  · exact ⟨_, Word.signExtend_eq x hpos (Nat.le_of_lt hlt) ty.width_lt,
      fun z => Word.extends_iff hpos (Nat.le_of_lt hlt)⟩
  · rw [decide_eq_true_eq, Word.signExtend_eq_self_iff hpos ty.width_lt, toInt_eq_number, hsigned]
    rfl
  · rw [decide_eq_true_eq, hsigned]
    constructor
    · intro hrange
      rw [← Nat.sub_add_cancel hpos] at hrange
      exact .inl (Word.inRange_succ_iff.1 hrange)
    · rintro (hrange | hwide)
      · rw [← Nat.sub_add_cancel hpos]
        exact Word.inRange_succ_iff.2 hrange
      · rw [← hsigned]
        exact (Word.number_inRange ty.signed x).mono hwide
  · have hnonneg : 0 ≤ ty.toInt x := by
      rw [toInt_eq_number, hsigned]
      exact Int.natCast_nonneg _
    rw [decide_eq_true_eq, hsigned]
    exact ⟨And.right, fun hlt => ⟨hnonneg, hlt⟩⟩

/-- Twelve bits of an unsigned word that has other bits above them, all bits of it, and the least
number that twelve bits of a signed word hold. -/
theorem signExtend_fits_twelve :
    0 < 12 ∧ 12 < width ⟨.w16, false⟩ ∧
    Word.signExtend (0x5CAE : Value ⟨.w16, false⟩) 12 = .ok 0xFCAE ∧
    fits ⟨.w16, false⟩ 0x5CAE 12 = .ok false ∧
    Word.signExtend (0x5CAE : Value ⟨.w16, false⟩) 16 = .ok 0x5CAE ∧
    fits ⟨.w16, true⟩ 0xF800 12 = .ok true ∧
    Word.signExtend (0xF800 : Value ⟨.w16, true⟩) 12 = .ok 0xF800 := by
  obtain ⟨-, hinside, -, narrow, hnarrow, -, hunsigned⟩ := signExtend_fits ⟨.w16, false⟩ 0x5CAE 12
  obtain ⟨houtside, -⟩ := signExtend_fits ⟨.w16, false⟩ 0x5CAE 16
  obtain ⟨-, -, -, least, hleast, hsigned, -⟩ := signExtend_fits ⟨.w16, true⟩ 0xF800 12
  obtain ⟨y, hy, hunique⟩ := hinside (by decide) (by decide)
  obtain ⟨hself, hrange⟩ := hsigned rfl (by decide)
  obtain rfl : 0xFCAE = y := (hunique 0xFCAE).1 (by decide)
  obtain rfl : narrow = false := Bool.eq_false_iff.2 (mt (hunsigned rfl).1 (by decide))
  obtain rfl : least = true := hrange.2 (.inl (by decide))
  exact ⟨by decide, by decide, hy, hnarrow, houtside (.inr (by decide)), hleast, hself.1 rfl⟩

end IntType

end Bitfield
