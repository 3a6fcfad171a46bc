import Bitfield.Proofs.Register.Codec

/-! Which integers a register accepts, by its width. The check takes the width as a count of 32 bits, so
what is accepted are the numbers in the range of the lowest 32 bits of the width. A wider register
accepts all that a narrower one does as long as both widths are such counts; the first width that is not
is taken for none, and a register of it accepts nothing but zero. -/

namespace Bitfield

open Word (InRange)

/-- Some number needs exactly `n` bits: the greatest unsigned and the least signed one that they hold. -/
theorem Word.exists_inRange_iff (signed : Bool) (n : Nat) :
    ∃ v, ∀ m, InRange signed m v ↔ n ≤ m := by
  have hpow : ∀ k m : Nat, (2 : Int) ^ k ≤ 2 ^ m ↔ k ≤ m := fun k m => by
    exact_mod_cast Nat.pow_le_pow_iff_right Nat.one_lt_two
  have hpos : ∀ m : Nat, (0 : Int) < 2 ^ m := fun m => by exact_mod_cast Nat.two_pow_pos m
  cases signed with
  | false =>
      refine ⟨2 ^ n - 1, fun m => ?_⟩
      have := hpos n
      rw [InRange, if_neg Bool.false_ne_true, ← hpow]
      omega
  | true =>
      cases n with
      | zero =>
          have hzero : InRange true 0 0 := (inRange_zero_iff true).2 rfl
          exact ⟨0, fun m => iff_of_true (hzero.mono m.zero_le) m.zero_le⟩
      | succ k =>
          refine ⟨-2 ^ k, fun m => ?_⟩
          have := hpos k
          have := hpos m
          rw [InRange, if_pos rfl, ← hpow, pow_succ]
          omega

theorem IntType.exists_inRange_iff (ty : IntType) {n : Nat} (hn : n ≤ ty.width) :
    ∃ x : ty.Value, ∀ m, InRange ty.signed m (ty.toInt x) ↔ n ≤ m := by
  obtain ⟨v, hv⟩ := Word.exists_inRange_iff ty.signed n
  refine ⟨BitVec.ofInt ty.width v, fun m => ?_⟩
  rw [toInt_eq_number, Word.number_ofInt_of_inRange ((hv ty.width).2 hn), hv]

namespace Register

variable {order order' : ByteOrder} {m n : Nat}

/-- The register of which every byte is zero. -/
def zeros (order : ByteOrder) (n : Nat) : Register order n :=
  ⟨⟨Array.replicate (byteCount n) 0⟩, Array.size_replicate⟩

/-- An integer that can be stored. -/
def Accepts (r : Register order n) (ty : IntType) (x : ty.Value) : Prop :=
  ∃ s, r.store ty x = .ok s

/-- What a register accepts is in the range of its width as a count. -/
theorem accepts_iff (r : Register order n) (ty : IntType) (x : ty.Value) :
    r.Accepts ty x ↔ InRange ty.signed (narrow countBits n) (ty.toInt x) := by
  constructor
  · rintro ⟨s, hs⟩
    by_contra hrange
    rw [r.store_of_narrow_not_inRange hrange] at hs
    cases hs
  · intro hrange
    have hfits : ty.fits x (narrow countBits n) = .ok true := by
      rw [ty.fits_eq, decide_eq_true hrange]
    obtain ⟨s, hs, -⟩ := r.store_of_fits hfits
    exact ⟨s, hs⟩

theorem accepts_all_iff (r : Register order n) (ty : IntType) :
    (∀ x, r.Accepts ty x) ↔ ty.width ≤ narrow countBits n := by
  simp only [accepts_iff]
  constructor
  · intro hall
    obtain ⟨x, hx⟩ := ty.exists_inRange_iff (Nat.le_refl ty.width)
    exact (hx _).1 (hall x)
  · intro hwide x
    exact (Word.number_inRange ty.signed x).mono hwide

/-- A register accepts all that another one does exactly when its width, as a count, reaches that of the
other one or that of the type. -/
theorem accepts_imp_iff (r : Register order m) (s : Register order' n) (ty : IntType) :
    (∀ x, r.Accepts ty x → s.Accepts ty x) ↔
      min (narrow countBits m) ty.width ≤ narrow countBits n := by
  constructor
  · intro himp
    obtain ⟨x, hx⟩ := ty.exists_inRange_iff (Nat.min_le_right (narrow countBits m) ty.width)
    have hr : r.Accepts ty x := (r.accepts_iff ty x).2 ((hx _).2 (Nat.min_le_left _ _))
    exact (hx _).1 ((s.accepts_iff ty x).1 (himp x hr))
  · intro hle x hr
    rcases Nat.le_total (narrow countBits m) ty.width with hnarrow | hwide
    · rw [Nat.min_eq_left hnarrow] at hle
      exact (s.accepts_iff ty x).2 (((r.accepts_iff ty x).1 hr).mono hle)
    · rw [Nat.min_eq_right hwide] at hle
      exact (s.accepts_all_iff ty).2 hle x

/-- Acceptance grows with the width exactly as far as the width still grows when it is cut to 32 bits:
always below two to the 32, where a register as wide as the type accepts every value of it. -/
theorem store_monotone_iff (r : Register order m) (s : Register order' n) (ty : IntType) :
    ((∀ x, r.Accepts ty x → s.Accepts ty x) ↔
      min (narrow countBits m) ty.width ≤ narrow countBits n) ∧
    ((∀ x, s.Accepts ty x) ↔ ty.width ≤ narrow countBits n) ∧
    (m ≤ n → n < limit countBits →
      (∀ x, r.Accepts ty x → s.Accepts ty x) ∧ (ty.width ≤ n → ∀ x, s.Accepts ty x)) := by
  refine ⟨r.accepts_imp_iff s ty, s.accepts_all_iff ty, fun hle hn => ?_⟩
  have hnarrow : narrow countBits n = n := Nat.mod_eq_of_lt hn
  have hnarrow' : narrow countBits m = m := Nat.mod_eq_of_lt (Nat.lt_of_le_of_lt hle hn)
  rw [accepts_imp_iff, accepts_all_iff, hnarrow, hnarrow']
  exact ⟨Nat.le_trans (Nat.min_le_left _ _) hle, id⟩

/-- The least signed byte, in eight bits and in twelve, and the greatest unsigned one. -/
theorem store_monotone_iff_twelve :
    8 ≤ 12 ∧ 12 < limit countBits ∧ (zeros .little 8).Accepts ⟨.w16, true⟩ 0xFF80 ∧
    (zeros .big 12).Accepts ⟨.w16, true⟩ 0xFF80 ∧
    IntType.width ⟨.w8, false⟩ ≤ 12 ∧ (zeros .big 12).Accepts ⟨.w8, false⟩ 0xFF := by
  have hr : (zeros .little 8).Accepts ⟨.w16, true⟩ 0xFF80 := (accepts_iff _ _ _).2 (by decide)
  obtain ⟨-, -, hsigned⟩ := store_monotone_iff (zeros .little 8) (zeros .big 12) ⟨.w16, true⟩
  obtain ⟨-, -, hbyte⟩ := store_monotone_iff (zeros .little 8) (zeros .big 12) ⟨.w8, false⟩
  exact ⟨by decide, by decide, hr, (hsigned (by decide) (by decide)).1 _ hr, by decide,
    (hbyte (by decide) (by decide)).2 (by decide) _⟩

/-- Eight bits accept a one, and two to the 32 bits refuse it, although the bits of that many bytes are
all indices. -/
theorem store_not_monotone :
    8 ≤ limit countBits ∧ 8 * byteCount (limit countBits) < limit indexBits ∧
    (zeros .little 8).Accepts ⟨.w8, false⟩ 1 ∧
    ¬ (zeros .little (limit countBits)).Accepts ⟨.w8, false⟩ 1 ∧
    (zeros .little (limit countBits)).store ⟨.w8, false⟩ 1 =
      refuse (.valueOutOfRange (limit countBits)) := by
  have hout : ¬ InRange false (narrow countBits (limit countBits)) 1 := by decide
  exact ⟨by decide, by decide, (accepts_iff _ _ _).2 (by decide), mt (accepts_iff _ _ _).1 hout,
    store_of_narrow_not_inRange _ hout⟩

end Register

end Bitfield
