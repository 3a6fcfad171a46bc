import Bitfield.Byte
import Bitfield.Checked

/-!
Words of a fixed width: shifts of any amount, masks of an interval of bits, moving bits to either
end, and sign extension. Positions count from the least significant bit.
-/

namespace Bitfield

namespace Word

variable {w : Nat}

/-- Moves every bit up by `count` and fills with zeros; nothing is left from the width on. -/
def shiftUp (x : BitVec w) (count : Nat) : BitVec w :=
  if count < w then x <<< count else 0

/-- Moves every bit down by `count` and fills with zeros; nothing is left from the width on. -/
def shiftDown (x : BitVec w) (count : Nat) : BitVec w :=
  if count < w then x >>> count else 0

/-- The word whose `middle` bits above the lowest `right` bits are set. The three parts have to add
up to the width. -/
def intervalMask (w left middle right : Nat) : Outcome (BitVec w) := do
  let upper ← Checked.add countBits left middle
  let total ← Checked.add countBits upper right
  if total ≠ w then
    fault .maskParts
  else if middle = 0 then
    .ok 0
  else if middle = w then
    .ok (BitVec.allOnes w)
  else do
    let above ← Checked.shiftLeft (BitVec.allOnes w) middle
    Checked.shiftLeft (~~~above) right

/-- Moves the lowest `count` bits to the top of the word; the other bits are lost. -/
def justifyLeft (x : BitVec w) (count : Nat) : Outcome (BitVec w) := do
  let gap ← Checked.sub w count
  .ok (shiftUp x gap)

/-- Moves the highest `count` bits to the bottom of the word; the other bits are lost. -/
def justifyRight (x : BitVec w) (count : Nat) : Outcome (BitVec w) := do
  let gap ← Checked.sub w count
  .ok (shiftDown x gap)

/-- Repeats bit `count - 1` in every bit from `count` on. A count of zero, or of the whole width,
leaves the word as it is. -/
def signExtend (x : BitVec w) (count : Nat) : Outcome (BitVec w) :=
  if count = 0 ∨ w ≤ count then
    .ok x
  else do
    let gap ← Checked.sub w count
    let high ← intervalMask w 0 gap count
    let below ← Checked.sub count 1
    let signAndHigh ← Checked.shiftLeft (BitVec.allOnes w) below
    if x &&& signAndHigh &&& ~~~high ≠ 0 then .ok (x ||| high) else .ok (x &&& ~~~high)

/-- The byte whose lowest `count` bits are set. -/
def lowMask (count : Nat) : Outcome Byte := do
  let gap ← Checked.sub 8 (narrow countBits count)
  intervalMask 8 gap (narrow countBits count) 0

/-- Parts that add up to the width give the mask of their middle part. -/
theorem intervalMask_of_sum {left middle right : Nat} (hsum : left + middle + right = w)
    (hw : w < limit countBits) :
    ∃ mask : BitVec w, intervalMask w left middle right = .ok mask ∧
      ∀ j, mask.getLsbD j = (decide (right ≤ j) && decide (j < right + middle)) := by
  simp only [intervalMask]
  rw [Checked.add_of_lt (by omega), Outcome.ok_bind, Checked.add_of_lt (by omega), Outcome.ok_bind,
    if_neg (by omega)]
  by_cases hzero : middle = 0
  · rw [if_pos hzero]
    refine ⟨0, rfl, fun j => ?_⟩
    have : ¬ (right ≤ j ∧ j < right + middle) := by omega
    simpa using this
  · rw [if_neg hzero]
    by_cases hall : middle = w
    · rw [if_pos hall]
      refine ⟨_, rfl, fun j => ?_⟩
      have hright : right = 0 := by omega
      simp [hall, hright]
    · rw [if_neg hall, Checked.shiftLeft_of_lt _ (by omega), Outcome.ok_bind,
        Checked.shiftLeft_of_lt _ (by omega)]
      refine ⟨_, rfl, fun j => ?_⟩
      simp only [BitVec.getLsbD_shiftLeft, BitVec.getLsbD_not, BitVec.getLsbD_allOnes]
      by_cases hj : j < right
      · have : ¬ right ≤ j := by omega
        simp [hj, this]
      · by_cases htop : j < right + middle
        · have hbelow : j - right < middle := by omega
          have hwidth : j < w := by omega
          have hshort : j - right < w := by omega
          have hle : right ≤ j := by omega
          simp [hj, htop, hbelow, hwidth, hshort, hle]
        · have habove : ¬ j - right < middle := by omega
          by_cases hwidth : j < w
          · have hshort : j - right - middle < w := by omega
            have hless : j - right < w := by omega
            simp [htop, habove, hshort, hless]
          · simp [hwidth, htop]

theorem intervalMask_of_sum_ne {left middle right : Nat} (hsum : left + middle + right ≠ w)
    (hrange : left + middle + right < limit countBits) :
    intervalMask w left middle right = fault .maskParts := by
  simp only [intervalMask]
  rw [Checked.add_of_lt (by omega), Outcome.ok_bind, Checked.add_of_lt hrange, Outcome.ok_bind,
    if_pos hsum]

theorem lowMask_of_le {count : Nat} (h : count ≤ 8) :
    ∃ mask, lowMask count = .ok mask ∧ ∀ j, mask.getLsbD j = decide (j < count) := by
  have hnarrow : narrow countBits count = count :=
    Nat.mod_eq_of_lt (Nat.lt_of_le_of_lt h (by decide))
  simp only [lowMask, hnarrow]
  rw [Checked.sub_of_le h, Outcome.ok_bind]
  obtain ⟨mask, hmask, hbits⟩ :=
    intervalMask_of_sum (show 8 - count + count + 0 = 8 by omega) (by decide)
  exact ⟨mask, hmask, fun j => by simp [hbits]⟩

theorem getLsbD_one_shiftLeft {i : Nat} (h : i < w) (k : Nat) :
    ((1 : BitVec w) <<< i).getLsbD k = decide (k = i) := by
  have hflag : (1 : BitVec w) <<< i = BitVec.twoPow w i := rfl
  rw [hflag, BitVec.getLsbD_twoPow]
  simp [h, eq_comm]

/-- A word and a single bit have a bit in common exactly when that bit of the word is set. -/
theorem bit_ne_zero (x : BitVec w) {i : Nat} (h : i < w) :
    (x &&& (1 : BitVec w) <<< i != 0) = x.getLsbD i := by
  have hflag : (1 : BitVec w) <<< i = BitVec.twoPow w i := rfl
  have hne : (1 : BitVec w) <<< i ≠ 0 := by
    intro hzero
    have hbit := getLsbD_one_shiftLeft h i
    rw [hzero] at hbit
    simp at hbit
  rw [hflag, BitVec.and_twoPow, ← hflag]
  cases hx : x.getLsbD i with
  | false => simp
  | true => simpa using hne

theorem shiftUp_eq (x : BitVec w) (count : Nat) : shiftUp x count = x <<< count := by
  unfold shiftUp
  split
  · rfl
  · rename_i h
    exact (BitVec.shiftLeft_eq_zero (Nat.le_of_not_lt h)).symm

theorem shiftDown_eq (x : BitVec w) (count : Nat) : shiftDown x count = x >>> count := by
  unfold shiftDown
  split
  · rfl
  · rename_i h
    exact (BitVec.ushiftRight_eq_zero (Nat.le_of_not_lt h)).symm

/-- Bytes that are shifted into a word one after the other, the one of the highest index first, become
its lowest bits, and the bits that it had lie above them. -/
theorem foldlM_shiftUp {step : BitVec w → Nat → Outcome (BitVec w)} {bits : Nat → Bool}
    (low count : Nat)
    (hstep : ∀ word, ∀ i < count, ∃ x : Byte,
      step word (low + i) = .ok (shiftUp word 8 ||| x.setWidth w) ∧
      ∀ k < 8, x.getLsbD k = bits (8 * i + k))
    (start : BitVec w) :
    ∃ word, (List.range' low count).reverse.foldlM step start = .ok word ∧
      ∀ j < w, word.getLsbD j = if j < 8 * count then bits j else start.getLsbD (j - 8 * count) := by
  induction count generalizing start with
  | zero => exact ⟨start, rfl, fun j _ => by simp⟩
  | succ count ih =>
      obtain ⟨x, hx, hbyte⟩ := hstep start count (Nat.lt_succ_self count)
      obtain ⟨word, hword, hbits⟩ :=
        ih (fun word i hi => hstep word i (Nat.lt_succ_of_lt hi)) (shiftUp start 8 ||| x.setWidth w)
      refine ⟨word, ?_, fun j hj => ?_⟩
      · rw [List.range'_concat, Nat.one_mul, List.reverse_append, List.reverse_singleton,
          List.singleton_append, List.foldlM_cons, hx, Outcome.ok_bind]
        exact hword
      · rw [hbits j hj]
        by_cases hlow : j < 8 * count
        · rw [if_pos hlow, if_pos (by omega)]
        · have hwidth : j - 8 * count < w := by omega
          rw [if_neg hlow, BitVec.getLsbD_or, shiftUp_eq, BitVec.getLsbD_shiftLeft,
            BitVec.getLsbD_setWidth]
          by_cases hmiddle : j < 8 * (count + 1)
          · have hbelow : j - 8 * count < 8 := by omega
            have hplace : 8 * count + (j - 8 * count) = j := by omega
            rw [if_pos hmiddle, hbyte _ hbelow, hplace]
            simp [hwidth, hbelow]
          · have habove : ¬ j - 8 * count < 8 := by omega
            have hzero : x.getLsbD (j - 8 * count) = false := BitVec.getLsbD_of_ge _ _ (by omega)
            rw [if_neg hmiddle, hzero, show j - 8 * (count + 1) = j - 8 * count - 8 by omega]
            simp [hwidth, habove]

end Word

end Bitfield
