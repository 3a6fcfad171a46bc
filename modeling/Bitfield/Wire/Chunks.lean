import Bitfield.Field

/-!
How a field is cut into chunks when it is moved to or from a wire. A chunk ends where a wire byte
ends or where the field does, so every chunk lies in one byte of the wire and in one field.
-/

namespace Bitfield.Wire

/-- The chunks of a field from its top bit on, when `remaining` bits of it are still to be moved and
the first of them lies at bit `position` of the wire. -/
def chunks (position remaining : Nat) : List Chunk :=
  if remaining = 0 then
    []
  else
    let take := min (8 - position % 8) remaining
    ⟨take, remaining - take⟩ :: chunks (position + take) (remaining - take)
termination_by remaining
decreasing_by omega

theorem chunks_zero (position : Nat) : chunks position 0 = [] := by
  rw [chunks, if_pos rfl]

theorem chunks_of_pos (position : Nat) {remaining : Nat} (h : 0 < remaining) :
    chunks position remaining =
      ⟨min (8 - position % 8) remaining, remaining - min (8 - position % 8) remaining⟩ ::
        chunks (position + min (8 - position % 8) remaining)
          (remaining - min (8 - position % 8) remaining) := by
  rw [chunks, if_neg (by omega)]

/-- Every chunk has between one and eight bits and ends inside the field. -/
theorem bounds_of_mem_chunks {position remaining : Nat} {chunk : Chunk}
    (h : chunk ∈ chunks position remaining) :
    0 < chunk.length ∧ chunk.length ≤ 8 ∧ chunk.offset + chunk.length ≤ remaining := by
  induction remaining using Nat.strongRecOn generalizing position with
  | ind remaining ih =>
      rcases Nat.eq_zero_or_pos remaining with rfl | hpos
      · simp [chunks_zero] at h
      · rw [chunks_of_pos position hpos] at h
        have htake : 0 < min (8 - position % 8) remaining := by omega
        rcases List.mem_cons.1 h with rfl | h
        · simp only
          omega
        · have := ih _ (by omega) h
          omega

end Bitfield.Wire
