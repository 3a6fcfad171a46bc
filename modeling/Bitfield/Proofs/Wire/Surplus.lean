import Bitfield.Proofs.Wire.Gathering

/-! Answers with surplus bits. A field may answer a request for a few bits with any byte, and packing
takes the whole byte in. Each byte of the wire is the bitwise or of the answers to its own segments,
moved up to their places, so bits of an answer above the length of its segment come to lie above the
segment in the same byte, or are lost. Without such bits the byte is its chunks one after the other. -/

namespace Bitfield.Wire

namespace Segment

/-- How many bits of its byte come after a segment. -/
def bitsAfter (s : Segment) : Nat :=
  8 * (s.start / 8 + 1) - s.stop

/-- An answer without its bits above the length of the segment. -/
def trim (s : Segment) (bits : Byte) : Byte :=
  BitVec.ofNat 8 (bits.toNat % 2 ^ s.chunk.length)

theorem placed_eq (s : Segment) (bits : Byte) : s.placed bits = bits <<< s.bitsAfter := by
  have hafter : 8 - (s.start % 8 + s.chunk.length) = s.bitsAfter := by
    unfold bitsAfter stop
    omega
  rw [placed, hafter]

theorem toNat_placed (s : Segment) (bits : Byte) :
    (s.placed bits).toNat = bits.toNat * 2 ^ s.bitsAfter % 256 := by
  rw [placed_eq, BitVec.toNat_shiftLeft, Nat.shiftLeft_eq]

/-- Bits up to the top one of a segment are the same without the surplus, and no other ones come
in. -/
theorem getLsbD_placed_trim (s : Segment) (bits : Byte) (k : Nat) :
    (s.placed (s.trim bits)).getLsbD k =
      (decide (k < s.bitsAfter + s.chunk.length) && (s.placed bits).getLsbD k) := by
  have htrim : ∀ i, (s.trim bits).getLsbD i =
      (decide (i < s.chunk.length) && bits.getLsbD i) := by
    intro i
    rw [trim, BitVec.getLsbD_ofNat, Nat.testBit_mod_two_pow, BitVec.testBit_toNat]
    by_cases hi : i < 8
    · simp [hi]
    · simp [hi, BitVec.getLsbD_of_ge bits i (by omega)]
  rw [placed_eq, placed_eq, BitVec.getLsbD_shiftLeft, BitVec.getLsbD_shiftLeft, htrim]
  by_cases hlow : k < s.bitsAfter
  · simp [hlow]
  · have hsame : k - s.bitsAfter < s.chunk.length ↔ k < s.bitsAfter + s.chunk.length := by omega
    simp only [hsame]
    simp only [Bool.and_left_comm]

/-- Without surplus bits, an answer and what comes after it in the byte are one number. -/
theorem toNat_placed_or {s : Segment} {bits below : Byte} (hbyte : s.start % 8 + s.chunk.length ≤ 8)
    (hbits : bits.toNat < 2 ^ s.chunk.length) (hbelow : below.toNat < 2 ^ s.bitsAfter) :
    (s.placed bits ||| below).toNat = bits.toNat * 2 ^ s.bitsAfter + below.toNat := by
  have hroom : s.chunk.length + s.bitsAfter ≤ 8 := by
    unfold bitsAfter stop
    omega
  have hlt : bits.toNat * 2 ^ s.bitsAfter < 256 :=
    calc bits.toNat * 2 ^ s.bitsAfter
        < 2 ^ s.chunk.length * 2 ^ s.bitsAfter :=
          Nat.mul_lt_mul_of_pos_right hbits (Nat.two_pow_pos _)
      _ = 2 ^ (s.chunk.length + s.bitsAfter) := (pow_add _ _ _).symm
      _ ≤ 2 ^ 8 := Nat.pow_le_pow_right (by decide) hroom
  rw [BitVec.toNat_or, toNat_placed, Nat.mod_eq_of_lt hlt, ← Nat.shiftLeft_eq,
    Nat.shiftLeft_add_eq_or_of_lt hbelow]

end Segment

/-- The answers to the segments in one byte of a wire. -/
def answersIn (index : Nat) (answered : List (Segment × Byte)) : List (Segment × Byte) :=
  answered.filter fun a => a.1.start / 8 = index

theorem answersIn_cons_of_eq {index : Nat} {a : Segment × Byte} (rest : List (Segment × Byte))
    (h : a.1.start / 8 = index) : answersIn index (a :: rest) = a :: answersIn index rest :=
  List.filter_cons_of_pos (decide_eq_true h)

theorem answersIn_cons_of_ne {index : Nat} {a : Segment × Byte} (rest : List (Segment × Byte))
    (h : a.1.start / 8 ≠ index) : answersIn index (a :: rest) = answersIn index rest :=
  List.filter_cons_of_neg (by simpa using h)

/-- A byte is the bitwise or of the answers to its segments, each at its place. -/
theorem toNat_gathered (index : Nat) (answered : List (Segment × Byte)) :
    (gathered index answered).toNat =
      ((answersIn index answered).map fun a => a.2.toNat * 2 ^ a.1.bitsAfter % 256).foldr
        (· ||| ·) 0 := by
  induction answered with
  | nil => rfl
  | cons a rest ih =>
      obtain ⟨s, bits⟩ := a
      rw [gathered, BitVec.toNat_or, ih]
      by_cases h : s.start / 8 = index
      · rw [if_pos h, answersIn_cons_of_eq rest h, s.toNat_placed]
        rfl
      · rw [if_neg h, answersIn_cons_of_ne rest h]
        exact Nat.zero_or _

/-- Answers to the segments in one byte that have no surplus bits. -/
def Fitting (index : Nat) (answered : List (Segment × Byte)) : Prop :=
  ∀ a ∈ answersIn index answered, a.2.toNat < 2 ^ a.1.chunk.length

theorem Fitting.tail {index : Nat} {a : Segment × Byte} {rest : List (Segment × Byte)}
    (h : Fitting index (a :: rest)) : Fitting index rest := by
  intro x hx
  apply h x
  rw [answersIn, List.filter_cons]
  split
  · exact List.mem_cons_of_mem a hx
  · exact hx

theorem Fitting.head {index : Nat} {a : Segment × Byte} {rest : List (Segment × Byte)}
    (h : Fitting index (a :: rest)) (hindex : a.1.start / 8 = index) :
    a.2.toNat < 2 ^ a.1.chunk.length := by
  apply h a
  rw [answersIn_cons_of_eq rest hindex]
  exact List.mem_cons_self

section Fitting

variable {index start finish : Nat} {list : List Segment} {replies : List Byte}
  (htiles : Tiles start finish list) (hfit : Fitting index (list.zip replies))

include htiles hfit

/-- Answers without surplus bits stay below the place where the first of them starts. -/
theorem toNat_gathered_lt (hstart : 8 * index ≤ start) :
    (gathered index (list.zip replies)).toNat < 2 ^ (8 * (index + 1) - start) := by
  induction list generalizing start replies with
  | nil => exact Nat.two_pow_pos _
  | cons s rest ih =>
      cases replies with
      | nil => exact Nat.two_pow_pos _
      | cons bits replies =>
          obtain ⟨rfl, hpos, hbyte, hrest⟩ := htiles
          have hnext : 8 * index ≤ s.stop := hstart.trans (Nat.le_add_right _ _)
          have hbelow := ih hrest hfit.tail hnext
          rw [List.zip_cons_cons, gathered]
          by_cases h : s.start / 8 = index
          · have hbits := hfit.head h
            have hafter : 8 * (index + 1) - s.stop = s.bitsAfter := by rw [Segment.bitsAfter, h]
            have hplace : 8 * (index + 1) - s.start = s.chunk.length + s.bitsAfter := by
              rw [← hafter, Segment.stop]
              omega
            rw [hafter] at hbelow
            rw [if_pos h, Segment.toNat_placed_or hbyte hbits hbelow, hplace, pow_add]
            calc bits.toNat * 2 ^ s.bitsAfter + (gathered index (rest.zip replies)).toNat
                < bits.toNat * 2 ^ s.bitsAfter + 2 ^ s.bitsAfter := Nat.add_lt_add_left hbelow _
              _ = (bits.toNat + 1) * 2 ^ s.bitsAfter := by ring
              _ ≤ 2 ^ s.chunk.length * 2 ^ s.bitsAfter := Nat.mul_le_mul_right _ hbits
          · have hpast : 8 * (index + 1) - s.stop = 8 * (index + 1) - s.start := by
              rw [Segment.stop]
              omega
            rwa [if_neg h, BitVec.zero_or, ← hpast]

/-- A byte whose answers have no surplus bits is these answers one after the other. -/
theorem toNat_gathered_of_fitting :
    (gathered index (list.zip replies)).toNat =
      ((answersIn index (list.zip replies)).map fun a => a.2.toNat * 2 ^ a.1.bitsAfter).sum := by
  induction list generalizing start replies with
  | nil => rfl
  | cons s rest ih =>
      cases replies with
      | nil => rfl
      | cons bits replies =>
          obtain ⟨rfl, -, hbyte, hrest⟩ := htiles
          rw [List.zip_cons_cons, gathered]
          by_cases h : s.start / 8 = index
          · have hnext : 8 * index ≤ s.stop := by
              rw [Segment.stop]
              omega
            have hbelow := toNat_gathered_lt hrest hfit.tail hnext
            have hafter : 8 * (index + 1) - s.stop = s.bitsAfter := by rw [Segment.bitsAfter, h]
            rw [hafter] at hbelow
            rw [if_pos h, Segment.toNat_placed_or hbyte (hfit.head h) hbelow, ih hrest hfit.tail,
              answersIn_cons_of_eq _ h, List.map_cons, List.sum_cons]
          · rw [if_neg h, BitVec.zero_or, ih hrest hfit.tail, answersIn_cons_of_ne _ h]

end Fitting

/-- The part of one answer in a byte, beside those of the answers before and after it. -/
theorem gathered_zip_split (index : Nat) {list : List Segment} {left : List Byte} {s : Segment}
    (hget : list[left.length]? = some s) (bits : Byte) (right : List Byte) :
    gathered index (list.zip (left ++ bits :: right)) =
      gathered index (list.zip left) ||| ((if s.start / 8 = index then s.placed bits else 0#8) |||
        gathered index ((list.drop (left.length + 1)).zip right)) := by
  obtain ⟨hlt, rfl⟩ := List.getElem?_eq_some_iff.1 hget
  rw [gathered_zip_append, List.drop_eq_getElem_cons hlt, List.zip_cons_cons, gathered]

/-- In its byte, an answer without its surplus leaves the bits up to the top of the segment as they are,
and sets none that the whole answer does not set. -/
theorem gathered_zip_trim {list : List Segment} {left : List Byte} {s : Segment}
    (hget : list[left.length]? = some s) (bits : Byte) (right : List Byte) :
    (∀ k < s.bitsAfter + s.chunk.length,
      (gathered (s.start / 8) (list.zip (left ++ bits :: right))).getLsbD k =
        (gathered (s.start / 8) (list.zip (left ++ s.trim bits :: right))).getLsbD k) ∧
    ∀ k, (gathered (s.start / 8) (list.zip (left ++ s.trim bits :: right))).getLsbD k = true →
      (gathered (s.start / 8) (list.zip (left ++ bits :: right))).getLsbD k = true := by
  rw [gathered_zip_split _ hget, gathered_zip_split _ hget, if_pos rfl, if_pos rfl]
  simp only [BitVec.getLsbD_or, Segment.getLsbD_placed_trim, Bool.or_eq_true, Bool.and_eq_true]
  constructor
  · intro k hk
    rw [decide_eq_true hk, Bool.true_and]
  · rintro k (hleft | ⟨-, hown⟩ | hright)
    · exact Or.inl hleft
    · exact Or.inr (Or.inl hown)
    · exact Or.inr (Or.inr hright)

/-- Whatever bytes the fields answer with, each byte of the wire is the bitwise or of the answers to its
segments, moved up to their places, and these answers one after the other if they have no surplus bits.
The surplus of one answer makes a difference to its own byte alone, where it can only set bits above the
segment. -/
theorem pack_surplus_contained {φ : Type} [ReadableField φ] (wire : Array Byte) (fields : List φ)
    (hcount : bitCount fields = 8 * wire.size) (hindex : 8 * wire.size < limit indexBits)
    {replies : List Byte}
    (hanswers : Answers fields (segments (fields.map ReadableField.width)) replies)
    (hall : replies.length = (segments (fields.map ReadableField.width)).length) :
    (pack wire fields).outcome = .ok () ∧ (pack wire fields).wire.size = wire.size ∧
    (∀ b < wire.size, ∃ x, (pack wire fields).wire[b]? = some x ∧
      x.toNat = ((answersIn b ((segments (fields.map ReadableField.width)).zip replies)).map fun a =>
        a.2.toNat * 2 ^ a.1.bitsAfter % 256).foldr (· ||| ·) 0 ∧
      (Fitting b ((segments (fields.map ReadableField.width)).zip replies) →
        x.toNat = ((answersIn b ((segments (fields.map ReadableField.width)).zip replies)).map fun a =>
          a.2.toNat * 2 ^ a.1.bitsAfter).sum)) ∧
    ∀ (left : List Byte) (bits : Byte) (right : List Byte) (s : Segment),
      replies = left ++ bits :: right →
      (segments (fields.map ReadableField.width))[left.length]? = some s →
      ∀ {ψ : Type} [ReadableField ψ] (other : Array Byte) (others : List ψ),
        other.size = wire.size → others.map ReadableField.width = fields.map ReadableField.width →
        Answers others (segments (fields.map ReadableField.width)) (left ++ s.trim bits :: right) →
        (∀ b ≠ s.start / 8, (pack wire fields).wire[b]? = (pack other others).wire[b]?) ∧
        ∃ x y, (pack wire fields).wire[s.start / 8]? = some x ∧
          (pack other others).wire[s.start / 8]? = some y ∧
          (∀ k < s.bitsAfter + s.chunk.length, x.getLsbD k = y.getLsbD k) ∧
          ∀ k, y.getLsbD k = true → x.getLsbD k = true := by
  have htiles := tiles_segments (fields.map ReadableField.width)
  obtain ⟨houtcome, hsize, hbytes⟩ := pack_of_all_answers hcount hindex rfl hanswers hall
  refine ⟨houtcome, hsize, fun b hb => ?_, ?_⟩
  · exact ⟨_, hbytes b hb, toNat_gathered _ _, toNat_gathered_of_fitting htiles⟩
  · rintro left bits right s rfl hget ψ _ other others hother hwidths htrimmed
    have hcount' : bitCount others = 8 * other.size := by
      rw [bitCount_eq_sum, hwidths, ← bitCount_eq_sum, hcount, hother]
    obtain ⟨-, hsize', hbytes'⟩ := pack_of_all_answers hcount' (by rwa [hother])
      (congrArg segments hwidths) htrimmed (by simpa using hall)
    rw [hother] at hsize' hbytes'
    constructor
    · intro b hb
      rcases Nat.lt_or_ge b wire.size with hlt | hge
      · rw [hbytes b hlt, hbytes' b hlt, gathered_zip_split b hget, gathered_zip_split b hget,
          if_neg hb.symm, if_neg hb.symm]
      · rw [Array.getElem?_eq_none (by omega), Array.getElem?_eq_none (by omega)]
    · have hindex : s.start / 8 < wire.size := by
        obtain ⟨-, hpos, -, hstop⟩ := mem_segments (List.mem_of_getElem? hget)
        rw [← bitCount_eq_sum, hcount, Segment.stop] at hstop
        omega
      exact ⟨_, _, hbytes _ hindex, hbytes' _ hindex, gathered_zip_trim hget bits right⟩

/-- Probes of 3, 5, 6 and 2 bits. The answer of the third has surplus bits that leave the byte. -/
def overflowing (second : Byte) : List Probe :=
  [⟨3, 0x05, 0, []⟩, ⟨5, second, 0, []⟩, ⟨6, 0xC1, 0, []⟩, ⟨2, 0x01, 0, []⟩]

/-- A surplus bit of the second answer sets a bit of the first segment; without it the byte is the
answers to its two segments. -/
theorem pack_surplus_contained_overflowing :
    bitCount (overflowing 0x5A) = 8 * (#[0x11, 0x22] : Array Byte).size ∧
      (pack #[0x11, 0x22] (overflowing 0x5A)).outcome = .ok () ∧
      (∃ x, (pack #[0x11, 0x22] (overflowing 0x5A)).wire[0]? = some x ∧ x.toNat = 0xFA) ∧
      (∃ x, (pack #[0x11, 0x22] (overflowing 0x5A)).wire[1]? = some x ∧ x.toNat = 0x05) ∧
      (∃ x, (pack #[0x33, 0x44] (overflowing 0x1A)).wire[0]? = some x ∧
        x.toNat = 0x05 * 2 ^ 5 + 0x1A) ∧
      (pack #[0x11, 0x22] (overflowing 0x5A)).wire[1]? =
        (pack #[0x33, 0x44] (overflowing 0x1A)).wire[1]? := by
  have hsegments : segments [3, 5, 6, 2] =
      [⟨0, 0, ⟨3, 0⟩⟩, ⟨1, 3, ⟨5, 0⟩⟩, ⟨2, 8, ⟨6, 0⟩⟩, ⟨3, 14, ⟨2, 0⟩⟩] := by
    decide
  have hwidths : ∀ second, (overflowing second).map ReadableField.width = [3, 5, 6, 2] :=
    fun _ => rfl
  have hanswers : ∀ second,
      Answers (overflowing second) (segments [3, 5, 6, 2]) [0x05, second, 0xC1, 0x01] := by
    rw [hsegments]
    exact fun second => fun
      | 0, _ => rfl
      | 1, _ => rfl
      | 2, _ => rfl
      | 3, _ => rfl
  obtain ⟨houtcome, -, hbytes, hsurplus⟩ := pack_surplus_contained #[0x11, 0x22] (overflowing 0x5A) rfl
    (by decide) (hanswers 0x5A) (by rw [hwidths, hsegments]; rfl)
  obtain ⟨-, -, hbytes', -⟩ := pack_surplus_contained #[0x33, 0x44] (overflowing 0x1A) rfl
    (by decide) (hanswers 0x1A) (by rw [hwidths, hsegments]; rfl)
  have hsecond : (segments [3, 5, 6, 2])[1]? = some ⟨1, 3, ⟨5, 0⟩⟩ := by rw [hsegments]; rfl
  obtain ⟨hother, -⟩ := hsurplus [0x05] 0x5A [0xC1, 0x01] _ rfl hsecond #[0x33, 0x44]
    (overflowing 0x1A) rfl rfl (hanswers 0x1A)
  obtain ⟨x, hx, hxvalue, -⟩ := hbytes 0 (by decide)
  obtain ⟨y, hy, hyvalue, -⟩ := hbytes 1 (by decide)
  obtain ⟨z, hz, -, hzvalue⟩ := hbytes' 0 (by decide)
  rw [hwidths, hsegments] at hxvalue hyvalue hzvalue
  refine ⟨rfl, houtcome, ⟨x, hx, hxvalue⟩, ⟨y, hy, hyvalue⟩, ⟨z, hz, ?_⟩, hother 1 (by decide)⟩
  exact hzvalue (by unfold Fitting; decide)

end Bitfield.Wire
