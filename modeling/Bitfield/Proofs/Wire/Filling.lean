import Bitfield.Proofs.Wire.Value
import Bitfield.Wire.Packing

/-! Packing registers. While a wire is filled, the bits that are in, the pending ones included, are
one number; every chunk taken in is appended to it. A full wire therefore holds the numbers of all
registers one after the other, whatever it held before and whatever their padding. -/

namespace Bitfield

/-- A register answers a chunk with the number in its bits and stays as it was. -/
theorem AnyRegister.read_of_within (r : AnyRegister) (hindex : r.width < limit indexBits)
    {length offset : Nat} (hlength : length ≤ 8) (hend : offset + length ≤ r.width) :
    ∃ x, ReadableField.read r ⟨length, offset⟩ = (.ok x, r) ∧
      x.toNat = r.register.value / 2 ^ offset % 2 ^ length := by
  obtain ⟨x, hx, hvalue⟩ := Register.readBits_of_within r.register hlength ⟨by omega, hend⟩
  exact ⟨x, congrArg (fun outcome => (outcome, r)) hx, hvalue⟩

namespace Wire

namespace Packing

variable {size filled : Nat}

@[simp] theorem position_ask (p : Packing) (field : Nat) (chunk : Chunk) :
    (p.ask field chunk).position = p.position := rfl

@[simp] theorem wire_ask (p : Packing) (field : Nat) (chunk : Chunk) :
    (p.ask field chunk).wire = p.wire := rfl

/-- A chunk of at most a byte is gathered, whatever its bits. -/
theorem gather_of_le (p : Packing) {length : Nat} (bits : Byte) (hlength : length ≤ 8) :
    p.gather length bits = .ok (if length = 8 then bits else p.pending <<< length ||| bits) := by
  rw [gather]
  split
  · rfl
  · rw [Checked.shiftLeft_of_lt _ (by omega), Outcome.ok_bind]

theorem accept_of_room {p : Packing} {length : Nat} {bits x : Byte}
    (hx : p.gather length bits = .ok x) (hroom : (p.position + length) % 8 ≠ 0) :
    p.accept length bits = .ok ⟨p.wire, p.position + length, x, p.events⟩ := by
  rw [accept, hx, Outcome.ok_bind]
  exact if_neg hroom

theorem accept_of_full {p : Packing} {length : Nat} {bits x : Byte}
    (hx : p.gather length bits = .ok x) (hfull : (p.position + length) % 8 = 0)
    (hindex : p.position / 8 < p.wire.size) :
    p.accept length bits =
      .ok ⟨p.wire.set (p.position / 8) x hindex, p.position + length, 0,
        p.events ++ [.stored (p.position / 8) x]⟩ := by
  rw [accept, hx, Outcome.ok_bind]
  simp only [if_pos hfull, dif_pos hindex]

theorem moveChunks_cons_of_ok {φ : Type} [ReadableField φ] {index : Nat} {chunk : Chunk}
    {field after : φ} {p q : Packing} {bits : Byte} (rest : List Chunk)
    (hread : ReadableField.read field chunk = (.ok bits, after))
    (haccept : (p.ask index chunk).accept chunk.length bits = .ok q) :
    moveChunks index (chunk :: rest) field p = moveChunks index rest after q := by
  rw [moveChunks, hread]
  simp only [haccept]

/-- A wire that is being filled holds a number in the bits that are in, the last of them in the
pending byte. -/
structure Holds (p : Packing) (size filled : Nat) : Prop where
  size_eq : p.wire.size = size
  pending_lt : p.pending.toNat < 2 ^ (p.position % 8)
  filled_eq :
    prefixValue p.wire (p.position / 8) * 2 ^ (p.position % 8) + p.pending.toNat = filled

theorem Holds.ask {p : Packing} (h : p.Holds size filled) (field : Nat) (chunk : Chunk) :
    (p.ask field chunk).Holds size filled :=
  ⟨h.size_eq, h.pending_lt, h.filled_eq⟩

theorem holds_start (wire : Array Byte) (fields : Nat) :
    (start wire fields).Holds wire.size 0 :=
  ⟨rfl, Nat.one_pos, by simp [start, prefixValue, Buffer.valueOf]⟩

theorem Holds.value_eq {p : Packing} (h : p.Holds size filled) (hfull : p.position = 8 * size) :
    value p.wire = filled := by
  have hpending := h.pending_lt
  have hfilled := h.filled_eq
  have hsize := h.size_eq
  have hmod : p.position % 8 = 0 := by omega
  have hdiv : p.position / 8 = p.wire.size := by omega
  rw [hmod, pow_zero] at hpending hfilled
  rw [hdiv, prefixValue_size] at hfilled
  omega

theorem toNat_gather (p : Packing) {length : Nat} {bits : Byte}
    (hpending : p.pending.toNat < 2 ^ (p.position % 8)) (hlength : p.position % 8 + length ≤ 8)
    (hbits : bits.toNat < 2 ^ length) :
    ∃ x, p.gather length bits = .ok x ∧ x.toNat = p.pending.toNat * 2 ^ length + bits.toNat := by
  refine ⟨_, p.gather_of_le bits (by omega), ?_⟩
  by_cases hfull : length = 8
  · have hmod : p.position % 8 = 0 := by omega
    rw [hmod, pow_zero] at hpending
    have hzero : p.pending.toNat = 0 := Nat.lt_one_iff.1 hpending
    rw [if_pos hfull, hzero, Nat.zero_mul, Nat.zero_add]
  · have hroom : p.pending.toNat * 2 ^ length < 2 ^ 8 :=
      calc p.pending.toNat * 2 ^ length < 2 ^ (p.position % 8) * 2 ^ length :=
            Nat.mul_lt_mul_of_pos_right hpending (Nat.two_pow_pos length)
        _ = 2 ^ (p.position % 8 + length) := (pow_add _ _ _).symm
        _ ≤ 2 ^ 8 := Nat.pow_le_pow_right (by decide) hlength
    rw [if_neg hfull, BitVec.toNat_or, BitVec.toNat_shiftLeft, Nat.shiftLeft_eq,
      Nat.mod_eq_of_lt hroom, ← Nat.shiftLeft_eq, Nat.shiftLeft_add_eq_or_of_lt hbits]

/-- Bits that are taken in are appended to the number that is held. -/
theorem Holds.accept {p : Packing} {length : Nat} {bits : Byte} (h : p.Holds size filled)
    (hpos : 0 < length) (hlength : p.position % 8 + length ≤ 8)
    (hroom : p.position + length ≤ 8 * size) (hbits : bits.toNat < 2 ^ length) :
    ∃ q, p.accept length bits = .ok q ∧ q.position = p.position + length ∧
      q.Holds size (filled * 2 ^ length + bits.toNat) := by
  obtain ⟨x, hx, hvalue⟩ := toNat_gather p h.pending_lt hlength hbits
  have hfilled := h.filled_eq
  by_cases hfull : (p.position + length) % 8 = 0
  · have hindex : p.position / 8 < p.wire.size := by
      rw [h.size_eq]
      omega
    have hbyte : 2 ^ (p.position % 8) * 2 ^ length = 256 := by
      have hlast : p.position % 8 + length = 8 := by omega
      rw [← pow_add, hlast]
      rfl
    refine ⟨_, accept_of_full hx hfull hindex, rfl, ?_, ?_, ?_⟩
    · rw [Array.size_set, h.size_eq]
    · exact Nat.two_pow_pos _
    · have hdiv : (p.position + length) / 8 = p.position / 8 + 1 := by omega
      have hempty : (0 : Byte).toNat = 0 := rfl
      simp only [hfull, hdiv]
      rw [prefixValue_succ _ (by rwa [Array.size_set]), Array.getElem_set_self,
        prefixValue_set _ _ (Nat.le_refl _), hvalue, ← hfilled, ← hbyte, pow_zero, hempty]
      ring
  · have hmod : (p.position + length) % 8 = p.position % 8 + length := by omega
    refine ⟨_, accept_of_room hx hfull, rfl, h.size_eq, ?_, ?_⟩
    · simp only [hmod, hvalue, pow_add]
      calc p.pending.toNat * 2 ^ length + bits.toNat
          < p.pending.toNat * 2 ^ length + 2 ^ length := Nat.add_lt_add_left hbits _
        _ = (p.pending.toNat + 1) * 2 ^ length := by ring
        _ ≤ 2 ^ (p.position % 8) * 2 ^ length := Nat.mul_le_mul_right _ h.pending_lt
    · have hdiv : (p.position + length) / 8 = p.position / 8 := by omega
      simp only [hmod, hvalue, hdiv, pow_add]
      rw [← hfilled]
      ring

/-- The lowest `remaining` bits of a register are appended to the number that is held. A chunk takes the
top of the bits that remain, so each step splits them from above. -/
theorem Holds.moveChunks {p : Packing} (h : p.Holds size filled) (index : Nat) (r : AnyRegister)
    (hindex : r.width < limit indexBits) {remaining : Nat} (hwidth : remaining ≤ r.width)
    (hroom : p.position + remaining ≤ 8 * size) :
    ∃ q, Packing.moveChunks index (chunks p.position remaining) r p = (.ok (), r, q) ∧
      q.position = p.position + remaining ∧
      q.Holds size (filled * 2 ^ remaining + r.register.value % 2 ^ remaining) := by
  induction remaining using Nat.strongRecOn generalizing p filled with
  | ind remaining ih =>
      rcases Nat.eq_zero_or_pos remaining with rfl | hpos
      · refine ⟨p, by rw [chunks_zero, Packing.moveChunks], rfl, ?_⟩
        rwa [pow_zero, Nat.mul_one, Nat.mod_one, Nat.add_zero]
      · rw [chunks_of_pos _ hpos]
        generalize htake : min (8 - p.position % 8) remaining = take
        have hsum : take + (remaining - take) = remaining := by omega
        have hpos' : 0 < take := by omega
        have hlength : take ≤ 8 := by omega
        have hend' : remaining - take + take ≤ r.width := by omega
        obtain ⟨x, hx, hvalue⟩ := r.read_of_within hindex hlength hend'
        have hbits : x.toNat < 2 ^ take := by
          rw [hvalue]
          exact Nat.mod_lt _ (Nat.two_pow_pos take)
        obtain ⟨q, hq, hposition, hholds⟩ := (h.ask index ⟨take, remaining - take⟩).accept
          hpos' (by rw [position_ask]; omega) (by rw [position_ask]; omega) hbits
        rw [position_ask] at hposition
        obtain ⟨s, hs, hend, hfinal⟩ := ih (remaining - take) (by omega) hholds (by omega) (by omega)
        refine ⟨s, ?_, by omega, ?_⟩
        · rw [moveChunks_cons_of_ok _ hx hq, ← hposition, hs]
        · have hsplit := mod_two_pow_add r.register.value take (remaining - take)
          have hpow := pow_add 2 take (remaining - take)
          rw [hsum] at hsplit hpow
          rw [hvalue] at hfinal
          rw [hsplit, hpow, ← Nat.mul_assoc, ← Nat.add_assoc, ← Nat.add_mul]
          exact hfinal

/-- Registers are appended to the number that is held, one after the other. -/
theorem Holds.moveFields {p : Packing} (h : p.Holds size filled) (index : Nat)
    (fields : List AnyRegister) (hindex : bitCount fields < limit indexBits)
    (hroom : p.position + bitCount fields ≤ 8 * size) :
    ∃ q, Packing.moveFields index fields p = (.ok (), fields, q) ∧
      q.position = p.position + bitCount fields ∧
      q.Holds size (filled * 2 ^ bitCount fields + concatenation fields) := by
  induction fields generalizing p filled index with
  | nil => exact ⟨p, rfl, rfl, by simpa [bitCount, concatenation] using h⟩
  | cons r rest ih =>
      have hcount : bitCount (r :: rest) = r.width + bitCount rest := rfl
      rw [hcount] at hindex hroom ⊢
      obtain ⟨q, hq, hposition, hholds⟩ :=
        h.moveChunks index r (by omega) (Nat.le_refl r.width) (by omega)
      rw [Nat.mod_eq_of_lt (Register.value_lt r.register)] at hholds
      obtain ⟨s, hs, hend, hfinal⟩ := ih hholds (index + 1) (by omega) (by omega)
      refine ⟨s, ?_, by omega, ?_⟩
      · have hwidth : ReadableField.width r = r.width := rfl
        rw [Packing.moveFields, hwidth, hq]
        simp only [hs]
      · rw [pow_add, concatenation, ← Nat.mul_assoc, ← Nat.add_assoc, ← Nat.add_mul]
        exact hfinal

end Packing

theorem pack_of_moveFields {φ : Type} [ReadableField φ] {wire : Array Byte} {fields after : List φ}
    {outcome : Outcome Unit} {q : Packing} (hcount : bitCount fields = 8 * wire.size)
    (hindex : 8 * wire.size < limit indexBits)
    (h : Packing.moveFields 0 fields (.start wire fields.length) = (outcome, after, q)) :
    pack wire fields = ⟨outcome, q.wire, after, q.events⟩ := by
  rw [pack, checkCapacity_of_eq hcount hindex]
  simp only [h]

theorem pack_of_bitCount_eq (wire : Array Byte) (fields : List AnyRegister)
    (hcount : bitCount fields = 8 * wire.size) (hindex : 8 * wire.size < limit indexBits) :
    (pack wire fields).outcome = .ok () ∧ (pack wire fields).fields = fields ∧
      (pack wire fields).wire.size = wire.size ∧
      value (pack wire fields).wire = concatenation fields := by
  obtain ⟨q, hq, hposition, hholds⟩ := (Packing.holds_start wire fields.length).moveFields 0 fields
    (by omega) (by rw [hcount]; exact Nat.le_of_eq (Nat.zero_add _))
  have hfull : q.position = 8 * wire.size := by
    rw [hposition, hcount]
    exact Nat.zero_add _
  rw [pack_of_moveFields hcount hindex hq]
  refine ⟨rfl, rfl, hholds.size_eq, ?_⟩
  rw [hholds.value_eq hfull, Nat.zero_mul, Nat.zero_add]

/-- Fields that do not fill a wire are refused before any request, and the wire stays as it was. -/
theorem pack_refuses {φ : Type} [ReadableField φ] (wire : Array Byte) (fields : List φ)
    (hcount : bitCount fields ≠ 8 * wire.size) (hfields : bitCount fields < limit indexBits) :
    ∃ e, pack wire fields = ⟨.error e, wire, fields, []⟩ := by
  obtain ⟨e, he⟩ := checkCapacity_refuses hcount hfields
  exact ⟨e, by rw [pack, he]⟩

theorem pack_of_bitCount_ne {φ : Type} [ReadableField φ] (wire : Array Byte) (fields : List φ)
    (hcount : bitCount fields ≠ 8 * wire.size) (hfields : bitCount fields < limit indexBits)
    (hwire : 8 * wire.size < limit indexBits) :
    pack wire fields =
      ⟨refuse (.widthMismatch (bitCount fields) (8 * wire.size)), wire, fields, []⟩ := by
  rw [pack, checkCapacity_of_ne hcount hfields hwire]
  rfl

/-- Registers that fill a wire are packed into the number that their data bits write one after the
other; neither padding nor what the wire held before shows. Other registers are refused. -/
theorem pack_registers (wire : Array Byte) (fields : List AnyRegister)
    (hfields : bitCount fields < limit indexBits) (hwire : 8 * wire.size < limit indexBits) :
    (bitCount fields = 8 * wire.size →
      (pack wire fields).outcome = .ok () ∧ (pack wire fields).wire.size = wire.size ∧
      value (pack wire fields).wire =
        ∑ i : Fin fields.length, fields[i].register.value * 2 ^ bitCount (fields.drop (i + 1)) ∧
      ∀ (other : Array Byte) (others : List AnyRegister), other.size = wire.size →
        others.map (·.width) = fields.map (·.width) →
        others.map (·.register.value) = fields.map (·.register.value) →
        (pack other others).wire = (pack wire fields).wire) ∧
    (bitCount fields ≠ 8 * wire.size →
      (pack wire fields).outcome =
        refuse (.widthMismatch (bitCount fields) (8 * wire.size)) ∧
      (pack wire fields).wire = wire) := by
  constructor
  · intro hcount
    obtain ⟨houtcome, -, hsize, hvalue⟩ := pack_of_bitCount_eq wire fields hcount hwire
    refine ⟨houtcome, hsize, hvalue.trans (concatenation_eq_sum fields), ?_⟩
    intro other others hother hwidths hvalues
    have hothers := bitCount_eq_of_widths hwidths
    obtain ⟨-, -, hsize', hvalue'⟩ := pack_of_bitCount_eq other others
      (by rw [hothers, hcount, hother]) (by rwa [hother])
    apply value_injective
    · rw [hsize', hother, hsize]
    · rw [hvalue', hvalue, concatenation_congr hwidths hvalues]
  · intro hcount
    rw [pack_of_bitCount_ne wire fields hcount hfields hwire]
    exact ⟨rfl, rfl⟩

/-- Three registers of 3, 11 and 2 bits with their padding set: the second one lies across two bytes
of a wire and stores its low byte first. -/
def straddling : List AnyRegister :=
  [⟨.big, 3, ⟨⟨#[0xFD]⟩, rfl⟩⟩, ⟨.little, 11, ⟨⟨#[0x34, 0xFA]⟩, rfl⟩⟩, ⟨.big, 2, ⟨⟨#[0xFF]⟩, rfl⟩⟩]

theorem pack_registers_straddling :
    bitCount straddling = 8 * 2 ∧ (pack #[0x5A, 0xA5] straddling).outcome = .ok () ∧
      value (pack #[0x5A, 0xA5] straddling).wire = 5 * 2 ^ 13 + 0x234 * 2 ^ 2 + 3 := by
  obtain ⟨houtcome, -, hvalue, -⟩ :=
    (pack_registers #[0x5A, 0xA5] straddling (by decide) (by decide)).1 rfl
  exact ⟨rfl, houtcome, hvalue.trans (by decide)⟩

end Wire

end Bitfield
