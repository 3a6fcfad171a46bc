import Bitfield.Proofs.Wire.Filling
import Bitfield.Wire.Unpacking

/-! Unpacking into registers. A chunk carries the bits of the wire at its place, and a register that
is given its chunks from the top down holds the bits of the wire from its start on, with its padding
as it was. Packing and unpacking are therefore inverse to each other, whatever the widths, the byte
orders and the former contents. -/

namespace Bitfield

/-- A register takes a chunk into the bits of its interval and into no others. -/
theorem AnyRegister.write_of_within (r : AnyRegister) (hindex : r.width < limit indexBits)
    {length offset : Nat} (bits : Byte) (hlength : length ≤ 8) (hend : offset + length ≤ r.width) :
    ∃ s : Register r.order r.width,
      WritableField.write r ⟨length, offset⟩ bits = (.ok (), ⟨r.order, r.width, s⟩) ∧
      ∀ j, s.bytes.value.testBit j =
        if offset ≤ j ∧ j < offset + length then bits.getLsbD (j - offset)
        else r.register.bytes.value.testBit j := by
  obtain ⟨s, hs, hbits⟩ := Register.writeBits_of_within r.register bits hlength ⟨by omega, hend⟩
  have hwrite : WritableField.write r.register ⟨length, offset⟩ bits = (.ok (), s) := by
    simp only [WritableField.write, hs]
  exact ⟨s, congrArg (fun result => (result.1, AnyRegister.mk r.order r.width result.2)) hwrite,
    hbits⟩

namespace Wire

namespace Unpacking

@[simp] theorem wire_give (u : Unpacking) (field : Nat) (chunk : Chunk) (bits : Byte) :
    (u.give field chunk bits).wire = u.wire := rfl

@[simp] theorem position_give (u : Unpacking) (field : Nat) (chunk : Chunk) (bits : Byte) :
    (u.give field chunk bits).position = u.position := rfl

@[simp] theorem wire_advance (u : Unpacking) (length : Nat) :
    (u.advance length).wire = u.wire := rfl

@[simp] theorem position_advance (u : Unpacking) (length : Nat) :
    (u.advance length).position = u.position + length := rfl

/-- The next bits of a wire, while they lie in one byte, are those of the number it holds. -/
theorem peek_of_within (u : Unpacking) {length : Nat} (hpos : 0 < length)
    (hlength : u.position % 8 + length ≤ 8) (hroom : u.position + length ≤ 8 * u.wire.size) :
    ∃ x, u.peek length = .ok x ∧ x.toNat = slice u.wire u.position length := by
  have hindex : u.position / 8 < u.wire.size := by omega
  have hsum : 8 - length + length + 0 = 8 := by omega
  obtain ⟨mask, hmask, hbits⟩ := Word.intervalMask_of_sum hsum (by decide)
  refine ⟨u.wire[u.position / 8] >>> (8 - u.position % 8 - length) &&& mask, ?_, ?_⟩
  · rw [peek, Checked.sub_of_le (by omega), Outcome.ok_bind, hmask, Outcome.ok_bind,
      Array.getElem?_eq_getElem hindex]
    simp only
    rw [Checked.sub_of_le (by omega), Outcome.ok_bind, Checked.shiftRight_of_lt _ (by omega),
      Outcome.ok_bind]
  · apply Nat.eq_of_testBit_eq
    intro j
    rw [BitVec.testBit_toNat, testBit_slice, BitVec.getLsbD_and, BitVec.getLsbD_ushiftRight, hbits]
    by_cases hj : j < length
    · have hbyte : 8 - u.position % 8 - length + j < 8 := by omega
      have hplace : 8 * (u.wire.size - 1 - u.position / 8) + (8 - u.position % 8 - length + j) =
          8 * u.wire.size - (u.position + length) + j := by
        omega
      rw [← testBit_value u.wire hindex hbyte, hplace]
      simp [hj]
    · simp [hj]

theorem moveChunks_cons_of_ok {φ : Type} [WritableField φ] {index : Nat} {chunk : Chunk}
    {field after : φ} {u : Unpacking} {bits : Byte} (rest : List Chunk)
    (hpeek : u.peek chunk.length = .ok bits)
    (hwrite : WritableField.write field chunk bits = (.ok (), after)) :
    moveChunks index (chunk :: rest) field u =
      moveChunks index rest after ((u.give index chunk bits).advance chunk.length) := by
  rw [moveChunks, hpeek]
  simp only [hwrite]

/-- The lowest `remaining` bits of a register become the next bits of the wire; the bits above them
stay as they were. -/
theorem moveChunks_register (index : Nat) (r : AnyRegister) (hindex : r.width < limit indexBits)
    (u : Unpacking) {remaining : Nat} (hwidth : remaining ≤ r.width)
    (hroom : u.position + remaining ≤ 8 * u.wire.size) :
    ∃ (s : Register r.order r.width) (v : Unpacking),
      moveChunks index (chunks u.position remaining) r u = (.ok (), ⟨r.order, r.width, s⟩, v) ∧
      v.position = u.position + remaining ∧ v.wire = u.wire ∧
      ∀ j, s.bytes.value.testBit j =
        if j < remaining then (slice u.wire u.position remaining).testBit j
        else r.register.bytes.value.testBit j := by
  induction remaining using Nat.strongRecOn generalizing r u with
  | ind remaining ih =>
      rcases Nat.eq_zero_or_pos remaining with rfl | hpos
      · exact ⟨r.register, u, by rw [chunks_zero, moveChunks], rfl, rfl, fun j => by simp⟩
      · rw [chunks_of_pos _ hpos]
        generalize htake : min (8 - u.position % 8) remaining = take
        have hsum : take + (remaining - take) = remaining := by omega
        have hpos' : 0 < take := by omega
        have hlength : take ≤ 8 := by omega
        have hend : remaining - take + take ≤ r.width := by omega
        have hwidth' : remaining - take ≤ r.width := by omega
        obtain ⟨x, hx, hvalue⟩ := u.peek_of_within hpos' (by omega) (by omega)
        obtain ⟨s, hs, hbits⟩ := r.write_of_within hindex x hlength hend
        obtain ⟨t, v, ht, hposition, hwire, hrest⟩ := ih (remaining - take) (by omega)
          ⟨r.order, r.width, s⟩ hindex
          ((u.give index ⟨take, remaining - take⟩ x).advance take) hwidth'
          (by rw [position_advance, position_give, wire_advance, wire_give]; omega)
        rw [position_advance, position_give] at hposition
        rw [wire_advance, wire_give] at hwire
        refine ⟨t, v, ?_, by omega, hwire, ?_⟩
        · rw [moveChunks_cons_of_ok _ hx hs]
          exact ht
        · intro j
          have hroom' : u.position + (take + (remaining - take)) ≤ 8 * u.wire.size := by omega
          have hslice := slice_add u.wire hroom'
          rw [hsum] at hslice
          rw [hrest j, position_advance, position_give, wire_advance, wire_give, hslice, Nat.mul_comm,
            Nat.testBit_two_pow_mul_add _ (slice_lt _ _ _)]
          by_cases hlow : j < remaining - take
          · rw [if_pos hlow, if_pos (by omega), if_pos hlow]
          · rw [if_neg hlow, hbits j]
            by_cases hhigh : j < remaining
            · rw [if_pos (by omega), if_pos hhigh, if_neg hlow, ← hvalue, BitVec.testBit_toNat]
            · rw [if_neg (by omega), if_neg hhigh]

end Unpacking

/-- A register that has taken the bits of a wire from bit `start` on into its data bits and kept its
byte order, its width and its padding. -/
def Delivered (wire : Array Byte) (start : Nat) (r after : AnyRegister) : Prop :=
  ∃ s : Register r.order r.width, after = ⟨r.order, r.width, s⟩ ∧
    s.value = slice wire start r.width ∧
    ∀ j ≥ r.width, s.bytes.value.testBit j = r.register.bytes.value.testBit j

/-- Registers that have taken the bits of a wire from bit `start` on, one after the other. -/
inductive DeliveredAll (wire : Array Byte) : Nat → List AnyRegister → List AnyRegister → Prop where
  | nil {start : Nat} : DeliveredAll wire start [] []
  | cons {start : Nat} {r t : AnyRegister} {rest after : List AnyRegister} :
      Delivered wire start r t → DeliveredAll wire (start + r.width) rest after →
      DeliveredAll wire start (r :: rest) (t :: after)

namespace DeliveredAll

variable {wire : Array Byte} {start : Nat} {fields after : List AnyRegister}

theorem widths_eq (h : DeliveredAll wire start fields after) :
    after.map (·.width) = fields.map (·.width) := by
  induction h with
  | nil => rfl
  | cons hhead _ ih =>
      obtain ⟨s, rfl, -⟩ := hhead
      rw [List.map_cons, List.map_cons, ih]

/-- Together the registers hold the interval of the wire that they were given. -/
theorem concatenation_eq (h : DeliveredAll wire start fields after)
    (hroom : start + bitCount fields ≤ 8 * wire.size) :
    concatenation after = slice wire start (bitCount fields) := by
  induction h with
  | nil => exact (Nat.mod_one _).symm
  | @cons start r t rest after hhead htail ih =>
      have hcount : bitCount (r :: rest) = r.width + bitCount rest := rfl
      obtain ⟨s, rfl, hvalue, -⟩ := hhead
      rw [hcount] at hroom ⊢
      rw [concatenation, ih (by omega), hvalue, slice_add wire hroom,
        bitCount_eq_of_widths htail.widths_eq]

theorem getElem? (h : DeliveredAll wire start fields after) (i : Nat) (hi : i < fields.length) :
    ∃ t, after[i]? = some t ∧
      Delivered wire (start + bitCount (fields.take i)) fields[i] t := by
  induction h generalizing i with
  | nil => cases hi
  | @cons start r t rest after hhead htail ih =>
      cases i with
      | zero => exact ⟨t, rfl, hhead⟩
      | succ i =>
          obtain ⟨s, hs, hdelivered⟩ := ih i (Nat.lt_of_succ_lt_succ hi)
          refine ⟨s, hs, ?_⟩
          rw [Nat.add_assoc] at hdelivered
          exact hdelivered

end DeliveredAll

namespace Unpacking

theorem moveChunks_delivered (index : Nat) (r : AnyRegister) (hindex : r.width < limit indexBits)
    (u : Unpacking) (hroom : u.position + r.width ≤ 8 * u.wire.size) :
    ∃ t v, moveChunks index (chunks u.position r.width) r u = (.ok (), t, v) ∧
      v.position = u.position + r.width ∧ v.wire = u.wire ∧
      Delivered u.wire u.position r t := by
  obtain ⟨s, v, hs, hposition, hwire, hbits⟩ :=
    moveChunks_register index r hindex u (Nat.le_refl r.width) hroom
  refine ⟨_, v, hs, hposition, hwire, s, rfl, ?_, ?_⟩
  · apply Nat.eq_of_testBit_eq
    intro j
    rw [Register.testBit_value, hbits]
    by_cases hj : j < r.width
    · simp [hj]
    · simp [hj, testBit_slice]
  · intro j hj
    rw [hbits, if_neg (Nat.not_lt.2 hj)]

theorem moveFields_delivered (index : Nat) (fields : List AnyRegister)
    (hindex : bitCount fields < limit indexBits) (u : Unpacking)
    (hroom : u.position + bitCount fields ≤ 8 * u.wire.size) :
    ∃ after v, moveFields index fields u = (.ok (), after, v) ∧
      DeliveredAll u.wire u.position fields after := by
  induction fields generalizing u index with
  | nil => exact ⟨[], u, rfl, .nil⟩
  | cons r rest ih =>
      have hcount : bitCount (r :: rest) = r.width + bitCount rest := rfl
      have hwidth : ReadableField.width r = r.width := rfl
      rw [hcount] at hindex hroom
      obtain ⟨t, v, ht, hposition, hwire, hhead⟩ :=
        moveChunks_delivered index r (by omega) u (by omega)
      obtain ⟨after, w, hafter, htail⟩ := ih (index + 1) (by omega) v (by rw [hwire]; omega)
      rw [hwire, hposition] at htail
      refine ⟨t :: after, w, ?_, .cons hhead htail⟩
      rw [moveFields, hwidth, ht]
      simp only [hafter]

section Preserving

variable {φ : Type} [WritableField φ] {P : φ → Prop}
  (hwrite : ∀ field chunk bits, P field → P (WritableField.write field chunk bits).2)

include hwrite

/-- What every write of a chunk keeps of a field, a field that takes its chunks keeps. -/
theorem moveChunks_preserves (index : Nat) (pending : List Chunk) {field : φ} (u : Unpacking)
    (h : P field) : P (moveChunks index pending field u).2.1 := by
  induction pending generalizing field u with
  | nil => exact h
  | cons chunk rest ih =>
      rw [moveChunks]
      cases hpeek : u.peek chunk.length with
      | error e => exact h
      | ok bits =>
          have hafter := hwrite field chunk bits h
          cases hresult : WritableField.write field chunk bits with
          | mk outcome after =>
              rw [hresult] at hafter
              cases outcome with
              | error e => simpa only [hresult] using hafter
              | ok => simpa only [hresult] using ih _ hafter

/-- A field that has not been reached when an unpacking fails is as it was, and any other has only taken
chunks. -/
theorem moveFields_preserves (index : Nat) (fields : List φ) (u : Unpacking) {i : Nat} {field : φ}
    (hi : fields[i]? = some field) (h : P field) :
    ∃ after, (moveFields index fields u).2.1[i]? = some after ∧ P after := by
  induction fields generalizing index u i with
  | nil => cases hi
  | cons first rest ih =>
      have hfirst : P first → P (moveChunks index (chunks u.position (ReadableField.width first))
          first u).2.1 := moveChunks_preserves hwrite index _ u
      rw [moveFields]
      generalize moveChunks index (chunks u.position (ReadableField.width first)) first u = result
        at hfirst ⊢
      obtain ⟨outcome, after, v⟩ := result
      cases i with
      | zero =>
          cases hi
          cases outcome <;> exact ⟨after, rfl, hfirst h⟩
      | succ i =>
          cases outcome with
          | error e => exact ⟨field, hi, h⟩
          | ok => exact ih (index + 1) v hi

end Preserving

end Unpacking

theorem unpack_of_moveFields {φ : Type} [WritableField φ] {wire : Array Byte}
    {fields after : List φ} {outcome : Outcome Unit} {v : Unpacking}
    (hcount : bitCount fields = 8 * wire.size) (hindex : 8 * wire.size < limit indexBits)
    (h : Unpacking.moveFields 0 fields (.start wire fields.length) = (outcome, after, v)) :
    unpack wire fields = ⟨outcome, wire, after, v.events⟩ := by
  rw [unpack, checkCapacity_of_eq hcount hindex]
  simp only [h]

theorem unpack_of_bitCount_eq (wire : Array Byte) (fields : List AnyRegister)
    (hcount : bitCount fields = 8 * wire.size) (hindex : 8 * wire.size < limit indexBits) :
    (unpack wire fields).outcome = .ok () ∧
      DeliveredAll wire 0 fields (unpack wire fields).fields := by
  obtain ⟨after, v, hafter, hdelivered⟩ := Unpacking.moveFields_delivered 0 fields (by omega)
    (.start wire fields.length) (by rw [hcount]; exact Nat.le_of_eq (Nat.zero_add _))
  rw [unpack_of_moveFields hcount hindex hafter]
  exact ⟨rfl, hdelivered⟩

theorem unpack_refuses {φ : Type} [WritableField φ] (wire : Array Byte) (fields : List φ)
    (hcount : bitCount fields ≠ 8 * wire.size) (hfields : bitCount fields < limit indexBits) :
    ∃ e, unpack wire fields = ⟨.error e, wire, fields, []⟩ := by
  obtain ⟨e, he⟩ := checkCapacity_refuses hcount hfields
  exact ⟨e, by rw [unpack, he]⟩

theorem unpack_of_bitCount_ne {φ : Type} [WritableField φ] (wire : Array Byte) (fields : List φ)
    (hcount : bitCount fields ≠ 8 * wire.size) (hfields : bitCount fields < limit indexBits)
    (hwire : 8 * wire.size < limit indexBits) :
    unpack wire fields =
      ⟨refuse (.widthMismatch (bitCount fields) (8 * wire.size)), wire, fields, []⟩ := by
  rw [unpack, checkCapacity_of_ne hcount hfields hwire]
  rfl

/-- What every write of a chunk keeps of a field, an unpacking keeps of it, however it ends and whatever
the other fields are. -/
theorem unpack_preserves {φ : Type} [WritableField φ] {P : φ → Prop}
    (hwrite : ∀ field chunk bits, P field → P (WritableField.write field chunk bits).2)
    (wire : Array Byte) {fields : List φ} {i : Nat} {field : φ} (hi : fields[i]? = some field)
    (h : P field) : ∃ after, (unpack wire fields).fields[i]? = some after ∧ P after := by
  rw [unpack]
  split
  · exact ⟨field, hi, h⟩
  · exact Unpacking.moveFields_preserves hwrite 0 fields _ hi h

/-- Unpacking gives each register the bits of the wire at its place and keeps its padding; packing
the registers again restores the wire; and what was packed is unpacked into any registers of the same
widths. -/
theorem unpack_pack_registers (wire : Array Byte) (fields : List AnyRegister)
    (hcount : bitCount fields = 8 * wire.size) (hindex : 8 * wire.size < limit indexBits) :
    (unpack wire fields).outcome = .ok () ∧
    (unpack wire fields).fields.length = fields.length ∧
    (∀ i (hi : i < fields.length), ∃ s : Register fields[i].order fields[i].width,
      (unpack wire fields).fields[i]? = some ⟨fields[i].order, fields[i].width, s⟩ ∧
      (∀ k < fields[i].width, s.value.testBit (fields[i].width - 1 - k) =
        bitAt wire (bitCount (fields.take i) + k)) ∧
      ∀ j ≥ fields[i].width, s.bytes.value.testBit j = fields[i].register.bytes.value.testBit j) ∧
    (∀ target : Array Byte, target.size = wire.size →
      (pack target (unpack wire fields).fields).outcome = .ok () ∧
      (pack target (unpack wire fields).fields).wire = wire) ∧
    (∀ others : List AnyRegister, others.map (·.width) = fields.map (·.width) →
      (unpack (pack wire fields).wire others).outcome = .ok () ∧
      (unpack (pack wire fields).wire others).fields.map (·.register.value) =
        fields.map (·.register.value)) := by
  obtain ⟨houtcome, hdelivered⟩ := unpack_of_bitCount_eq wire fields hcount hindex
  have hwidths := hdelivered.widths_eq
  refine ⟨houtcome, ?_, ?_, ?_, ?_⟩
  · simpa only [List.length_map] using congrArg List.length hwidths
  · intro i hi
    obtain ⟨t, ht, s, rfl, hvalue, hpadding⟩ := hdelivered.getElem? i hi
    rw [Nat.zero_add] at hvalue
    refine ⟨s, ht, ?_, hpadding⟩
    intro k hk
    have hroom := bitCount_take_add_le hi
    rw [hcount] at hroom
    rw [hvalue, testBit_slice_bitAt wire hk hroom]
  · intro target htarget
    obtain ⟨hpacked, -, hsize, hvalue⟩ := pack_of_bitCount_eq target (unpack wire fields).fields
      (by rw [bitCount_eq_of_widths hwidths, hcount, htarget]) (by rwa [htarget])
    refine ⟨hpacked, value_injective (hsize.trans htarget) ?_⟩
    rw [hvalue, hdelivered.concatenation_eq (by omega), hcount, slice_zero_size]
  · intro others hothers
    obtain ⟨-, -, hsize, hvalue⟩ := pack_of_bitCount_eq wire fields hcount hindex
    have hcount' : bitCount others = 8 * (pack wire fields).wire.size := by
      rw [bitCount_eq_of_widths hothers, hcount, hsize]
    obtain ⟨houtcome', hdelivered'⟩ := unpack_of_bitCount_eq (pack wire fields).wire others hcount'
      (by rwa [hsize])
    refine ⟨houtcome', concatenation_injective (hdelivered'.widths_eq.trans hothers) ?_⟩
    rw [hdelivered'.concatenation_eq (by omega), hcount', slice_zero_size, hvalue]

theorem unpack_pack_registers_straddling :
    bitCount straddling = 8 * 2 ∧ (unpack #[0x5A, 0xA5] straddling).outcome = .ok () ∧
      (pack #[0, 0] (unpack #[0x5A, 0xA5] straddling).fields).wire = #[0x5A, 0xA5] := by
  obtain ⟨houtcome, -, -, hpack, -⟩ :=
    unpack_pack_registers #[0x5A, 0xA5] straddling rfl (by decide)
  exact ⟨rfl, houtcome, (hpack #[0, 0] rfl).2⟩

end Wire

end Bitfield
