import Bitfield.Layout
import Bitfield.Proofs.Wire.Requests

/-! Unpacking that is interrupted. The place of the first request that fails is a frontier: registers
before it hold their bits of the wire and the padding they had, the fields after the failing one are
as they were and were given nothing, and no register has a part of its bits only. -/

namespace Bitfield.Wire

theorem getLsbD_segmentBits (wire : Array Byte) {s : Segment} (hlength : s.chunk.length ≤ 8)
    (hroom : s.stop ≤ 8 * wire.size) {k : Nat} (hk : k < s.chunk.length) :
    (segmentBits wire s).getLsbD (s.chunk.length - 1 - k) = bitAt wire (s.start + k) := by
  rw [← BitVec.testBit_toNat, toNat_segmentBits wire hlength, testBit_slice_bitAt wire hk hroom]

/-- A register at bit `start` of a wire that holds the bits of the wire in front of bit `place`, and
whose other bits, padding included, are as they were. -/
def DeliveredTo (wire : Array Byte) (start place : Nat) (r t : AnyRegister) : Prop :=
  ∃ s : Register r.order r.width, t = ⟨r.order, r.width, s⟩ ∧
    ∀ j, s.bytes.value.testBit j =
      if j < r.width ∧ start + r.width ≤ place + j then bitAt wire (start + r.width - 1 - j)
      else r.register.bytes.value.testBit j

namespace DeliveredTo

variable {wire : Array Byte} {start place place' : Nat} {r t : AnyRegister}

theorem self (wire : Array Byte) (r : AnyRegister) (h : place ≤ start) :
    DeliveredTo wire start place r r := by
  refine ⟨r.register, rfl, fun j => ?_⟩
  rw [if_neg (by omega)]

/-- Bits of the wire that are not those of the register make no difference to it. -/
theorem pass (h : DeliveredTo wire start place r t) (hle : place ≤ place')
    (hoff : start + r.width ≤ place ∨ place' ≤ start) : DeliveredTo wire start place' r t := by
  obtain ⟨s, rfl, hbits⟩ := h
  refine ⟨s, rfl, fun j => ?_⟩
  have hsame : (j < r.width ∧ start + r.width ≤ place' + j) ↔
      (j < r.width ∧ start + r.width ≤ place + j) := by omega
  simp only [hbits, hsame]

/-- A register in front of the place holds its interval of the wire. -/
theorem delivered (h : DeliveredTo wire start place r t) (hroom : start + r.width ≤ 8 * wire.size)
    (hplace : start + r.width ≤ place) : Delivered wire start r t := by
  obtain ⟨s, rfl, hbits⟩ := h
  refine ⟨s, rfl, ?_, ?_⟩
  · apply Nat.eq_of_testBit_eq
    intro j
    rw [Register.testBit_value, hbits]
    by_cases hj : j < r.width
    · have hk : r.width - 1 - j < r.width := by omega
      have hslice := testBit_slice_bitAt wire hk hroom
      have hback : r.width - 1 - (r.width - 1 - j) = j := by omega
      have hbit : start + (r.width - 1 - j) = start + r.width - 1 - j := by omega
      rw [hback, hbit] at hslice
      simp [hj, hslice, Nat.le_add_right_of_le hplace]
    · simp [hj, testBit_slice]
  · intro j hj
    rw [hbits, if_neg (by omega)]

/-- A register takes the bits of the segment that starts at the place. -/
theorem write (h : DeliveredTo wire start place r t) (hindex : r.width < limit indexBits)
    {s : Segment} (hplace : s.start = place) (hlow : start ≤ s.start)
    (hlength : s.chunk.length ≤ 8) (hroom : s.stop ≤ 8 * wire.size)
    (hend : s.stop + s.chunk.offset = start + r.width) :
    ∃ t', writeAnswer wire t s = (.ok (), t') ∧ DeliveredTo wire start s.stop r t' := by
  obtain ⟨x, rfl, hbits⟩ := h
  have hstop : s.stop = place + s.chunk.length := by rw [Segment.stop, hplace]
  have hwithin : s.chunk.offset + s.chunk.length ≤ r.width := by omega
  obtain ⟨y, hy, hwritten⟩ := AnyRegister.write_of_within ⟨r.order, r.width, x⟩ hindex
    (segmentBits wire s) hlength hwithin
  refine ⟨_, hy, y, rfl, fun j => ?_⟩
  rw [hwritten]
  simp only [hbits]
  by_cases hin : s.chunk.offset ≤ j ∧ j < s.chunk.offset + s.chunk.length
  · obtain ⟨k, hk, hj⟩ : ∃ k < s.chunk.length, j - s.chunk.offset = s.chunk.length - 1 - k :=
      ⟨s.chunk.length - 1 - (j - s.chunk.offset), by omega, by omega⟩
    have hbit : start + r.width - 1 - j = s.start + k := by omega
    rw [if_pos hin, if_pos (by omega), hj, hbit, getLsbD_segmentBits wire hlength hroom hk]
  · have hsame : (j < r.width ∧ start + r.width ≤ s.stop + j) ↔
        (j < r.width ∧ start + r.width ≤ place + j) := by omega
    simp only [if_neg hin, hsame]

end DeliveredTo

section Mixed

variable {ψ : Type} [WritableField ψ] {wire : Array Byte} {place : Nat}
  {fields now : List (AnyRegister ⊕ ψ)}

/-- Fields of which the registers hold the bits of a wire in front of bit `place`. -/
def AllDeliveredTo (wire : Array Byte) (place : Nat) (fields now : List (AnyRegister ⊕ ψ)) : Prop :=
  ∀ i r, fields[i]? = some (.inl r) →
    ∃ t, now[i]? = some (.inl t) ∧ DeliveredTo wire (bitCount (fields.take i)) place r t

theorem bitCount_take (fields : List (AnyRegister ⊕ ψ)) (i : Nat) :
    bitCount (fields.take i) = ((fields.map ReadableField.width).take i).sum := by
  rw [bitCount_eq_sum, List.map_take]

theorem bitCount_take_succ {i : Nat} {r : AnyRegister} (h : fields[i]? = some (.inl r)) :
    bitCount (fields.take (i + 1)) = bitCount (fields.take i) + r.width := by
  obtain ⟨hlt, hget⟩ := List.getElem?_eq_some_iff.1 h
  have hwidth : ReadableField.width (Sum.inl r : AnyRegister ⊕ ψ) = r.width := rfl
  rw [bitCount_eq_sum, bitCount_eq_sum, List.take_succ_eq_append_getElem hlt, hget, List.map_append,
    List.sum_append, List.map_singleton, List.sum_singleton, hwidth]

theorem bitCount_take_mono (fields : List (AnyRegister ⊕ ψ)) {i j : Nat} (h : i ≤ j) :
    bitCount (fields.take i) ≤ bitCount (fields.take j) := by
  rw [bitCount_take, bitCount_take]
  exact List.monotone_sum_take _ h

theorem allDeliveredTo_zero (wire : Array Byte) (fields : List (AnyRegister ⊕ ψ)) :
    AllDeliveredTo wire 0 fields fields :=
  fun _ r hi => ⟨r, hi, .self wire r (Nat.zero_le _)⟩

variable (hcount : bitCount fields = 8 * wire.size) (hindex : 8 * wire.size < limit indexBits)

include hcount hindex

/-- A register that is given its next segment takes it. -/
theorem writeAnswer_register {i : Nat} {r t : AnyRegister} (hi : fields[i]? = some (.inl r))
    (h : DeliveredTo wire (bitCount (fields.take i)) place r t) {s : Segment}
    (hs : s ∈ segments (fields.map ReadableField.width)) (hplace : s.start = place)
    (hfield : s.field = i) :
    ∃ t', writeAnswer wire (.inl t : AnyRegister ⊕ ψ) s = (.ok (), .inl t') ∧
      DeliveredTo wire (bitCount (fields.take i)) s.stop r t' := by
  obtain ⟨hlow, hend⟩ := bounds_of_mem_segments hs
  obtain ⟨-, -, hlength, hstop⟩ := mem_segments hs
  have hwidth := bitCount_take_succ hi
  have htotal : bitCount (fields.take (i + 1)) ≤ bitCount fields := by
    have := bitCount_take_mono fields (Nat.succ_le_of_lt (List.getElem?_eq_some_iff.1 hi).1)
    rwa [List.take_length] at this
  rw [hfield, ← bitCount_take] at hlow
  rw [hfield, ← bitCount_take, hwidth] at hend
  rw [← bitCount_eq_sum, hcount] at hstop
  obtain ⟨t', hwrite, hafter⟩ := h.write (by omega) hplace hlow hlength hstop hend
  exact ⟨t', congrArg (fun result => (result.1, Sum.inl result.2)) hwrite, hafter⟩

/-- The segment that starts at the place moves it on to its end. -/
theorem AllDeliveredTo.step (h : AllDeliveredTo wire place fields now) {s : Segment}
    (hs : s ∈ segments (fields.map ReadableField.width)) (hplace : s.start = place) :
    AllDeliveredTo wire s.stop fields (fieldsAfter (writeAnswer wire) now [s]) := by
  intro i r hi
  obtain ⟨t, ht, hdelivered⟩ := h i r hi
  by_cases hfield : s.field = i
  · obtain ⟨t', hanswer, hafter⟩ := writeAnswer_register hcount hindex hi hdelivered hs hplace hfield
    rw [← hfield] at ht
    refine ⟨t', ?_, hafter⟩
    rw [fieldsAfter_singleton _ ht, hanswer, hfield]
    exact List.getElem?_set_self (hfield ▸ (List.getElem?_eq_some_iff.1 ht).1)
  · obtain ⟨hlow, hend⟩ := bounds_of_mem_segments hs
    rw [← bitCount_take] at hlow hend
    have honly : ∀ x ∈ [s], x.field ≠ i := by simpa using hfield
    have hother := getElem?_fieldsAfter_of_ne (writeAnswer wire) now honly
    have happart : bitCount (fields.take i) + r.width ≤ place ∨
        s.stop ≤ bitCount (fields.take i) := by
      rw [← bitCount_take_succ hi]
      rcases Nat.lt_or_gt_of_ne hfield with hlt | hgt
      · have hle : s.field + 1 ≤ i := hlt
        have := bitCount_take_mono fields hle
        omega
      · have hle : i + 1 ≤ s.field := hgt
        have := bitCount_take_mono fields hle
        omega
    exact ⟨t, hother.trans ht, hdelivered.pass (hplace ▸ Nat.le_add_right _ _) happart⟩

/-- Once the segments before one of them are given, the place is where that one starts. -/
theorem AllDeliveredTo.take {finish : Nat} {list : List Segment}
    (hlist : ∀ s ∈ list, s ∈ segments (fields.map ReadableField.width))
    (htiles : Tiles place finish list) (h : AllDeliveredTo wire place fields now) {count : Nat}
    {s : Segment} (hget : list[count]? = some s) :
    AllDeliveredTo wire s.start fields (fieldsAfter (writeAnswer wire) now (list.take count)) := by
  induction count generalizing list now place with
  | zero =>
      cases list with
      | nil => cases hget
      | cons t rest =>
          cases hget
          rw [htiles.1]
          exact h
  | succ count ih =>
      cases list with
      | nil => cases hget
      | cons t rest =>
          obtain ⟨hstart, -, -, hrest⟩ := htiles
          exact ih (fun x hx => hlist x (List.mem_cons_of_mem t hx)) hrest
            (h.step hcount hindex (hlist t List.mem_cons_self) hstart) hget

/-- A request that fails was made to a field that is no register. -/
theorem not_register_of_failsAt {count : Nat} {s : Segment} {e : Failure}
    (hget : (segments (fields.map ReadableField.width))[count]? = some s)
    (hfails : FailsAt (writeAnswer wire) fields (segments (fields.map ReadableField.width)) count e)
    (r : AnyRegister) : fields[s.field]? ≠ some (.inl r) := by
  intro hi
  have htiles := tiles_segments (fields.map ReadableField.width)
  obtain ⟨t, ht, hdelivered⟩ :=
    (allDeliveredTo_zero wire fields).take hcount hindex (fun _ => id) htiles hget s.field r hi
  obtain ⟨t', hanswer, -⟩ := writeAnswer_register hcount hindex hi hdelivered
    (List.mem_of_getElem? hget) rfl rfl
  have hfailed := hfails.2
  rw [replyAt, hget, Option.bind_some, replyTo_of_getElem? _ ht, hanswer] at hfailed
  cases hfailed

end Mixed

/-- The first request that fails ends unpacking with its error, and no later field is given anything.
Registers in front of its place hold their interval of the wire and keep their padding, and the fields
after the failing one, which is no register, are as they were. Fields that do not take up the wire are
given nothing and stay as they were, and are refused for the mismatch if the bits of the wire can be
counted. -/
theorem unpack_interrupted {ψ : Type} [WritableField ψ] (wire : Array Byte)
    (fields : List (AnyRegister ⊕ ψ)) (hfields : bitCount fields < limit indexBits) :
    (bitCount fields = 8 * wire.size → ∀ (count : Nat) (s : Segment) (e : Failure),
      (segments (fields.map ReadableField.width))[count]? = some s →
      FailsAt (writeAnswer wire) fields (segments (fields.map ReadableField.width)) count e →
      (unpack wire fields).outcome = .error e ∧
      (∀ (i : Nat) (r : AnyRegister), fields[i]? = some (.inl r) →
        bitCount (fields.take i) + r.width ≤ s.start →
        ∃ t : Register r.order r.width,
          (unpack wire fields).fields[i]? = some (.inl ⟨r.order, r.width, t⟩) ∧
          t.value = slice wire (bitCount (fields.take i)) r.width ∧
          ∀ j ≥ r.width, t.bytes.value.testBit j = r.register.bytes.value.testBit j) ∧
      (∀ i > s.field, (unpack wire fields).fields[i]? = fields[i]?) ∧
      (∀ r, fields[s.field]? ≠ some (.inl r)) ∧
      (unpack wire fields).requests =
        ((segments (fields.map ReadableField.width)).take (count + 1)).map (writeRequest wire) ∧
      ∀ t ∈ (segments (fields.map ReadableField.width)).take (count + 1), t.field ≤ s.field) ∧
    (bitCount fields ≠ 8 * wire.size →
      (∃ e, unpack wire fields = ⟨.error e, wire, fields, []⟩) ∧
      (8 * wire.size < limit indexBits → unpack wire fields =
        ⟨refuse (.widthMismatch (bitCount fields) (8 * wire.size)), wire, fields, []⟩)) := by
  refine ⟨fun hcount count s e hget hfails => ?_, fun hcount =>
    ⟨unpack_refuses wire fields hcount hfields, unpack_of_bitCount_ne wire fields hcount hfields⟩⟩
  have hwire : 8 * wire.size < limit indexBits := hcount ▸ hfields
  have htiles := tiles_segments (fields.map ReadableField.width)
  obtain ⟨houtcome, hrequests, hafter⟩ :=
    (unpack_follows wire fields hcount hwire).of_failed count hfails.1 hfails.2
  have hregister := not_register_of_failsAt hcount hwire hget hfails
  refine ⟨houtcome, ?_, ?_, hregister, hrequests, fun t => field_le_of_mem_take hget⟩
  · intro i r hi hplace
    obtain ⟨t, ht, hdelivered⟩ :=
      (allDeliveredTo_zero wire fields).take hcount hwire (fun _ => id) htiles hget i r hi
    have hother : ∀ x ∈ [s], x.field ≠ i := by
      rintro x hx rfl
      rw [List.mem_singleton.1 hx] at hi
      exact hregister r hi
    have hroom : bitCount (fields.take i) + r.width ≤ 8 * wire.size := by
      have hstop := (mem_segments (List.mem_of_getElem? hget)).2.2.2
      rw [← bitCount_eq_sum, hcount, Segment.stop] at hstop
      omega
    obtain ⟨x, rfl, hvalue, hpadding⟩ := hdelivered.delivered hroom hplace
    refine ⟨x, ?_, hvalue, hpadding⟩
    rw [hafter, fieldsAfter_take_succ _ _ hget, getElem?_fieldsAfter_of_ne _ _ hother, ht]
  · intro i hi
    rw [hafter]
    apply getElem?_fieldsAfter_of_ne
    intro t ht
    have := field_le_of_mem_take hget ht
    omega

/-- A probe of 12 bits that refuses what lies below bit `failBelow`, between registers of 7 and 5 bits
with their padding set. -/
def flanked (failBelow : Nat) : List Slot :=
  [.inl ⟨.little, 7, ⟨⟨#[0x80]⟩, rfl⟩⟩, .inr ⟨12, 0x00, failBelow, []⟩,
    .inl ⟨.big, 5, ⟨⟨#[0xE3]⟩, rfl⟩⟩]

theorem unpack_interrupted_flanked :
    bitCount (flanked 2) < limit indexBits ∧
      8 * (#[0xA5, 0x3C] : Array Byte).size < limit indexBits ∧
      bitCount (flanked 2) = 8 * (#[0xA5, 0x3C, 0x7E] : Array Byte).size ∧
      (segments [7, 12, 5])[3]? = some ⟨1, 16, ⟨3, 0⟩⟩ ∧
      (unpack #[0xA5, 0x3C, 0x7E] (flanked 2)).outcome = refuse (.intervalOutOfRange 3 0 12) ∧
      (∃ t : Register .little 7,
        (unpack #[0xA5, 0x3C, 0x7E] (flanked 2)).fields[0]? = some (.inl ⟨.little, 7, t⟩) ∧
        t.value = 0x52 ∧ t.bytes.value.testBit 7 = true) ∧
      (unpack #[0xA5, 0x3C, 0x7E] (flanked 2)).fields[2]? = (flanked 2)[2]? ∧
      unpack #[0xA5, 0x3C] (flanked 2) =
        ⟨refuse (.widthMismatch 24 16), #[0xA5, 0x3C], flanked 2, []⟩ := by
  have hsegments : segments [7, 12, 5] =
      [⟨0, 0, ⟨7, 0⟩⟩, ⟨1, 7, ⟨1, 11⟩⟩, ⟨1, 8, ⟨8, 3⟩⟩, ⟨1, 16, ⟨3, 0⟩⟩, ⟨2, 19, ⟨5, 0⟩⟩] := by
    decide
  have hthird : (segments [7, 12, 5])[3]? = some ⟨1, 16, ⟨3, 0⟩⟩ := by rw [hsegments]; rfl
  have hfails : FailsAt (writeAnswer #[0xA5, 0x3C, 0x7E]) (flanked 2) (segments [7, 12, 5]) 3
      (.refused (.intervalOutOfRange 3 0 12)) := by
    rw [hsegments]
    exact ⟨fun
      | 0, _ => ⟨_, rfl⟩
      | 1, _ => ⟨_, rfl⟩
      | 2, _ => ⟨_, rfl⟩, rfl⟩
  obtain ⟨hinterrupted, -⟩ := unpack_interrupted #[0xA5, 0x3C, 0x7E] (flanked 2) (by decide)
  obtain ⟨houtcome, hbefore, hafter, -⟩ := hinterrupted rfl 3 _ _ hthird hfails
  obtain ⟨-, hmismatch⟩ := unpack_interrupted #[0xA5, 0x3C] (flanked 2) (by decide)
  obtain ⟨t, ht, hvalue, hpadding⟩ := hbefore 0 _ rfl (by decide)
  refine ⟨by decide, by decide, rfl, hthird, houtcome, ⟨t, ht, ?_, ?_⟩, hafter 2 (by decide),
    (hmismatch (by decide)).2 (by decide)⟩
  · rw [hvalue]
    decide
  · rw [hpadding 7 (by decide)]
    decide

end Bitfield.Wire
