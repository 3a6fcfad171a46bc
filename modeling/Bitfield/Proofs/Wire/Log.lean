import Bitfield.Proofs.Text.Numeral
import Bitfield.Proofs.Wire.Interruption

/-! What a transfer logs. The log of packing shows each byte that was stored, once and as it is on the
wire; that of unpacking counts the bytes whose bits were all delivered. Either has as many entries,
after the one of the start, as there are whole bytes in front of the place where the transfer ends. -/

namespace Bitfield.Wire

def packingEntry (fields bytes : Nat) : Log.Entry :=
  ⟨.debug, s!"Packing {fields} fields into {bytes} bytes"⟩

/-- The entry for a byte that was stored, with its eight binary digits. -/
def packedEntry (index : Nat) (x : Byte) : Log.Entry :=
  ⟨.trace, s!"Packed byte {index}: 0b" ++ Numeral.binary 8 x.toNat⟩

def unpackingEntry (bytes fields : Nat) : Log.Entry :=
  ⟨.debug, s!"Unpacking {bytes} bytes into {fields} fields"⟩

def consumedEntry (index : Nat) : Log.Entry :=
  ⟨.trace, s!"Consumed byte {index}"⟩

/-- What the steps of a transfer log. -/
def entries (events : List Event) : List Log.Entry :=
  events.filterMap Event.entry?

theorem entries_append (left right : List Event) :
    entries (left ++ right) = entries left ++ entries right :=
  List.filterMap_append

theorem entries_stored (index : Nat) (x : Byte) :
    entries [.stored index x] = [packedEntry index x] := by
  have hdigits : String.ofList x.binaryDigits = Numeral.binary 8 x.toNat := by
    rw [Byte.binaryDigits, ← Numeral.toList_binary, String.ofList_toList]
  rw [packedEntry, ← hdigits]
  rfl

namespace Packing

/-- After the first entry the log shows the bytes that are full. -/
def Logged (first : Log.Entry) (p : Packing) : Prop :=
  entries p.events = first :: (p.wire.toList.take (p.position / 8)).mapIdx packedEntry

theorem logged_start (wire : Array Byte) (fields : Nat) :
    Logged (packingEntry fields wire.size) (start wire fields) := by
  have hempty : (start wire fields).position / 8 = 0 := Nat.zero_div 8
  rw [Logged, hempty]
  rfl

theorem entries_ask (p : Packing) (field : Nat) (chunk : Chunk) :
    entries (p.ask field chunk).events = entries p.events := by
  rw [ask, entries_append]
  exact List.append_nil _

theorem Logged.ask {first : Log.Entry} {p : Packing} (h : Logged first p) (field : Nat)
    (chunk : Chunk) : Logged first (p.ask field chunk) :=
  (p.entries_ask field chunk).trans h

/-- A byte that gets full is logged after the bytes in front of it, which are not touched. -/
theorem Logged.accept {first : Log.Entry} {p q : Packing} (h : Logged first p) {length : Nat}
    {bits : Byte} (hpos : 0 < length) (hbyte : p.position % 8 + length ≤ 8)
    (hq : p.accept length bits = .ok q) : Logged first q := by
  obtain ⟨x, ⟨hindex, hfull, rfl⟩ | ⟨hroom, rfl⟩⟩ := accept_cases hq
  · have hnext : (p.position + length) / 8 = p.position / 8 + 1 := by omega
    have hlast : p.position / 8 < (p.wire.set (p.position / 8) x hindex).toList.length := by
      simpa using hindex
    have hbytes : (p.wire.set (p.position / 8) x hindex).toList.take (p.position / 8 + 1) =
        p.wire.toList.take (p.position / 8) ++ [x] := by
      rw [List.take_succ_eq_append_getElem hlast]
      simp [List.take_set_of_le]
    have hlength : (p.wire.toList.take (p.position / 8)).length = p.position / 8 :=
      List.length_take_of_le hindex.le
    rw [Logged]
    simp only [hnext]
    rw [hbytes, List.mapIdx_concat, hlength, entries_append, h, entries_stored]
    rfl
  · have hsame : (p.position + length) / 8 = p.position / 8 := by omega
    rw [Logged]
    simp only [hsame]
    exact h

variable {φ : Type} [ReadableField φ]

theorem requests_logged (size : Nat) (first : Log.Entry) :
    Requests (step (φ := φ)) position readAnswer readRequest
      (fun p => p.events.filter Event.isRequest)
      (fun p => p.wire.size = size ∧ Logged first p) size :=
  (requests_step size).and fun _ h hpos hbyte hstep => by
    obtain ⟨bits, hq⟩ := step_ok hstep
    exact (h.ask _ _).accept hpos hbyte hq

end Packing

namespace Unpacking

/-- After the first entry the log counts the bytes whose bits were all delivered. -/
def Logged (first : Log.Entry) (u : Unpacking) : Prop :=
  entries u.events = first :: (List.range (u.position / 8)).map consumedEntry

theorem logged_start (wire : Array Byte) (fields : Nat) :
    Logged (unpackingEntry wire.size fields) (start wire fields) := by
  have hempty : (start wire fields).position / 8 = 0 := Nat.zero_div 8
  rw [Logged, hempty]
  rfl

theorem entries_give (u : Unpacking) (field : Nat) (chunk : Chunk) (bits : Byte) :
    entries (u.give field chunk bits).events = entries u.events := by
  rw [give, entries_append]
  exact List.append_nil _

theorem Logged.give {first : Log.Entry} {u : Unpacking} (h : Logged first u) (field : Nat)
    (chunk : Chunk) (bits : Byte) : Logged first (u.give field chunk bits) :=
  (u.entries_give field chunk bits).trans h

theorem Logged.advance {first : Log.Entry} {u : Unpacking} (h : Logged first u) {length : Nat}
    (hpos : 0 < length) (hbyte : u.position % 8 + length ≤ 8) : Logged first (u.advance length) := by
  rw [Logged, position_advance]
  by_cases hfull : (u.position + length) % 8 = 0
  · have hnext : (u.position + length) / 8 = u.position / 8 + 1 := by omega
    rw [hnext, List.range_succ, List.map_append, Unpacking.advance, if_pos hfull, entries_append, h]
    rfl
  · have hsame : (u.position + length) / 8 = u.position / 8 := by omega
    rw [hsame, Unpacking.advance, if_neg hfull]
    exact h

variable {φ : Type} [WritableField φ]

theorem requests_logged (wire : Array Byte) (first : Log.Entry) :
    Requests (step (φ := φ)) position (writeAnswer wire) (writeRequest wire)
      (fun u => u.events.filter Event.isRequest)
      (fun u => u.wire = wire ∧ Logged first u) wire.size :=
  (requests_step wire).and fun _ h hpos hbyte hstep => by
    obtain ⟨bits, rfl⟩ := step_ok hstep
    exact (h.give _ _ bits).advance hpos hbyte

end Unpacking

section Ends

variable {φ : Type} {wire : Array Byte} {fields : List φ} {outcome : Outcome Unit}
  {done : List Segment} {place : Nat}

/-- Packing logs the bytes in front of the place where it ends. -/
theorem pack_of_endsAt [ReadableField φ] (hcount : bitCount fields = 8 * wire.size)
    (hindex : 8 * wire.size < limit indexBits)
    (h : EndsAt readAnswer (segments (fields.map ReadableField.width)) fields (8 * wire.size) outcome
      done place) :
    (pack wire fields).outcome = outcome ∧ (pack wire fields).log =
      packingEntry fields.length wire.size ::
        ((pack wire fields).wire.toList.take (place / 8)).mapIdx packedEntry := by
  obtain ⟨p, after, q, ⟨-, hlogged⟩, hplace, hkept, hvisit⟩ :=
    (Packing.requests_logged wire.size (packingEntry fields.length wire.size)).ends (Nat.le_refl _)
      (fun p => (p.wire, entries p.events))
      (fun hstep => by rw [Packing.step_error hstep, Packing.entries_ask, Packing.wire_ask])
      fields (.start wire fields.length) (tiles_of_bitCount hcount)
      ⟨rfl, Packing.logged_start wire fields.length⟩ h
  obtain ⟨hwire, hentries⟩ := Prod.mk.inj hkept
  rw [pack_of_visitSegments hcount hindex hvisit]
  refine ⟨rfl, ?_⟩
  rw [Run.log, hwire, ← hplace]
  exact hentries.trans hlogged

/-- Packing replaces the bytes in front of the place where it ends, whatever they were, and no
others. -/
theorem pack_wire_of_endsAt [ReadableField φ] (hcount : bitCount fields = 8 * wire.size)
    (hindex : 8 * wire.size < limit indexBits)
    (h : EndsAt readAnswer (segments (fields.map ReadableField.width)) fields (8 * wire.size) outcome
      done place) {other : Array Byte} (hother : other.size = wire.size) :
    (pack wire fields).wire.size = wire.size ∧
      (∀ b < place / 8, (pack wire fields).wire[b]? = (pack other fields).wire[b]?) ∧
      ∀ b ≥ place / 8, (pack wire fields).wire[b]? = wire[b]? := by
  have hcount' : bitCount fields = 8 * other.size := by rw [hcount, hother]
  have hindex' : 8 * other.size < limit indexBits := by rwa [hother]
  cases h with
  | complete hall =>
      obtain ⟨replies, hlength, hanswers⟩ := exists_answers hall
      obtain ⟨-, hsize, hbytes⟩ := pack_of_all_answers hcount hindex rfl hanswers hlength
      obtain ⟨-, -, hbytes'⟩ := pack_of_all_answers hcount' hindex' rfl hanswers hlength
      refine ⟨hsize, fun b hb => ?_, fun b hb => ?_⟩
      · rw [hbytes b (by omega), hbytes' b (by omega)]
      · rw [Array.getElem?_eq_none (by omega), Array.getElem?_eq_none (by omega)]
  | stopped count hget hfails =>
      obtain ⟨replies, rfl, hanswers⟩ := exists_answers hfails.1
      obtain ⟨-, hsize, hfull, huntouched⟩ :=
        pack_of_failed hcount hindex rfl hanswers hget hfails.2
      obtain ⟨-, -, hfull', -⟩ := pack_of_failed hcount' hindex' rfl hanswers hget hfails.2
      exact ⟨hsize, fun b hb => (hfull b hb).trans (hfull' b hb).symm, huntouched⟩

theorem unpack_of_endsAt [WritableField φ] (hcount : bitCount fields = 8 * wire.size)
    (hindex : 8 * wire.size < limit indexBits)
    (h : EndsAt (writeAnswer wire) (segments (fields.map ReadableField.width)) fields (8 * wire.size)
      outcome done place) :
    (unpack wire fields).outcome = outcome ∧ (unpack wire fields).log =
      unpackingEntry wire.size fields.length :: (List.range (place / 8)).map consumedEntry := by
  obtain ⟨u, after, v, ⟨-, hlogged⟩, hplace, hkept, hvisit⟩ :=
    (Unpacking.requests_logged wire (unpackingEntry wire.size fields.length)).ends (Nat.le_refl _)
      (fun u => entries u.events)
      (fun hstep => by
        obtain rfl | ⟨bits, rfl⟩ := Unpacking.step_error hstep
        · rfl
        · exact Unpacking.entries_give _ _ _ _)
      fields (.start wire fields.length) (tiles_of_bitCount hcount)
      ⟨rfl, Unpacking.logged_start wire fields.length⟩ h
  rw [unpack_of_visitSegments hcount hindex hvisit]
  refine ⟨rfl, ?_⟩
  rw [Run.log, ← hplace]
  exact hkept.trans hlogged

end Ends

/-- The log reports what was done. Fields that do not take up the wire leave it empty. After the entry
of the start, packing logs one byte after the other as it is on the wire, and these are the bytes it
has written; unpacking counts the bytes whose bits were all delivered. Both do so up to the place of
the first request that fails, or up to the end of the wire. -/
theorem transfer_logged {φ ψ : Type} [ReadableField φ] [WritableField ψ] (wire : Array Byte)
    (sources : List φ) (targets : List ψ) (hsources : bitCount sources < limit indexBits)
    (htargets : bitCount targets < limit indexBits) :
    (bitCount sources ≠ 8 * wire.size → (pack wire sources).log = []) ∧
    (bitCount targets ≠ 8 * wire.size → (unpack wire targets).log = []) ∧
    (bitCount sources = 8 * wire.size →
      (∃ done place, EndsAt readAnswer (segments (sources.map ReadableField.width)) sources
        (8 * wire.size) (pack wire sources).outcome done place) ∧
      ∀ outcome done place, EndsAt readAnswer (segments (sources.map ReadableField.width)) sources
          (8 * wire.size) outcome done place →
        (pack wire sources).outcome = outcome ∧ (pack wire sources).log =
          packingEntry sources.length wire.size ::
            ((pack wire sources).wire.toList.take (place / 8)).mapIdx packedEntry ∧
        place / 8 ≤ wire.size ∧ (pack wire sources).wire.size = wire.size ∧
        (∀ other : Array Byte, other.size = wire.size →
          ∀ b < place / 8, (pack wire sources).wire[b]? = (pack other sources).wire[b]?) ∧
        ∀ b ≥ place / 8, (pack wire sources).wire[b]? = wire[b]?) ∧
    (bitCount targets = 8 * wire.size →
      (∃ done place, EndsAt (writeAnswer wire) (segments (targets.map ReadableField.width)) targets
        (8 * wire.size) (unpack wire targets).outcome done place) ∧
      ∀ outcome done place, EndsAt (writeAnswer wire) (segments (targets.map ReadableField.width))
          targets (8 * wire.size) outcome done place →
        (unpack wire targets).outcome = outcome ∧ (unpack wire targets).log =
          unpackingEntry wire.size targets.length :: (List.range (place / 8)).map consumedEntry ∧
        ∀ b, b < place / 8 ↔ ∀ k < 8, ∃ s ∈ done, s.start ≤ 8 * b + k ∧ 8 * b + k < s.stop) := by
  refine ⟨fun hcount => ?_, fun hcount => ?_, fun hcount => ⟨?_, ?_⟩, fun hcount => ⟨?_, ?_⟩⟩
  · obtain ⟨e, he⟩ := pack_refuses wire sources hcount hsources
    rw [he]
    rfl
  · obtain ⟨e, he⟩ := unpack_refuses wire targets hcount htargets
    rw [he]
    rfl
  · exact (pack_follows wire sources hcount (hcount ▸ hsources)).exists_endsAt _
  · intro outcome done place h
    have hindex : 8 * wire.size < limit indexBits := hcount ▸ hsources
    obtain ⟨houtcome, hlog⟩ := pack_of_endsAt hcount hindex h
    obtain ⟨hsize, -, huntouched⟩ := pack_wire_of_endsAt hcount hindex h rfl
    have hplace := h.place_le (tiles_of_bitCount hcount)
    exact ⟨houtcome, hlog, by omega, hsize,
      fun other hother => (pack_wire_of_endsAt hcount hindex h hother).2.1, huntouched⟩
  · exact (unpack_follows wire targets hcount (hcount ▸ htargets)).exists_endsAt _
  · intro outcome done place h
    obtain ⟨houtcome, hlog⟩ := unpack_of_endsAt hcount (hcount ▸ htargets) h
    refine ⟨houtcome, hlog, fun b => ?_⟩
    have hcovers := (h.tiles (tiles_of_bitCount hcount)).covers
    simp only [hcovers]
    constructor
    · intro hb k hk
      omega
    · intro hall
      have hlastBit := hall 7 (by decide)
      omega

/-- Packing stops at bit 12, so that one byte is logged; unpacking gets through. -/
theorem transfer_logged_guarded :
    bitCount (guarded 9) = 8 * (#[0x11, 0x22, 0x33] : Array Byte).size ∧
      (pack #[0x11, 0x22, 0x33] (guarded 9)).outcome = refuse (.intervalOutOfRange 4 8 12) ∧
      (pack #[0x11, 0x22, 0x33] (guarded 9)).log =
        [⟨.debug, "Packing 3 fields into 3 bytes"⟩, ⟨.trace, "Packed byte 0: 0b10110101"⟩] ∧
      (unpack #[0x11, 0x22, 0x33] (guarded 0)).outcome = .ok () ∧
      (unpack #[0x11, 0x22, 0x33] (guarded 0)).log =
        [⟨.debug, "Unpacking 3 bytes into 3 fields"⟩, ⟨.trace, "Consumed byte 0"⟩,
          ⟨.trace, "Consumed byte 1"⟩, ⟨.trace, "Consumed byte 2"⟩] ∧
      (pack #[0x11, 0x22] (guarded 9)).log = [] := by
  have hwidths : ∀ failBelow, (guarded failBelow).map ReadableField.width = [5, 7, 12] :=
    fun _ => rfl
  have hsegments : segments [5, 7, 12] =
      [⟨0, 0, ⟨5, 0⟩⟩, ⟨1, 5, ⟨3, 4⟩⟩, ⟨1, 8, ⟨4, 0⟩⟩, ⟨2, 12, ⟨4, 8⟩⟩, ⟨2, 16, ⟨8, 0⟩⟩] := by
    decide
  have hthird : (segments [5, 7, 12])[3]? = some ⟨2, 12, ⟨4, 8⟩⟩ := by rw [hsegments]; rfl
  have hcount : bitCount (guarded 9) = 8 * (#[0x11, 0x22, 0x33] : Array Byte).size := rfl
  have hanswers : Answers (guarded 9) (segments [5, 7, 12]) [0x16, 0x05, 0x0C] := by
    rw [hsegments]
    exact fun
      | 0, _ => rfl
      | 1, _ => rfl
      | 2, _ => rfl
  have hfails : FailsAt readAnswer (guarded 9) (segments [5, 7, 12]) 3
      (.refused (.intervalOutOfRange 4 8 12)) :=
    ⟨fun i hi => ⟨_, hanswers i hi⟩, by rw [hsegments]; rfl⟩
  have hall : ∀ i < (segments [5, 7, 12]).length, ∃ a,
      replyAt (writeAnswer #[0x11, 0x22, 0x33]) (guarded 0) (segments [5, 7, 12]) i =
        some (.ok a) := by
    rw [hsegments]
    exact fun
      | 0, _ => ⟨_, rfl⟩
      | 1, _ => ⟨_, rfl⟩
      | 2, _ => ⟨_, rfl⟩
      | 3, _ => ⟨_, rfl⟩
      | 4, _ => ⟨_, rfl⟩
  obtain ⟨-, -, hpack, hunpack⟩ :=
    transfer_logged #[0x11, 0x22, 0x33] (guarded 9) (guarded 0) (by decide) (by decide)
  obtain ⟨hmismatch, -⟩ :=
    transfer_logged #[0x11, 0x22] (guarded 9) (guarded 0) (by decide) (by decide)
  obtain ⟨houtcome, hlog, -⟩ := (hpack rfl).2 _ _ _ (.stopped 3 hthird hfails)
  obtain ⟨houtcome', hlog', -⟩ := (hunpack rfl).2 _ _ _ (.complete hall)
  refine ⟨hcount, houtcome, ?_, houtcome', ?_, hmismatch (by decide)⟩
  · obtain ⟨-, -, hfull, -⟩ := pack_of_failed hcount (by decide)
      (congrArg segments (hwidths 9)) hanswers hthird hfails.2
    have hfirst : (pack #[0x11, 0x22, 0x33] (guarded 9)).wire.toList.take (12 / 8) = [0xB5] := by
      rw [List.take_one, List.head?_eq_getElem?, Array.getElem?_toList, hfull 0 (by decide), hsegments]
      decide
    rw [hlog, hfirst]
    decide
  · rw [hlog']
    decide

end Bitfield.Wire
