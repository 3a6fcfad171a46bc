import Bitfield.Field.Probe
import Bitfield.Proofs.Wire.Delivery
import Bitfield.Proofs.Wire.Transfer

/-! The requests of a transfer. Packing and unpacking handle one chunk in a step of their own, and
either step makes one request and fails only if the request does. Both therefore request the segments
of the wire in order, from fields of any kind and with any answers. -/

namespace Bitfield.Wire

/-- Whether a step is a request made to a field. -/
def Event.isRequest : Event → Bool
  | .asked .. => true
  | .given .. => true
  | _ => false

/-- The requests of a transfer, in order. -/
def Run.requests {φ : Type} (run : Run φ) : List Event :=
  run.events.filter Event.isRequest

def readRequest (s : Segment) : Event :=
  .asked s.field s.chunk

/-- The bits of a wire in a segment. -/
def segmentBits (wire : Array Byte) (s : Segment) : Byte :=
  BitVec.ofNat 8 (slice wire s.start s.chunk.length)

/-- The request that delivers the bits of a wire in a segment. -/
def writeRequest (wire : Array Byte) (s : Segment) : Event :=
  .given s.field s.chunk (segmentBits wire s)

def readAnswer {φ : Type} [ReadableField φ] (field : φ) (s : Segment) : Outcome Byte × φ :=
  ReadableField.read field s.chunk

/-- The answer of a field to the bits of a wire in a segment. -/
def writeAnswer {φ : Type} [WritableField φ] (wire : Array Byte) (field : φ) (s : Segment) :
    Outcome Unit × φ :=
  WritableField.write field s.chunk (segmentBits wire s)

theorem segmentBits_of_slice {wire : Array Byte} {s : Segment} {x : Byte}
    (hx : x.toNat = slice wire s.start s.chunk.length) : x = segmentBits wire s := by
  rw [segmentBits, ← hx, BitVec.ofNat_toNat, BitVec.setWidth_eq]

theorem toNat_segmentBits (wire : Array Byte) {s : Segment} (h : s.chunk.length ≤ 8) :
    (segmentBits wire s).toNat = slice wire s.start s.chunk.length := by
  rw [segmentBits, BitVec.toNat_ofNat, Nat.mod_eq_of_lt]
  exact (slice_lt _ _ _).trans_le (Nat.pow_le_pow_right (by decide) h)

namespace Packing

/-- A chunk that fits into the pending byte is taken in, whatever its bits. -/
theorem accept_of_fits (p : Packing) {length : Nat} (bits : Byte)
    (hlength : p.position % 8 + length ≤ 8) (hpos : 0 < length)
    (hroom : p.position + length ≤ 8 * p.wire.size) :
    ∃ q, p.accept length bits = .ok q ∧ q.position = p.position + length ∧
      q.wire.size = p.wire.size ∧
      q.events.filter Event.isRequest = p.events.filter Event.isRequest := by
  have hx := p.gather_of_le bits (Nat.le_of_add_left_le hlength)
  by_cases hfull : (p.position + length) % 8 = 0
  · have hindex : p.position / 8 < p.wire.size := by omega
    refine ⟨_, accept_of_full hx hfull hindex, rfl, Array.size_set hindex, ?_⟩
    rw [List.filter_append]
    exact List.append_nil _
  · exact ⟨_, accept_of_room hx hfull, rfl, rfl, rfl⟩

/-- A chunk that is taken in completes its byte, which is then stored, or leaves it pending. -/
theorem accept_cases {p q : Packing} {length : Nat} {bits : Byte}
    (h : p.accept length bits = .ok q) :
    ∃ x, (∃ hindex : p.position / 8 < p.wire.size, (p.position + length) % 8 = 0 ∧
        q = ⟨p.wire.set (p.position / 8) x hindex, p.position + length, 0,
          p.events ++ [.stored (p.position / 8) x]⟩) ∨
      ((p.position + length) % 8 ≠ 0 ∧ q = ⟨p.wire, p.position + length, x, p.events⟩) := by
  rw [accept] at h
  cases hx : p.gather length bits with
  | error e =>
      rw [hx] at h
      cases h
  | ok x =>
      rw [hx, Outcome.ok_bind] at h
      simp only at h
      split at h
      · split at h
        · rename_i hfull hindex
          cases h
          exact ⟨x, Or.inl ⟨hindex, hfull, rfl⟩⟩
        · cases h
      · rename_i hroom
        cases h
        exact ⟨x, Or.inr ⟨hroom, rfl⟩⟩

theorem position_of_accept {p q : Packing} {length : Nat} {bits : Byte}
    (h : p.accept length bits = .ok q) : q.position = p.position + length := by
  obtain ⟨x, ⟨-, -, rfl⟩ | ⟨-, rfl⟩⟩ := accept_cases h <;> rfl

variable {φ : Type} [ReadableField φ]

def step (index : Nat) (chunk : Chunk) (field : φ) (p : Packing) : Outcome Unit × φ × Packing :=
  match ReadableField.read field chunk with
  | (.error e, field) => (.error e, field, p.ask index chunk)
  | (.ok bits, field) =>
    match (p.ask index chunk).accept chunk.length bits with
    | .error e => (.error e, field, p.ask index chunk)
    | .ok p => (.ok (), field, p)

/-- A step that gets through has taken in what its field answered. -/
theorem step_ok {index : Nat} {chunk : Chunk} {field after : φ} {p q : Packing}
    (h : step index chunk field p = (.ok (), after, q)) :
    ∃ bits, (p.ask index chunk).accept chunk.length bits = .ok q := by
  rw [step] at h
  split at h
  · cases h
  · rename_i bits _ _
    split at h
    · cases h
    · rename_i haccept
      cases h
      exact ⟨bits, haccept⟩

/-- A step that fails has asked and taken nothing in. -/
theorem step_error {index : Nat} {chunk : Chunk} {field after : φ} {p q : Packing} {e : Failure}
    (h : step index chunk field p = (.error e, after, q)) : q = p.ask index chunk := by
  rw [step] at h
  split at h
  · cases h
    rfl
  · split at h
    · cases h
      rfl
    · cases h

theorem step_advances : Advances (step (φ := φ)) position := by
  intro index chunk field p after q h
  obtain ⟨bits, haccept⟩ := step_ok h
  rw [position_of_accept haccept, position_ask]

theorem moveChunks_eq_visitChunks (index : Nat) (list : List Chunk) (field : φ) (p : Packing) :
    moveChunks index list field p = visitChunks step index list field p := by
  induction list generalizing field p with
  | nil => rfl
  | cons chunk rest ih =>
      rw [moveChunks, visitChunks, step]
      rcases ReadableField.read field chunk with ⟨reply, after⟩
      cases reply with
      | error e => rfl
      | ok bits =>
          simp only
          cases (p.ask index chunk).accept chunk.length bits with
          | error e => rfl
          | ok q => exact ih after q

theorem moveFields_eq_visitFields (index : Nat) (fields : List φ) (p : Packing) :
    moveFields index fields p = visitFields step ReadableField.width position index fields p := by
  apply eq_visitFields
  · exact fun _ _ => rfl
  · intro index field rest p
    rw [moveFields, moveChunks_eq_visitChunks]
    rcases visitChunks step index (chunks p.position (ReadableField.width field)) field p with
      ⟨_ | _, _, _⟩ <;> rfl

/-- A step of packing asks for its segment and takes any answer in. -/
theorem requests_step (size : Nat) :
    Requests (step (φ := φ)) position readAnswer readRequest
      (fun p => p.events.filter Event.isRequest) (fun p => p.wire.size = size) size := by
  constructor
  · intro s field p bits after hsize hstart hpos hbyte hstop hanswer
    have hread : ReadableField.read field s.chunk = (.ok bits, after) := hanswer
    have hend : s.stop = p.position + s.chunk.length := by rw [Segment.stop, hstart]
    obtain ⟨q, hq, hposition, hwire, hevents⟩ :=
      (p.ask s.field s.chunk).accept_of_fits bits hbyte hpos
        (by rw [wire_ask, position_ask, hsize, ← hend]; exact hstop)
    refine ⟨q, ?_, hwire.trans hsize, hposition.trans hend.symm, ?_⟩
    · rw [step, hread]
      simp only [hq]
    · rw [hevents, ask, List.filter_append]
      rfl
  · intro s field p e after _ _ _ _ _ hanswer
    have hread : ReadableField.read field s.chunk = (.error e, after) := hanswer
    refine ⟨p.ask s.field s.chunk, ?_, ?_⟩
    · rw [step, hread]
    · rw [ask, List.filter_append]
      rfl

end Packing

namespace Unpacking

variable {φ : Type} [WritableField φ]

def step (index : Nat) (chunk : Chunk) (field : φ) (u : Unpacking) :
    Outcome Unit × φ × Unpacking :=
  match u.peek chunk.length with
  | .error e => (.error e, field, u)
  | .ok bits =>
    match WritableField.write field chunk bits with
    | (.error e, field) => (.error e, field, u.give index chunk bits)
    | (.ok (), field) => (.ok (), field, (u.give index chunk bits).advance chunk.length)

theorem step_ok {index : Nat} {chunk : Chunk} {field after : φ} {u v : Unpacking}
    (h : step index chunk field u = (.ok (), after, v)) :
    ∃ bits, v = (u.give index chunk bits).advance chunk.length := by
  rw [step] at h
  split at h
  · cases h
  · rename_i bits _
    split at h
    · cases h
    · cases h
      exact ⟨bits, rfl⟩

/-- A step that fails has given its field the bits at most. -/
theorem step_error {index : Nat} {chunk : Chunk} {field after : φ} {u v : Unpacking} {e : Failure}
    (h : step index chunk field u = (.error e, after, v)) :
    v = u ∨ ∃ bits, v = u.give index chunk bits := by
  rw [step] at h
  split at h
  · cases h
    exact Or.inl rfl
  · rename_i bits _
    split at h
    · cases h
      exact Or.inr ⟨bits, rfl⟩
    · cases h

theorem step_advances : Advances (step (φ := φ)) position := by
  intro index chunk field u after v h
  obtain ⟨bits, rfl⟩ := step_ok h
  rfl

theorem moveChunks_eq_visitChunks (index : Nat) (list : List Chunk) (field : φ) (u : Unpacking) :
    moveChunks index list field u = visitChunks step index list field u := by
  induction list generalizing field u with
  | nil => rfl
  | cons chunk rest ih =>
      rw [moveChunks, visitChunks, step]
      cases u.peek chunk.length with
      | error e => rfl
      | ok bits =>
          simp only
          rcases WritableField.write field chunk bits with ⟨reply, after⟩
          cases reply with
          | error e => rfl
          | ok _ => exact ih after _

theorem moveFields_eq_visitFields (index : Nat) (fields : List φ) (u : Unpacking) :
    moveFields index fields u = visitFields step ReadableField.width position index fields u := by
  apply eq_visitFields
  · exact fun _ _ => rfl
  · intro index field rest u
    rw [moveFields, moveChunks_eq_visitChunks]
    rcases visitChunks step index (chunks u.position (ReadableField.width field)) field u with
      ⟨_ | _, _, _⟩ <;> rfl

theorem filter_events_advance (u : Unpacking) (length : Nat) :
    (u.advance length).events.filter Event.isRequest = u.events.filter Event.isRequest := by
  rw [advance]
  simp only
  split
  · rw [List.filter_append]
    exact List.append_nil _
  · rfl

/-- A step of unpacking delivers the bits of its segment. -/
theorem requests_step (wire : Array Byte) :
    Requests (step (φ := φ)) position (writeAnswer wire) (writeRequest wire)
      (fun u => u.events.filter Event.isRequest) (fun u => u.wire = wire) wire.size := by
  have hpeek : ∀ {s : Segment} {u : Unpacking}, u.wire = wire → s.start = u.position →
      0 < s.chunk.length → u.position % 8 + s.chunk.length ≤ 8 → s.stop ≤ 8 * wire.size →
      u.peek s.chunk.length = .ok (segmentBits wire s) := by
    intro s u hwire hstart hpos hbyte hstop
    rw [Segment.stop, hstart, ← hwire] at hstop
    obtain ⟨x, hx, hvalue⟩ := u.peek_of_within hpos hbyte hstop
    rw [hwire, ← hstart] at hvalue
    rw [hx, segmentBits_of_slice hvalue]
  constructor
  · intro s field u reply after hwire hstart hpos hbyte hstop hanswer
    have hwrite : WritableField.write field s.chunk (segmentBits wire s) = (.ok (), after) := hanswer
    refine ⟨(u.give s.field s.chunk (segmentBits wire s)).advance s.chunk.length, ?_, hwire, ?_, ?_⟩
    · rw [step, hpeek hwire hstart hpos hbyte hstop]
      simp only [hwrite]
    · rw [position_advance, position_give, Segment.stop, hstart]
    · rw [filter_events_advance, give, List.filter_append]
      rfl
  · intro s field u e after hwire hstart hpos hbyte hstop hanswer
    have hwrite : WritableField.write field s.chunk (segmentBits wire s) = (.error e, after) := hanswer
    refine ⟨u.give s.field s.chunk (segmentBits wire s), ?_, ?_⟩
    · rw [step, hpeek hwire hstart hpos hbyte hstop]
      simp only [hwrite]
    · rw [give, List.filter_append]
      rfl

end Unpacking

section Segments

variable {φ : Type} {wire : Array Byte} {fields after : List φ} {outcome : Outcome Unit}

/-- Packing handles the segments of the wire in order. -/
theorem pack_of_visitSegments [ReadableField φ] {q : Packing}
    (hcount : bitCount fields = 8 * wire.size) (hindex : 8 * wire.size < limit indexBits)
    (h : visitSegments Packing.step (segments (fields.map ReadableField.width)) fields
      (.start wire fields.length) = (outcome, after, q)) :
    pack wire fields = ⟨outcome, q.wire, after, q.events⟩ := by
  have hvisit := visitSegments_plan ReadableField.width Packing.step_advances [] fields
    (.start wire fields.length)
  have hposition : (Packing.start wire fields.length).position = 0 := rfl
  rw [List.length_nil, hposition, ← segments_eq_plan, List.nil_append, h,
    ← Packing.moveFields_eq_visitFields] at hvisit
  exact pack_of_moveFields hcount hindex hvisit.symm

theorem unpack_of_visitSegments [WritableField φ] {v : Unpacking}
    (hcount : bitCount fields = 8 * wire.size) (hindex : 8 * wire.size < limit indexBits)
    (h : visitSegments Unpacking.step (segments (fields.map ReadableField.width)) fields
      (.start wire fields.length) = (outcome, after, v)) :
    unpack wire fields = ⟨outcome, wire, after, v.events⟩ := by
  have hvisit := visitSegments_plan ReadableField.width Unpacking.step_advances [] fields
    (.start wire fields.length)
  have hposition : (Unpacking.start wire fields.length).position = 0 := rfl
  rw [List.length_nil, hposition, ← segments_eq_plan, List.nil_append, h,
    ← Unpacking.moveFields_eq_visitFields] at hvisit
  exact unpack_of_moveFields hcount hindex hvisit.symm

end Segments

theorem pack_follows {φ : Type} [ReadableField φ] (wire : Array Byte) (fields : List φ)
    (hcount : bitCount fields = 8 * wire.size) (hindex : 8 * wire.size < limit indexBits) :
    Follows readAnswer readRequest (segments (fields.map ReadableField.width)) fields
      (pack wire fields).outcome (pack wire fields).requests (pack wire fields).fields := by
  obtain ⟨outcome, after, q, made, hvisit, hmade, hfollows⟩ :=
    (Packing.requests_step wire.size).follows (Nat.le_refl _) fields
      (.start wire fields.length) (tiles_of_bitCount hcount) rfl fun _ => field_lt_length
  have hrequests : q.events.filter Event.isRequest = made := hmade
  rw [pack_of_visitSegments hcount hindex hvisit, Run.requests, hrequests]
  exact hfollows

/-- Unpacking requests the segments of the wire in order, each with its bits. -/
theorem unpack_follows {φ : Type} [WritableField φ] (wire : Array Byte) (fields : List φ)
    (hcount : bitCount fields = 8 * wire.size) (hindex : 8 * wire.size < limit indexBits) :
    Follows (writeAnswer wire) (writeRequest wire) (segments (fields.map ReadableField.width)) fields
      (unpack wire fields).outcome (unpack wire fields).requests (unpack wire fields).fields := by
  obtain ⟨outcome, after, v, made, hvisit, hmade, hfollows⟩ :=
    (Unpacking.requests_step wire).follows (Nat.le_refl _) fields
      (.start wire fields.length) (tiles_of_bitCount hcount) rfl fun _ => field_lt_length
  have hrequests : v.events.filter Event.isRequest = made := hmade
  rw [unpack_of_visitSegments hcount hindex hvisit, Run.requests, hrequests]
  exact hfollows

/-- Fields of any kind are asked for the segments of a wire and given their bits, in order and up to
the first request that fails; the segments cover each field once from the top bit down. Fields that
do not take up the wire get no request and stay as they were, and are refused for the mismatch if the
bits of the wire can be counted. -/
theorem transfer_requests {φ ψ : Type} [ReadableField φ] [WritableField ψ] (wire : Array Byte)
    (sources : List φ) (targets : List ψ) :
    (∀ widths : List Nat, widths.sum = 8 * wire.size →
      (∀ s ∈ segments widths, s.field < widths.length ∧ 0 < s.chunk.length ∧
        s.chunk.length ≤ 8 ∧ s.stop ≤ 8 * wire.size ∧
        (segmentBits wire s).toNat < 2 ^ s.chunk.length ∧
        ∀ k < s.chunk.length,
          (segmentBits wire s).getLsbD (s.chunk.length - 1 - k) = bitAt wire (s.start + k)) ∧
      ∀ index (h : index < widths.length),
        CoversDown widths[index]
          (((segments widths).filter fun s => s.field = index).map Segment.chunk) ∧
        (widths[index] = 0 → ∀ s ∈ segments widths, s.field ≠ index)) ∧
    (bitCount sources < limit indexBits →
      (bitCount sources = 8 * wire.size →
        Follows readAnswer readRequest (segments (sources.map ReadableField.width)) sources
          (pack wire sources).outcome (pack wire sources).requests (pack wire sources).fields) ∧
      (bitCount sources ≠ 8 * wire.size →
        (∃ e, pack wire sources = ⟨.error e, wire, sources, []⟩) ∧
        (8 * wire.size < limit indexBits → pack wire sources =
          ⟨refuse (.widthMismatch (bitCount sources) (8 * wire.size)), wire, sources, []⟩))) ∧
    (bitCount targets < limit indexBits →
      (bitCount targets = 8 * wire.size →
        Follows (writeAnswer wire) (writeRequest wire) (segments (targets.map ReadableField.width))
          targets (unpack wire targets).outcome (unpack wire targets).requests
          (unpack wire targets).fields) ∧
      (bitCount targets ≠ 8 * wire.size →
        (∃ e, unpack wire targets = ⟨.error e, wire, targets, []⟩) ∧
        (8 * wire.size < limit indexBits → unpack wire targets =
          ⟨refuse (.widthMismatch (bitCount targets) (8 * wire.size)), wire, targets, []⟩))) := by
  refine ⟨fun widths hsum => ⟨fun s hs => ?_, fun index h => ?_⟩, fun hsources => ⟨?_, ?_⟩,
    fun htargets => ⟨?_, ?_⟩⟩
  · obtain ⟨hfield, hpos, hlength, hstop⟩ := mem_segments hs
    rw [hsum] at hstop
    have hbits := toNat_segmentBits wire hlength
    refine ⟨hfield, hpos, hlength, hstop, ?_, ?_⟩
    · rw [hbits]
      exact slice_lt _ _ _
    · intro k hk
      rw [← BitVec.testBit_toNat, hbits, testBit_slice_bitAt wire hk hstop]
  · have hcovers := segments_coversDown h
    refine ⟨hcovers, ?_⟩
    intro hzero s hs hfield
    rw [hzero] at hcovers
    have hnone := List.map_eq_nil_iff.1 hcovers.eq_nil
    rw [List.filter_eq_nil_iff] at hnone
    exact hnone s hs (decide_eq_true hfield)
  · exact fun hcount => pack_follows wire sources hcount (hcount ▸ hsources)
  · exact fun hcount => ⟨pack_refuses wire sources hcount hsources,
      pack_of_bitCount_ne wire sources hcount hsources⟩
  · exact fun hcount => unpack_follows wire targets hcount (hcount ▸ htargets)
  · exact fun hcount => ⟨unpack_refuses wire targets hcount htargets,
      unpack_of_bitCount_ne wire targets hcount htargets⟩

/-- Probes of 3, 0, 11 and 2 bits, the third of which refuses what lies below bit `failBelow`. -/
def probes (failBelow : Nat) : List Probe :=
  [⟨3, 0xFF, 0, []⟩, ⟨0, 0x00, 0, []⟩, ⟨11, 0x5A, failBelow, []⟩, ⟨2, 0x01, 0, []⟩]

theorem transfer_requests_probes :
    bitCount (probes 0) < limit indexBits ∧ bitCount (probes 6) < limit indexBits ∧
      8 * (#[0xA5] : Array Byte).size < limit indexBits ∧
      bitCount (probes 0) = 8 * 2 ∧ (pack #[0xA5, 0x3C] (probes 0)).outcome = .ok () ∧
      (pack #[0xA5, 0x3C] (probes 0)).requests =
        [.asked 0 ⟨3, 0⟩, .asked 2 ⟨5, 6⟩, .asked 2 ⟨6, 0⟩, .asked 3 ⟨2, 0⟩] ∧
      bitCount (probes 6) = 8 * 2 ∧
      (unpack #[0xA5, 0x3C] (probes 6)).outcome = refuse (.intervalOutOfRange 6 0 11) ∧
      (unpack #[0xA5, 0x3C] (probes 6)).requests =
        [.given 0 ⟨3, 0⟩ 5, .given 2 ⟨5, 6⟩ 5, .given 2 ⟨6, 0⟩ 15] ∧
      pack #[0xA5] (probes 0) = ⟨refuse (.widthMismatch 16 8), #[0xA5], probes 0, []⟩ := by
  have hfields : ∀ failBelow, bitCount (probes failBelow) < limit indexBits := by
    intro failBelow
    have hcount : bitCount (probes failBelow) = 16 := rfl
    rw [hcount]
    decide
  obtain ⟨-, hpack, hunpack⟩ := transfer_requests #[0xA5, 0x3C] (probes 0) (probes 6)
  obtain ⟨-, hmismatch, -⟩ := transfer_requests #[0xA5] (probes 0) (probes 6)
  have hsegments : segments [3, 0, 11, 2] =
      [⟨0, 0, ⟨3, 0⟩⟩, ⟨2, 3, ⟨5, 6⟩⟩, ⟨2, 8, ⟨6, 0⟩⟩, ⟨3, 14, ⟨2, 0⟩⟩] := by
    decide
  have hwidths : ∀ failBelow, (probes failBelow).map ReadableField.width = [3, 0, 11, 2] :=
    fun _ => rfl
  have hasked := (hpack (hfields 0)).1 rfl
  have hgiven := (hunpack (hfields 6)).1 rfl
  have hshort := ((hmismatch (hfields 0)).2 (by decide)).2 (by decide)
  rw [hwidths, hsegments] at hasked hgiven
  obtain ⟨houtcome, hrequests, -⟩ := hasked.of_answered fun
    | 0, _ => ⟨_, rfl⟩
    | 1, _ => ⟨_, rfl⟩
    | 2, _ => ⟨_, rfl⟩
    | 3, _ => ⟨_, rfl⟩
  obtain ⟨houtcome', hrequests', -⟩ := hgiven.of_failed 2 (fun
    | 0, _ => ⟨_, rfl⟩
    | 1, _ => ⟨_, rfl⟩) rfl
  exact ⟨hfields 0, hfields 6, by decide, rfl, houtcome, hrequests, rfl, houtcome',
    hrequests'.trans (by decide), hshort⟩

end Bitfield.Wire
