import Bitfield.Proofs.Wire.Requests

/-! What packing leaves on a wire, chunk by chunk. A byte of the wire is full once all its bits were
answered, and then holds the answers to its own segments, each moved up to its place, whatever their
bits and whatever the wire held before. The other bytes are as they were. -/

namespace Bitfield.Wire

/-- An answer in the byte of its segment. Bits above the length of the segment come to lie above
it. -/
def Segment.placed (s : Segment) (bits : Byte) : Byte :=
  bits <<< (8 - (s.start % 8 + s.chunk.length))

/-- What the answers to segments put into a byte of the wire. -/
def gathered (index : Nat) : List (Segment × Byte) → Byte
  | [] => 0#8
  | (s, bits) :: rest =>
    (if s.start / 8 = index then s.placed bits else 0#8) ||| gathered index rest

theorem gathered_append (index : Nat) (left right : List (Segment × Byte)) :
    gathered index (left ++ right) = gathered index left ||| gathered index right := by
  induction left with
  | nil => rw [List.nil_append, gathered, BitVec.zero_or]
  | cons a rest ih => rw [List.cons_append, gathered, gathered, ih, BitVec.or_assoc]

/-- A byte without segments gets nothing. -/
theorem gathered_eq_zero {index : Nat} {answered : List (Segment × Byte)}
    (h : ∀ a ∈ answered, a.1.start / 8 ≠ index) : gathered index answered = 0#8 := by
  induction answered with
  | nil => rfl
  | cons a rest ih =>
      rw [gathered, if_neg (h a List.mem_cons_self),
        ih fun b hb => h b (List.mem_cons_of_mem a hb), BitVec.zero_or]

theorem gathered_concat_of_eq {index : Nat} (done : List (Segment × Byte)) {s : Segment}
    (bits : Byte) (h : s.start / 8 = index) :
    gathered index (done ++ [(s, bits)]) = gathered index done ||| s.placed bits := by
  rw [gathered_append, gathered, if_pos h, gathered, BitVec.or_zero]

theorem gathered_concat_of_ne {index : Nat} (done : List (Segment × Byte)) {s : Segment}
    (bits : Byte) (h : s.start / 8 ≠ index) :
    gathered index (done ++ [(s, bits)]) = gathered index done := by
  rw [gathered_append, gathered, if_neg h, gathered, BitVec.or_zero, BitVec.or_zero]

theorem gathered_zip_append (index : Nat) (list : List Segment) (left right : List Byte) :
    gathered index (list.zip (left ++ right)) =
      gathered index (list.zip left) ||| gathered index ((list.drop left.length).zip right) := by
  induction left generalizing list with
  | nil =>
      rw [List.zip_nil_right, gathered, BitVec.zero_or]
      rfl
  | cons bits left ih =>
      cases list with
      | nil => rw [List.drop_nil, List.zip_nil_left, List.zip_nil_left, List.zip_nil_left, gathered,
          BitVec.or_zero]
      | cons s rest =>
          rw [List.cons_append, List.zip_cons_cons, List.zip_cons_cons, gathered, gathered, ih,
            BitVec.or_assoc]
          rfl

namespace Packing

/-- The state of a wire after the answers to some segments: full bytes hold what was gathered for
them, the pending byte the part of it that is there, and no other byte has changed. -/
structure Filled (wire : Array Byte) (done : List (Segment × Byte)) (p : Packing) : Prop where
  size_eq : p.wire.size = wire.size
  start_lt : ∀ a ∈ done, a.1.start < p.position
  pending_eq : p.pending <<< (8 - p.position % 8) = gathered (p.position / 8) done
  full : ∀ b < p.position / 8, p.wire[b]? = some (gathered b done)
  untouched : ∀ b ≥ p.position / 8, p.wire[b]? = wire[b]?

theorem filled_start (wire : Array Byte) (fields : Nat) : Filled wire [] (start wire fields) where
  size_eq := rfl
  start_lt := fun _ ha => absurd ha List.not_mem_nil
  pending_eq := rfl
  full := fun b hb => absurd (hb.trans_eq (Nat.zero_div 8)) (Nat.not_lt_zero b)
  untouched := fun _ _ => rfl

theorem Filled.ask {wire : Array Byte} {done : List (Segment × Byte)} {p : Packing}
    (h : Filled wire done p) (field : Nat) (chunk : Chunk) : Filled wire done (p.ask field chunk) :=
  ⟨h.size_eq, h.start_lt, h.pending_eq, h.full, h.untouched⟩

/-- Gathered bits, moved up to their place, are the pending ones and the new ones at theirs. A chunk of
a whole byte starts one, so that nothing of the pending byte is left. -/
theorem gather_shiftLeft (p : Packing) {length : Nat} (bits : Byte)
    (hlength : p.position % 8 + length ≤ 8) :
    ∃ x, p.gather length bits = .ok x ∧
      x <<< (8 - (p.position % 8 + length)) =
        p.pending <<< (8 - p.position % 8) ||| bits <<< (8 - (p.position % 8 + length)) := by
  refine ⟨_, p.gather_of_le bits (Nat.le_of_add_left_le hlength), ?_⟩
  split
  · have hstart : p.position % 8 = 0 := by omega
    rw [hstart, Nat.sub_zero, BitVec.shiftLeft_eq_zero (Nat.le_refl 8), BitVec.zero_or]
  · have hplace : 8 - p.position % 8 = length + (8 - (p.position % 8 + length)) := by omega
    rw [BitVec.shiftLeft_or_distrib, hplace, BitVec.shiftLeft_add]

theorem Filled.start_lt_concat {wire : Array Byte} {done : List (Segment × Byte)} {p : Packing}
    (h : Filled wire done p) {s : Segment} (bits : Byte) (hstart : s.start = p.position)
    (hpos : 0 < s.chunk.length) :
    ∀ a ∈ done ++ [(s, bits)], a.1.start < p.position + s.chunk.length := by
  intro a ha
  rcases List.mem_append.1 ha with ha | ha
  · exact Nat.lt_add_right _ (h.start_lt a ha)
  · rw [List.mem_singleton.1 ha, hstart]
    exact Nat.lt_add_of_pos_right hpos

/-- A state that has taken in the answer to the segment that starts there. The byte of the segment is
stored if the segment ends it and stays pending if not. -/
theorem Filled.accept {wire : Array Byte} {done : List (Segment × Byte)} {p : Packing}
    (h : Filled wire done p) {s : Segment} (bits : Byte) (hstart : s.start = p.position)
    (hpos : 0 < s.chunk.length) (hbyte : p.position % 8 + s.chunk.length ≤ 8)
    (hroom : s.stop ≤ 8 * wire.size) :
    ∃ q, p.accept s.chunk.length bits = .ok q ∧ q.position = s.stop ∧
      Filled wire (done ++ [(s, bits)]) q := by
  have hstop : s.stop = p.position + s.chunk.length := by rw [Segment.stop, hstart]
  rw [hstop] at hroom ⊢
  obtain ⟨x, hx, hplaced⟩ := p.gather_shiftLeft bits hbyte
  have hindex : s.start / 8 = p.position / 8 := by rw [hstart]
  have hgathered : x <<< (8 - (p.position % 8 + s.chunk.length)) =
      gathered (p.position / 8) (done ++ [(s, bits)]) := by
    rw [gathered_concat_of_eq done bits hindex, ← h.pending_eq, Segment.placed, hstart, hplaced]
  have hother : ∀ b < p.position / 8, p.wire[b]? = some (gathered b (done ++ [(s, bits)])) := by
    intro b hb
    rw [gathered_concat_of_ne done bits (by rw [hindex]; exact hb.ne'), h.full b hb]
  have hbelow := h.start_lt_concat bits hstart hpos
  have hsize := h.size_eq
  by_cases hfull : (p.position + s.chunk.length) % 8 = 0
  · have hlt : p.position / 8 < p.wire.size := by omega
    have hnext : (p.position + s.chunk.length) / 8 = p.position / 8 + 1 := by omega
    have hlast : 8 - (p.position % 8 + s.chunk.length) = 0 := by omega
    rw [hlast, BitVec.shiftLeft_zero] at hgathered
    refine ⟨_, accept_of_full hx hfull hlt, rfl, (Array.size_set hlt).trans hsize, hbelow, ?_, ?_, ?_⟩
    · refine (BitVec.zero_shiftLeft _).trans (gathered_eq_zero fun a ha => ?_).symm
      have := hbelow a ha
      simp only
      omega
    · intro b hb
      simp only [hnext] at hb
      rcases Nat.lt_succ_iff_lt_or_eq.1 hb with hb | rfl
      · rw [Array.getElem?_set_ne hlt (by omega), hother b hb]
      · rw [Array.getElem?_set_self hlt, hgathered]
    · intro b hb
      simp only [hnext] at hb
      rw [Array.getElem?_set_ne hlt (by omega), h.untouched b (by omega)]
  · have hsame : (p.position + s.chunk.length) / 8 = p.position / 8 := by omega
    have hmod : (p.position + s.chunk.length) % 8 = p.position % 8 + s.chunk.length := by omega
    refine ⟨_, accept_of_room hx hfull, rfl, hsize, hbelow, ?_, ?_, ?_⟩
    · simp only [hsame, hmod]
      exact hgathered
    · simp only [hsame]
      exact hother
    · simp only [hsame]
      exact h.untouched

end Packing

section Answers

variable {φ : Type} [ReadableField φ]

/-- Fields that answer the first requests for segments with these bytes. -/
def Answers (fields : List φ) (list : List Segment) (replies : List Byte) : Prop :=
  ∀ i (h : i < replies.length), replyAt readAnswer fields list i = some (.ok replies[i])

theorem Answers.of_cons {fields : List φ} {list : List Segment} {bits : Byte} {replies : List Byte}
    (h : Answers fields list (bits :: replies)) :
    ∃ s rest field after, list = s :: rest ∧ fields[s.field]? = some field ∧
      ReadableField.read field s.chunk = (.ok bits, after) ∧
      fieldsAfter readAnswer fields [s] = fields.set s.field after ∧
      Answers (fields.set s.field after) rest replies := by
  have hhead := h 0 (Nat.zero_lt_succ _)
  cases list with
  | nil => cases hhead
  | cons s rest =>
      have hreply : replyTo readAnswer fields s = some (.ok bits) := hhead
      cases hget : fields[s.field]? with
      | none =>
          rw [replyTo, hget] at hreply
          cases hreply
      | some field =>
          rw [replyTo_of_getElem? readAnswer hget] at hreply
          have hafter := fieldsAfter_singleton readAnswer hget
          rcases hread : ReadableField.read field s.chunk with ⟨reply, after⟩
          rw [readAnswer, hread] at hreply hafter
          cases hreply
          refine ⟨s, rest, field, after, rfl, hget, hread, hafter, ?_⟩
          rw [← hafter]
          exact fun i hi => h (i + 1) (Nat.succ_lt_succ hi)

theorem Answers.length_le {fields : List φ} {list : List Segment} {replies : List Byte}
    (h : Answers fields list replies) : replies.length ≤ list.length := by
  by_contra hlt
  have hreply := h list.length (by omega)
  rw [replyAt, List.getElem?_eq_none (Nat.le_refl _)] at hreply
  cases hreply

/-- While the fields answer, packing takes the answers in and goes on with the segments that are
left. Each answer belongs to the segment that is first in the list when it comes. -/
theorem Packing.Filled.answers {wire : Array Byte} {finish : Nat} (hfinish : finish ≤ 8 * wire.size)
    {replies : List Byte} {list : List Segment} {fields : List φ}
    (hanswers : Answers fields list replies) {done : List (Segment × Byte)} {p : Packing}
    (h : Filled wire done p) (htiles : Tiles p.position finish list) :
    ∃ q, Filled wire (done ++ list.zip replies) q ∧
      Tiles q.position finish (list.drop replies.length) ∧
      visitSegments step list fields p = visitSegments step (list.drop replies.length)
        (fieldsAfter readAnswer fields (list.take replies.length)) q := by
  induction replies generalizing list fields done p with
  | nil =>
      refine ⟨p, ?_, htiles, rfl⟩
      rwa [List.zip_nil_right, List.append_nil]
  | cons bits replies ih =>
      obtain ⟨s, rest, field, after, rfl, hget, hread, hafter, hrest⟩ := hanswers.of_cons
      obtain ⟨hstart, hpos, hbyte, htiles⟩ := htiles
      obtain ⟨q, hq, hposition, hfilled⟩ := (h.ask s.field s.chunk).accept bits hstart hpos hbyte
        (htiles.le.trans hfinish)
      rw [← hposition] at htiles
      obtain ⟨r, hr, hleft, hvisit⟩ := ih hrest hfilled htiles
      have hstep : step s.field s.chunk field p = (.ok (), after, q) := by
        rw [step, hread]
        simp only [hq]
      refine ⟨r, ?_, hleft, ?_⟩
      · rwa [List.append_assoc, List.singleton_append] at hr
      · rw [visitSegments, hget]
        simp only [hstep]
        rw [hvisit, ← hafter]
        rfl

variable {wire : Array Byte} {fields : List φ} {list : List Segment} {replies : List Byte}
  (hcount : bitCount fields = 8 * wire.size) (hindex : 8 * wire.size < limit indexBits)
  (hlist : segments (fields.map ReadableField.width) = list) (hanswers : Answers fields list replies)

include hcount hindex hlist hanswers

/-- After some answers the rest of a run decides how packing ends. -/
theorem pack_of_answers :
    ∃ q, Packing.Filled wire (list.zip replies) q ∧
      Tiles q.position (8 * wire.size) (list.drop replies.length) ∧
      ∀ outcome after r, visitSegments Packing.step (list.drop replies.length)
          (fieldsAfter readAnswer fields (list.take replies.length)) q = (outcome, after, r) →
        pack wire fields = ⟨outcome, r.wire, after, r.events⟩ := by
  have htiles := tiles_of_bitCount hcount
  rw [hlist] at htiles
  obtain ⟨q, hfilled, hleft, hvisit⟩ := (Packing.filled_start wire fields.length).answers
    (Nat.le_refl _) hanswers htiles
  subst hlist
  exact ⟨q, hfilled, hleft, fun outcome after r hr =>
    pack_of_visitSegments hcount hindex (hvisit.trans hr)⟩

/-- Fields that answer every request fill every byte with the answers to its segments. -/
theorem pack_of_all_answers (hall : replies.length = list.length) :
    (pack wire fields).outcome = .ok () ∧ (pack wire fields).wire.size = wire.size ∧
      ∀ b < wire.size, (pack wire fields).wire[b]? = some (gathered b (list.zip replies)) := by
  obtain ⟨q, hfilled, hleft, hpack⟩ := pack_of_answers hcount hindex hlist hanswers
  rw [hall, List.drop_length] at hleft hpack
  have hposition : q.position = 8 * wire.size := hleft
  rw [hpack _ _ _ rfl]
  exact ⟨rfl, hfilled.size_eq, fun b hb => hfilled.full b (by omega)⟩

/-- A request that fails leaves the bytes before its own full and the others as they were. -/
theorem pack_of_failed {s : Segment} {e : Failure} (hsegment : list[replies.length]? = some s)
    (hfailed : replyAt readAnswer fields list replies.length = some (.error e)) :
    (pack wire fields).outcome = .error e ∧ (pack wire fields).wire.size = wire.size ∧
      (∀ b < s.start / 8, (pack wire fields).wire[b]? = some (gathered b (list.zip replies))) ∧
      ∀ b ≥ s.start / 8, (pack wire fields).wire[b]? = wire[b]? := by
  obtain ⟨q, hfilled, hleft, hpack⟩ := pack_of_answers hcount hindex hlist hanswers
  obtain ⟨hlt, hget⟩ := List.getElem?_eq_some_iff.1 hsegment
  rw [List.drop_eq_getElem_cons hlt, hget] at hleft hpack
  obtain ⟨hstart, -⟩ := hleft
  rw [replyAt, hsegment, Option.bind_some] at hfailed
  cases hfield : (fieldsAfter readAnswer fields (list.take replies.length))[s.field]? with
  | none =>
      rw [replyTo, hfield] at hfailed
      cases hfailed
  | some field =>
      rw [replyTo_of_getElem? readAnswer hfield] at hfailed
      rcases hread : ReadableField.read field s.chunk with ⟨reply, after⟩
      rw [readAnswer, hread] at hfailed
      cases hfailed
      have hstep : Packing.step s.field s.chunk field q =
          (.error e, after, q.ask s.field s.chunk) := by
        rw [Packing.step, hread]
      have hrun := hpack (.error e) _ (q.ask s.field s.chunk) (by
        rw [visitSegments, hfield]
        simp only [hstep]
        rfl)
      rw [hrun, hstart]
      exact ⟨rfl, hfilled.size_eq, hfilled.full, hfilled.untouched⟩

end Answers

end Bitfield.Wire
