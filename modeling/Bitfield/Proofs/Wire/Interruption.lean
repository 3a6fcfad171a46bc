import Bitfield.Layout
import Bitfield.Proofs.Wire.Gathering

/-! Packing that is interrupted. The first request that fails ends packing with its error. The bytes
before the place of the request are then those of any run that gets through with the same answers up
to there; the byte at that place, even if a part of it was gathered, and all bytes after it are as
they were. -/

namespace Bitfield.Wire

/-- Answers to later segments put nothing into a byte that was full before them. -/
theorem gathered_zip_of_full {start finish : Nat} {list : List Segment}
    (htiles : Tiles start finish list) {replies : List Byte} (more : List Byte) {s : Segment}
    (hsegment : list[replies.length]? = some s) {b : Nat} (hb : b < s.start / 8) :
    gathered b (list.zip (replies ++ more)) = gathered b (list.zip replies) := by
  have hlater : gathered b ((list.drop replies.length).zip more) = 0#8 := by
    apply gathered_eq_zero
    intro a ha
    have := (htiles.drop hsegment).start_le a.1 (List.of_mem_zip ha).1
    omega
  rw [gathered_zip_append, hlater, BitVec.or_zero]

section Answers

variable {φ : Type} [ReadableField φ] {fields : List φ} {list : List Segment}

theorem Answers.prefix_eq {replies all : List Byte} (h : Answers fields list replies)
    (hall : Answers fields list all) (hlength : replies.length ≤ all.length) :
    ∃ more, all = replies ++ more := by
  refine ⟨all.drop replies.length, ?_⟩
  have htake : replies = all.take replies.length := by
    apply List.ext_getElem (List.length_take_of_le hlength).symm
    intro i hi _
    have heq := (h i hi).symm.trans (hall i (Nat.lt_of_lt_of_le hi hlength))
    rw [Option.some.injEq, Except.ok.injEq] at heq
    rw [heq, List.getElem_take]
  conv_lhs => rw [← List.take_append_drop replies.length all, ← htake]

theorem exists_answers {count : Nat}
    (h : ∀ i < count, ∃ bits, replyAt readAnswer fields list i = some (.ok bits)) :
    ∃ replies : List Byte, replies.length = count ∧ Answers fields list replies := by
  choose bits hbits using h
  refine ⟨List.ofFn fun i : Fin count => bits i i.isLt, List.length_ofFn, ?_⟩
  intro i hi
  rw [List.getElem_ofFn]
  exact hbits i _

/-- Packing gets through only if every request is answered. -/
theorem answers_of_pack_ok {wire : Array Byte} (hcount : bitCount fields = 8 * wire.size)
    (hindex : 8 * wire.size < limit indexBits) (hok : (pack wire fields).outcome = .ok ()) :
    ∃ replies, replies.length = (segments (fields.map ReadableField.width)).length ∧
      Answers fields (segments (fields.map ReadableField.width)) replies :=
  exists_answers ((pack_follows wire fields hcount hindex).answered hok)

end Answers

/-- A field that answers as another one does, but with zeros where that one fails. -/
structure Lenient (φ : Type) where
  field : φ

namespace Lenient

def soften : Outcome Byte → Outcome Byte
  | .ok bits => .ok bits
  | .error _ => .ok 0

theorem soften_ne_error (reply : Outcome Byte) (e : Failure) : soften reply ≠ .error e := by
  cases reply with
  | ok bits => exact fun h => nomatch h
  | error f => exact fun h => nomatch h

variable {φ : Type} [ReadableField φ]

instance : ReadableField (Lenient φ) where
  width l := ReadableField.width l.field
  read l chunk :=
    let (reply, after) := ReadableField.read l.field chunk
    (soften reply, ⟨after⟩)

theorem map_width (fields : List φ) :
    (fields.map Lenient.mk).map ReadableField.width = fields.map ReadableField.width :=
  List.map_map

theorem fieldsAfter_map (fields : List φ) (made : List Segment) :
    fieldsAfter readAnswer (fields.map Lenient.mk) made =
      (fieldsAfter readAnswer fields made).map Lenient.mk := by
  induction made generalizing fields with
  | nil => rfl
  | cons s rest ih =>
      have hmodify : (fields.map Lenient.mk).modify s.field (fun l => (readAnswer l s).2) =
          (fields.modify s.field fun field => (readAnswer field s).2).map Lenient.mk := by
        apply List.ext_getElem?
        intro i
        rw [List.getElem?_modify, List.getElem?_map, List.getElem?_map, List.getElem?_modify]
        cases fields[i]? with
        | none => rfl
        | some field => split <;> rfl
      rw [fieldsAfter, List.foldl_cons, hmodify]
      exact ih _

theorem replyAt_map (fields : List φ) (list : List Segment) (count : Nat) :
    replyAt readAnswer (fields.map Lenient.mk) list count =
      (replyAt readAnswer fields list count).map soften := by
  rw [replyAt, replyAt, fieldsAfter_map]
  cases list[count]? with
  | none => rfl
  | some s =>
      rw [Option.bind_some, Option.bind_some, replyTo, replyTo, List.getElem?_map, Option.map_map,
        Option.map_map]
      rfl

theorem answers_map {fields : List φ} {list : List Segment} {replies : List Byte}
    (h : Answers fields list replies) : Answers (fields.map Lenient.mk) list replies := by
  intro i hi
  rw [replyAt_map, h i hi]
  rfl

theorem pack_map {wire : Array Byte} {fields : List φ} (hcount : bitCount fields = 8 * wire.size)
    (hindex : 8 * wire.size < limit indexBits) :
    (pack wire (fields.map Lenient.mk)).outcome = .ok () := by
  have hwidths := map_width fields
  have hfollows := pack_follows wire (fields.map Lenient.mk)
    (by rw [bitCount_eq_sum, hwidths, ← bitCount_eq_sum, hcount]) hindex
  apply hfollows.eq_ok
  intro i e hfailed
  rw [replyAt_map, Option.map_eq_some_iff] at hfailed
  obtain ⟨reply, -, hreply⟩ := hfailed
  exact soften_ne_error reply e hreply

end Lenient

/-- A failing request is the end of packing: the error is handed on, bytes in front of the place of
the request are those of every run that gets through with the same answers before, of which there is
one, and bytes from that place on are as they were. -/
theorem pack_interrupted {φ : Type} [ReadableField φ] (wire : Array Byte) (fields : List φ)
    (hcount : bitCount fields = 8 * wire.size) (hindex : 8 * wire.size < limit indexBits)
    {replies : List Byte} {s : Segment} {e : Failure}
    (hanswers : Answers fields (segments (fields.map ReadableField.width)) replies)
    (hsegment : (segments (fields.map ReadableField.width))[replies.length]? = some s)
    (hfailed : replyAt readAnswer fields (segments (fields.map ReadableField.width))
      replies.length = some (.error e)) :
    (pack wire fields).outcome = .error e ∧ (pack wire fields).wire.size = wire.size ∧
      (∀ b ≥ s.start / 8, (pack wire fields).wire[b]? = wire[b]?) ∧
      (∀ {ψ : Type} [ReadableField ψ] (other : Array Byte) (others : List ψ),
        other.size = wire.size →
        others.map ReadableField.width = fields.map ReadableField.width →
        Answers others (segments (fields.map ReadableField.width)) replies →
        (pack other others).outcome = .ok () →
        ∀ b < s.start / 8, (pack wire fields).wire[b]? = (pack other others).wire[b]?) ∧
      ∃ others : List (Lenient φ),
        others.map ReadableField.width = fields.map ReadableField.width ∧
        Answers others (segments (fields.map ReadableField.width)) replies ∧
        (pack wire others).outcome = .ok () := by
  obtain ⟨houtcome, hsize, hfull, hkept⟩ :=
    pack_of_failed hcount hindex rfl hanswers hsegment hfailed
  refine ⟨houtcome, hsize, hkept, ?_, fields.map Lenient.mk, Lenient.map_width fields,
    Lenient.answers_map hanswers, Lenient.pack_map hcount hindex⟩
  intro ψ _ other others hother hwidths hsame hok b hb
  have hcount' : bitCount others = 8 * other.size := by
    rw [bitCount_eq_sum, hwidths, ← bitCount_eq_sum, hcount, hother]
  have hindex' : 8 * other.size < limit indexBits := by rwa [hother]
  have htiles := tiles_plan 0 0 (fields.map ReadableField.width)
  rw [← segments_eq_plan] at htiles
  have hroom := (mem_segments (List.mem_of_getElem? hsegment)).2.2.2
  rw [← bitCount_eq_sum, hcount, Segment.stop] at hroom
  obtain ⟨all, hlength, hall⟩ := answers_of_pack_ok hcount' hindex' hok
  rw [hwidths] at hlength hall
  obtain ⟨later, rfl⟩ := hsame.prefix_eq hall (by rw [hlength]; exact hsame.length_le)
  obtain ⟨-, -, hothers⟩ := pack_of_all_answers hcount' hindex'
    (congrArg segments hwidths) hall hlength
  rw [hfull b hb, hothers b (by omega), gathered_zip_of_full htiles later hsegment hb]

/-- A register of 7 bits between probes of 5 and 12 bits, the last of which refuses what lies below
bit `failBelow`. -/
def guarded (failBelow : Nat) : List Slot :=
  [.inr ⟨5, 0x16, 0, []⟩, .inl ⟨.little, 7, ⟨⟨#[0x5C]⟩, rfl⟩⟩, .inr ⟨12, 0x0A, failBelow, []⟩]

theorem pack_interrupted_guarded :
    bitCount (guarded 9) = 8 * (#[0x11, 0x22, 0x33] : Array Byte).size ∧
      (segments [5, 7, 12])[3]? = some ⟨2, 12, ⟨4, 8⟩⟩ ∧
      (pack #[0x11, 0x22, 0x33] (guarded 9)).outcome = refuse (.intervalOutOfRange 4 8 12) ∧
      (pack #[0x11, 0x22, 0x33] (guarded 9)).wire[0]? =
        (pack #[0x00, 0x00, 0x00] (guarded 0)).wire[0]? ∧
      (pack #[0x00, 0x00, 0x00] (guarded 0)).wire[0]? = some 0xB5 ∧
      (pack #[0x11, 0x22, 0x33] (guarded 9)).wire[1]? = some 0x22 ∧
      (pack #[0x11, 0x22, 0x33] (guarded 9)).wire[2]? = some 0x33 := by
  have hwidths : ∀ failBelow, (guarded failBelow).map ReadableField.width = [5, 7, 12] :=
    fun _ => rfl
  have hsegments : segments [5, 7, 12] =
      [⟨0, 0, ⟨5, 0⟩⟩, ⟨1, 5, ⟨3, 4⟩⟩, ⟨1, 8, ⟨4, 0⟩⟩, ⟨2, 12, ⟨4, 8⟩⟩, ⟨2, 16, ⟨8, 0⟩⟩] := by
    decide
  have hanswers : ∀ failBelow,
      Answers (guarded failBelow) (segments [5, 7, 12]) [0x16, 0x05, 0x0C] := by
    rw [hsegments]
    exact fun failBelow => fun
      | 0, _ => rfl
      | 1, _ => rfl
      | 2, _ => rfl
  have hall : Answers (guarded 0) (segments [5, 7, 12]) [0x16, 0x05, 0x0C, 0x0A, 0x0A] := by
    rw [hsegments]
    exact fun
      | 0, _ => rfl
      | 1, _ => rfl
      | 2, _ => rfl
      | 3, _ => rfl
      | 4, _ => rfl
  have hthird : (segments [5, 7, 12])[3]? = some ⟨2, 12, ⟨4, 8⟩⟩ := by rw [hsegments]; rfl
  obtain ⟨houtcome, -, hkept, hfull, -⟩ :=
    pack_interrupted #[0x11, 0x22, 0x33] (guarded 9) rfl (by decide) (hanswers 9) hthird
      (by rw [hwidths, hsegments]; rfl)
  have hcount : bitCount (guarded 0) = 8 * (#[0x00, 0x00, 0x00] : Array Byte).size := rfl
  obtain ⟨hok, -, hbytes⟩ := pack_of_all_answers hcount (by decide)
    (congrArg segments (hwidths 0)) hall (by rw [hsegments]; rfl)
  have hfirst := hfull #[0x00, 0x00, 0x00] (guarded 0) rfl rfl (hanswers 0) hok 0 (by decide)
  refine ⟨rfl, hthird, houtcome, hfirst, ?_, hkept 1 (by decide), hkept 2 (by decide)⟩
  rw [hbytes 0 (by decide), hsegments]
  decide

end Bitfield.Wire
