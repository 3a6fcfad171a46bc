import Bitfield.Proofs.Wire.Value
import Bitfield.Wire.Chunks
import Mathlib.Algebra.Order.BigOperators.Group.List
import Mathlib.Data.List.Basic

/-! Segments: a wire is cut at every end of a byte and at every end of a field, and each part between
two cuts next to each other is a segment. The chunks of the fields, in the order in which they are
moved, are exactly these segments. -/

namespace Bitfield.Wire

/-- A part of a wire in one byte and one field: the field, the first bit, and the chunk of the field
that lies there. -/
structure Segment where
  field : Nat
  start : Nat
  chunk : Chunk
deriving DecidableEq

namespace Segment

def stop (s : Segment) : Nat :=
  s.start + s.chunk.length

end Segment

/-- A bit of a wire at which a byte, or a field of one of the widths, starts or ends. -/
def IsCut (widths : List Nat) (place : Nat) : Prop :=
  place % 8 = 0 ∨ place ∈ widths.scanl (· + ·) 0

instance (widths : List Nat) (place : Nat) : Decidable (IsCut widths place) :=
  inferInstanceAs (Decidable (_ ∨ _))

/-- The cuts of a wire that fields of the given widths share, in order. -/
def cuts (widths : List Nat) : List Nat :=
  (List.range (widths.sum + 1)).filter fun place => IsCut widths place

/-- The number of the field that bit `place` of a wire belongs to. -/
def fieldAt : List Nat → Nat → Nat
  | [], _ => 0
  | width :: rest, place => if place < width then 0 else fieldAt rest (place - width) + 1

def fieldEnd (widths : List Nat) (index : Nat) : Nat :=
  (widths.take (index + 1)).sum

/-- The part of a wire from one cut to the next. -/
def segmentBetween (widths : List Nat) (start stop : Nat) : Segment :=
  let field := fieldAt widths start
  ⟨field, start, ⟨stop - start, fieldEnd widths field - stop⟩⟩

/-- The segments of a wire that fields of the given widths share, in order. -/
def segments (widths : List Nat) : List Segment :=
  List.zipWith (segmentBetween widths) (cuts widths) (cuts widths).tail

/-- The chunks of a field that ends at bit `finish` of a wire, as segments. -/
def ofChunks (field finish : Nat) (list : List Chunk) : List Segment :=
  list.map fun chunk => ⟨field, finish - (chunk.offset + chunk.length), chunk⟩

/-- The chunks of fields from bit `position` of a wire on, as segments. -/
def plan (index position : Nat) : List Nat → List Segment
  | [] => []
  | width :: rest =>
    ofChunks index (position + width) (chunks position width) ++
      plan (index + 1) (position + width) rest

/-- Segments that follow each other without a gap from one bit to another, each in one byte. -/
def Tiles : Nat → Nat → List Segment → Prop
  | start, finish, [] => start = finish
  | start, finish, s :: rest =>
    s.start = start ∧ 0 < s.chunk.length ∧ start % 8 + s.chunk.length ≤ 8 ∧
      Tiles s.stop finish rest

theorem Tiles.append {start middle finish : Nat} {left right : List Segment}
    (hleft : Tiles start middle left) (hright : Tiles middle finish right) :
    Tiles start finish (left ++ right) := by
  induction left generalizing start with
  | nil =>
      rw [Tiles] at hleft
      rwa [hleft, List.nil_append]
  | cons s left ih =>
      obtain ⟨hstart, hpos, hbyte, hrest⟩ := hleft
      exact ⟨hstart, hpos, hbyte, ih hrest⟩

theorem Tiles.le {start finish : Nat} {list : List Segment} (h : Tiles start finish list) :
    start ≤ finish := by
  induction list generalizing start with
  | nil => exact Nat.le_of_eq h
  | cons s list ih =>
      obtain ⟨hstart, -, -, hrest⟩ := h
      have := ih hrest
      rw [Segment.stop] at this
      omega

theorem Tiles.start_le {start finish : Nat} {list : List Segment} (h : Tiles start finish list) :
    ∀ s ∈ list, start ≤ s.start := by
  induction list generalizing start with
  | nil => exact fun _ hs => absurd hs List.not_mem_nil
  | cons t rest ih =>
      obtain ⟨rfl, -, -, hrest⟩ := h
      intro s hs
      rcases List.mem_cons.1 hs with rfl | hs
      · exact Nat.le_refl _
      · exact Nat.le_of_add_right_le (ih hrest s hs)

theorem Tiles.drop {start finish : Nat} {list : List Segment} (h : Tiles start finish list)
    {count : Nat} {s : Segment} (hget : list[count]? = some s) :
    Tiles s.start finish (list.drop count) := by
  induction count generalizing start list with
  | zero =>
      cases list with
      | nil => cases hget
      | cons t rest =>
          cases hget
          obtain ⟨rfl, -⟩ := id h
          exact h
  | succ count ih =>
      cases list with
      | nil => cases hget
      | cons t rest =>
          obtain ⟨-, -, -, hrest⟩ := h
          exact ih hrest hget

/-- The segments before one of them end where it starts. -/
theorem Tiles.take {start finish : Nat} {list : List Segment} (h : Tiles start finish list)
    {count : Nat} {s : Segment} (hget : list[count]? = some s) :
    Tiles start s.start (list.take count) := by
  induction count generalizing start list with
  | zero =>
      cases list with
      | nil => cases hget
      | cons t rest =>
          cases hget
          exact h.1.symm
  | succ count ih =>
      cases list with
      | nil => cases hget
      | cons t rest =>
          obtain ⟨hstart, hpos, hbyte, hrest⟩ := h
          exact ⟨hstart, hpos, hbyte, ih hrest hget⟩

theorem Tiles.stop_le {start finish : Nat} {list : List Segment} (h : Tiles start finish list) :
    ∀ s ∈ list, s.stop ≤ finish := by
  induction list generalizing start with
  | nil => exact fun _ hs => absurd hs List.not_mem_nil
  | cons t rest ih =>
      obtain ⟨-, -, -, hrest⟩ := h
      intro s hs
      rcases List.mem_cons.1 hs with rfl | hs
      · exact hrest.le
      · exact ih hrest s hs

/-- Segments without a gap hold exactly the bits from the first to the last. -/
theorem Tiles.covers {start finish : Nat} {list : List Segment} (h : Tiles start finish list)
    (place : Nat) :
    (∃ s ∈ list, s.start ≤ place ∧ place < s.stop) ↔ start ≤ place ∧ place < finish := by
  induction list generalizing start with
  | nil =>
      obtain rfl : start = finish := h
      simp only [List.not_mem_nil, false_and, exists_false, false_iff]
      omega
  | cons s list ih =>
      obtain ⟨hstart, hpos, -, hrest⟩ := h
      have hstop := hrest.le
      simp only [List.mem_cons, exists_eq_or_imp, ih hrest]
      rw [Segment.stop] at hstop ⊢
      omega

theorem tiles_ofChunks (field position remaining : Nat) :
    Tiles position (position + remaining)
      (ofChunks field (position + remaining) (chunks position remaining)) := by
  induction remaining using Nat.strongRecOn generalizing position with
  | ind remaining ih =>
      rcases Nat.eq_zero_or_pos remaining with rfl | hpos
      · rw [chunks_zero]
        exact rfl
      · rw [chunks_of_pos _ hpos]
        generalize htake : min (8 - position % 8) remaining = take
        have hpos' : 0 < take := by omega
        have hbyte : position % 8 + take ≤ 8 := by omega
        have hfinish : position + take + (remaining - take) = position + remaining := by omega
        have hstart : position + remaining - (remaining - take + take) = position := by omega
        have hrest := ih (remaining - take) (by omega) (position + take)
        rw [hfinish] at hrest
        refine ⟨hstart, hpos', hbyte, ?_⟩
        rw [Segment.stop]
        simp only [hstart]
        exact hrest

theorem tiles_plan (index position : Nat) (widths : List Nat) :
    Tiles position (position + widths.sum) (plan index position widths) := by
  induction widths generalizing index position with
  | nil => exact rfl
  | cons width rest ih =>
      rw [List.sum_cons, ← Nat.add_assoc]
      exact (tiles_ofChunks index position width).append (ih (index + 1) (position + width))

theorem mem_ofChunks {field position width : Nat} {s : Segment}
    (h : s ∈ ofChunks field (position + width) (chunks position width)) :
    s.field = field ∧ position ≤ s.start ∧ 0 < s.chunk.length ∧ s.chunk.length ≤ 8 ∧
      s.stop + s.chunk.offset = position + width := by
  obtain ⟨chunk, hchunk, rfl⟩ := List.mem_map.1 h
  have := bounds_of_mem_chunks hchunk
  refine ⟨rfl, ?_, this.1, this.2.1, ?_⟩
  · simp only
    omega
  · simp only [Segment.stop]
    omega

theorem le_of_mem_scanl {widths : List Nat} {start place : Nat}
    (h : place ∈ widths.scanl (· + ·) start) : start ≤ place := by
  induction widths generalizing start with
  | nil =>
      rw [List.scanl_nil, List.mem_singleton] at h
      exact Nat.le_of_eq h.symm
  | cons width rest ih =>
      rw [List.scanl_cons, List.mem_cons] at h
      rcases h with rfl | h
      · exact Nat.le_refl _
      · exact Nat.le_of_add_right_le (ih h)

theorem start_mem_scanl (widths : List Nat) (start : Nat) :
    start ∈ widths.scanl (· + ·) start := by
  cases widths <;> simp

/-- A chunk has no cut inside and one at its end. -/
theorem filter_cut_field (cut : Nat → Prop) [DecidablePred cut] (field position width : Nat)
    (hcut : ∀ place, position < place → place ≤ position + width →
      (cut place ↔ place % 8 = 0 ∨ place = position + width)) :
    (List.range' (position + 1) width).filter cut =
      (ofChunks field (position + width) (chunks position width)).map Segment.stop := by
  induction width using Nat.strongRecOn generalizing position with
  | ind width ih =>
      rcases Nat.eq_zero_or_pos width with rfl | hpos
      · rw [chunks_zero]
        rfl
      · rw [chunks_of_pos _ hpos]
        generalize htake : min (8 - position % 8) width = take
        obtain ⟨before, rfl⟩ : ∃ before, take = before + 1 := ⟨take - 1, by omega⟩
        have hnone : (List.range' (position + 1) before).filter cut = [] := by
          rw [List.filter_eq_nil_iff]
          intro place hplace
          rw [List.mem_range'_1] at hplace
          rw [decide_eq_true_eq, hcut place (by omega) (by omega)]
          omega
        have hlast : cut (position + 1 + before) := by
          rw [hcut _ (by omega) (by omega)]
          omega
        have hrest := ih (width - (before + 1)) (by omega) (position + (before + 1))
          (fun place hlow hhigh => by rw [hcut place (by omega) (by omega)]; omega)
        have hfinish : position + (before + 1) + (width - (before + 1)) = position + width := by omega
        rw [hfinish] at hrest
        have hsplit : List.range' (position + 1) width =
            List.range' (position + 1) before ++ [position + 1 + before] ++
              List.range' (position + (before + 1) + 1) (width - (before + 1)) := by
          have hconcat : List.range' (position + 1) before ++ [position + 1 + before] =
              List.range' (position + 1) (before + 1) := by
            rw [List.range'_concat, Nat.one_mul]
          have hnext : position + (before + 1) + 1 = position + 1 + (before + 1) := by omega
          have hwidth : before + 1 + (width - (before + 1)) = width := by omega
          rw [hconcat, hnext, List.range'_append_1, hwidth]
        have hstop : position + 1 + before =
            position + width - (width - (before + 1) + (before + 1)) + (before + 1) := by
          omega
        rw [hsplit, List.filter_append, List.filter_append, hnone, List.nil_append,
          List.filter_singleton, decide_eq_true hlast, cond_true, hrest, List.singleton_append, hstop]
        rfl

/-- What a cut is stays fixed while the fields still to come get fewer. -/
theorem filter_cut_fields (cut : Nat → Prop) [DecidablePred cut] (index position : Nat)
    (widths : List Nat)
    (hcut : ∀ place, position < place → place ≤ position + widths.sum →
      (cut place ↔ place % 8 = 0 ∨ place ∈ widths.scanl (· + ·) position)) :
    (List.range' (position + 1) widths.sum).filter cut =
      (plan index position widths).map Segment.stop := by
  induction widths generalizing index position with
  | nil => rfl
  | cons width rest ih =>
      rw [List.sum_cons] at hcut ⊢
      have hhead := filter_cut_field cut index position width fun place hlow hhigh => by
        rw [hcut place hlow (by omega), List.scanl_cons, List.mem_cons]
        constructor
        · rintro (hbyte | rfl | hbound)
          · exact Or.inl hbyte
          · omega
          · exact Or.inr (Nat.le_antisymm hhigh (le_of_mem_scanl hbound))
        · rintro (hbyte | rfl)
          · exact Or.inl hbyte
          · exact Or.inr (Or.inr (start_mem_scanl rest _))
      have htail := ih (index + 1) (position + width) fun place hlow hhigh => by
        rw [hcut place (by omega) (by omega), List.scanl_cons, List.mem_cons]
        constructor
        · rintro (hbyte | rfl | hbound)
          · exact Or.inl hbyte
          · omega
          · exact Or.inr hbound
        · rintro (hbyte | hbound)
          · exact Or.inl hbyte
          · exact Or.inr (Or.inr hbound)
      rw [plan, List.map_append, ← hhead, ← htail, ← List.filter_append,
        Nat.add_right_comm position width 1, List.range'_append_1]

/-- The cuts of a wire are its start and the ends of the chunks. -/
theorem cuts_eq (widths : List Nat) :
    cuts widths = 0 :: (plan 0 0 widths).map Segment.stop := by
  have hcuts := filter_cut_fields (IsCut widths) 0 0 widths fun _ _ _ => Iff.rfl
  have hstart : IsCut widths 0 := Or.inl rfl
  rw [cuts, List.range_eq_range', List.range'_succ, List.filter_cons,
    if_pos (decide_eq_true hstart), ← hcuts]

/-- Segments without a gap lie between the starts and the ends next to each other. -/
theorem Tiles.zipWith_eq {start finish : Nat} {list : List Segment} (h : Tiles start finish list)
    (between : Nat → Nat → Segment) :
    List.zipWith between (start :: list.map Segment.stop) (list.map Segment.stop) =
      list.map fun s => between s.start s.stop := by
  induction list generalizing start with
  | nil => rfl
  | cons s list ih =>
      obtain ⟨rfl, -, -, hrest⟩ := h
      rw [List.map_cons, List.zipWith_cons_cons, ih hrest, List.map_cons]

theorem fieldAt_append (before : List Nat) {width place : Nat} (rest : List Nat)
    (hlow : before.sum ≤ place) (hhigh : place < before.sum + width) :
    fieldAt (before ++ width :: rest) place = before.length := by
  induction before generalizing place with
  | nil =>
      rw [List.sum_nil, Nat.zero_add] at hhigh
      rw [List.nil_append, fieldAt, if_pos hhigh]
      rfl
  | cons first before ih =>
      rw [List.sum_cons] at hlow hhigh
      rw [List.cons_append, fieldAt, if_neg (by omega), ih (by omega) (by omega), List.length_cons]

theorem fieldEnd_append (before : List Nat) (width : Nat) (rest : List Nat) :
    fieldEnd (before ++ width :: rest) before.length = before.sum + width := by
  rw [fieldEnd, List.take_length_add_append, List.take_succ_cons, List.take_zero, List.sum_append,
    List.sum_singleton]

theorem segmentBetween_of_mem_plan (before : List Nat) {widths : List Nat} {s : Segment}
    (h : s ∈ plan before.length before.sum widths) :
    segmentBetween (before ++ widths) s.start s.stop = s := by
  induction widths generalizing before with
  | nil => cases h
  | cons width rest ih =>
      rcases List.mem_append.1 h with h | h
      · obtain ⟨hfield, hlow, hpos, -, hfinish⟩ := mem_ofChunks h
        have hat : fieldAt (before ++ width :: rest) s.start = before.length := by
          apply fieldAt_append before rest hlow
          rw [Segment.stop] at hfinish
          omega
        obtain ⟨field, start, length, offset⟩ := s
        simp only [Segment.stop] at hfield hfinish hat ⊢
        have hoffset : before.sum + width - (start + length) = offset := by omega
        rw [segmentBetween, hat, fieldEnd_append, hoffset, Nat.add_sub_cancel_left, hfield]
      · have hlength : before.length + 1 = (before ++ [width]).length := by
          rw [List.length_append, List.length_singleton]
        have hsum : before.sum + width = (before ++ [width]).sum := by
          rw [List.sum_append, List.sum_singleton]
        rw [hlength, hsum] at h
        have := ih (before ++ [width]) h
        rwa [List.append_assoc, List.singleton_append] at this

/-- The segments of a wire are the chunks of the fields in the order in which they are moved. -/
theorem segments_eq_plan (widths : List Nat) : segments widths = plan 0 0 widths := by
  rw [segments, cuts_eq, List.tail_cons, (tiles_plan 0 0 widths).zipWith_eq]
  conv_rhs => rw [← List.map_id (plan 0 0 widths)]
  exact List.map_congr_left fun s hs => segmentBetween_of_mem_plan [] hs

/-- The segments of a wire follow each other from its first bit to its last. -/
theorem tiles_segments (widths : List Nat) : Tiles 0 widths.sum (segments widths) := by
  have htiles := tiles_plan 0 0 widths
  rwa [Nat.zero_add, ← segments_eq_plan] at htiles

theorem tiles_of_bitCount {φ : Type} [ReadableField φ] {fields : List φ} {size : Nat}
    (hcount : bitCount fields = 8 * size) :
    Tiles 0 (8 * size) (segments (fields.map ReadableField.width)) := by
  rw [← hcount, bitCount_eq_sum]
  exact tiles_segments _

/-- Chunks that cover the lowest `width` bits of a field exactly once, from the top bit down. -/
def CoversDown : Nat → List Chunk → Prop
  | width, [] => width = 0
  | width, chunk :: rest =>
    0 < chunk.length ∧ chunk.offset + chunk.length = width ∧ CoversDown chunk.offset rest

theorem CoversDown.eq_nil {list : List Chunk} (h : CoversDown 0 list) : list = [] := by
  cases list with
  | nil => rfl
  | cons chunk rest =>
      obtain ⟨hpos, hsum, -⟩ := h
      omega

theorem chunks_coversDown (position remaining : Nat) :
    CoversDown remaining (chunks position remaining) := by
  induction remaining using Nat.strongRecOn generalizing position with
  | ind remaining ih =>
      rcases Nat.eq_zero_or_pos remaining with rfl | hpos
      · rw [chunks_zero]
        exact rfl
      · rw [chunks_of_pos _ hpos]
        generalize htake : min (8 - position % 8) remaining = take
        have hpos' : 0 < take := by omega
        have hsum : remaining - take + take = remaining := by omega
        exact ⟨hpos', hsum, ih (remaining - take) (by omega) (position + take)⟩

theorem mem_plan {index position : Nat} {widths : List Nat} {s : Segment}
    (h : s ∈ plan index position widths) :
    index ≤ s.field ∧ s.field < index + widths.length ∧ 0 < s.chunk.length ∧
      s.chunk.length ≤ 8 ∧ s.stop ≤ position + widths.sum := by
  induction widths generalizing index position with
  | nil => cases h
  | cons width rest ih =>
      rw [List.length_cons, List.sum_cons]
      rcases List.mem_append.1 h with h | h
      · obtain ⟨hfield, -, hpos, hlength, hfinish⟩ := mem_ofChunks h
        exact ⟨by omega, by omega, hpos, hlength, by omega⟩
      · obtain ⟨hlow, hhigh, hpos, hlength, hfinish⟩ := ih h
        exact ⟨by omega, by omega, hpos, hlength, by omega⟩

/-- A segment belongs to one of the fields, has one to eight bits and lies on the wire. -/
theorem mem_segments {widths : List Nat} {s : Segment} (h : s ∈ segments widths) :
    s.field < widths.length ∧ 0 < s.chunk.length ∧ s.chunk.length ≤ 8 ∧ s.stop ≤ widths.sum := by
  rw [segments_eq_plan] at h
  obtain ⟨-, hfield, hpos, hlength, hfinish⟩ := mem_plan h
  rw [Nat.zero_add] at hfield hfinish
  exact ⟨hfield, hpos, hlength, hfinish⟩

theorem field_lt_length {φ : Type} {width : φ → Nat} {fields : List φ} {s : Segment}
    (h : s ∈ segments (fields.map width)) : s.field < fields.length := by
  have hfield := (mem_segments h).1
  rwa [List.length_map] at hfield

theorem bounds_of_mem_plan {index position : Nat} {widths : List Nat} {s : Segment}
    (h : s ∈ plan index position widths) :
    ∃ count, s.field = index + count ∧ position + (widths.take count).sum ≤ s.start ∧
      s.stop + s.chunk.offset = position + (widths.take (count + 1)).sum := by
  induction widths generalizing index position with
  | nil => cases h
  | cons width rest ih =>
      rcases List.mem_append.1 h with h | h
      · obtain ⟨hfield, hlow, -, -, hfinish⟩ := mem_ofChunks h
        exact ⟨0, hfield, by simpa using hlow, by simpa using hfinish⟩
      · obtain ⟨count, hfield, hlow, hfinish⟩ := ih h
        refine ⟨count + 1, by omega, ?_, ?_⟩
        · rw [List.take_succ_cons, List.sum_cons]
          omega
        · rw [List.take_succ_cons, List.sum_cons]
          omega

/-- A segment lies in its field, with as many bits of the field after it as its offset says. -/
theorem bounds_of_mem_segments {widths : List Nat} {s : Segment} (h : s ∈ segments widths) :
    (widths.take s.field).sum ≤ s.start ∧
      s.stop + s.chunk.offset = (widths.take (s.field + 1)).sum := by
  rw [segments_eq_plan] at h
  obtain ⟨count, hfield, hlow, hfinish⟩ := bounds_of_mem_plan h
  rw [Nat.zero_add] at hfield hlow hfinish
  rw [hfield]
  exact ⟨hlow, hfinish⟩

/-- Segments that start no later than another one are in no later field. -/
theorem field_le_of_start_le {widths : List Nat} {s t : Segment} (hs : s ∈ segments widths)
    (ht : t ∈ segments widths) (h : t.start ≤ s.start) : t.field ≤ s.field := by
  by_contra hlt
  have hle : s.field + 1 ≤ t.field := Nat.lt_of_not_le hlt
  have hmono := List.monotone_sum_take widths hle
  have hpos := (mem_segments hs).2.1
  have hstop := (bounds_of_mem_segments hs).2
  have hstart := (bounds_of_mem_segments ht).1
  simp only [Segment.stop] at hstop hmono
  omega

/-- The segments up to one of them are in no later field. -/
theorem field_le_of_mem_take {widths : List Nat} {count : Nat} {s t : Segment}
    (hget : (segments widths)[count]? = some s) (ht : t ∈ (segments widths).take (count + 1)) :
    t.field ≤ s.field := by
  have htiles := tiles_segments widths
  obtain ⟨hlt, rfl⟩ := List.getElem?_eq_some_iff.1 hget
  rw [List.take_succ_eq_append_getElem hlt, List.mem_append, List.mem_singleton] at ht
  rcases ht with ht | rfl
  · apply field_le_of_start_le (List.getElem_mem hlt) (List.mem_of_mem_take ht)
    exact (Nat.le_add_right _ _).trans ((htiles.take hget).stop_le t ht)
  · exact Nat.le_refl _

theorem filter_field_plan (index position : Nat) {widths : List Nat} {count : Nat}
    (h : count < widths.length) :
    ((plan index position widths).filter fun s => s.field = index + count).map Segment.chunk =
      chunks (position + (widths.take count).sum) widths[count] := by
  induction widths generalizing index position count with
  | nil => cases h
  | cons width rest ih =>
      rw [plan, List.filter_append, List.map_append]
      cases count with
      | zero =>
          have hhead : (ofChunks index (position + width) (chunks position width)).filter
              (fun s => s.field = index + 0) =
              ofChunks index (position + width) (chunks position width) := by
            rw [List.filter_eq_self]
            intro s hs
            exact decide_eq_true (mem_ofChunks hs).1
          have htail : (plan (index + 1) (position + width) rest).filter
              (fun s => s.field = index + 0) = [] := by
            rw [List.filter_eq_nil_iff]
            intro s hs
            have := (mem_plan hs).1
            rw [decide_eq_true_eq]
            omega
          rw [hhead, htail, List.map_nil, List.append_nil, ofChunks, List.map_map]
          exact List.map_id _
      | succ count =>
          have hhead : (ofChunks index (position + width) (chunks position width)).filter
              (fun s => s.field = index + (count + 1)) = [] := by
            rw [List.filter_eq_nil_iff]
            intro s hs
            have := (mem_ofChunks hs).1
            rw [decide_eq_true_eq]
            omega
          have htail := ih (index + 1) (position + width) (Nat.lt_of_succ_lt_succ h)
          have hindex : index + 1 + count = index + (count + 1) := by omega
          rw [hindex, Nat.add_assoc] at htail
          rw [hhead, List.map_nil, List.nil_append, htail, List.take_succ_cons, List.sum_cons]
          rfl

/-- The segments of a field cover its bits exactly once, from the top bit down; a field without bits
has none. -/
theorem segments_coversDown {widths : List Nat} {index : Nat} (h : index < widths.length) :
    CoversDown widths[index]
      (((segments widths).filter fun s => s.field = index).map Segment.chunk) := by
  have hfield := filter_field_plan 0 0 h
  rw [Nat.zero_add] at hfield
  rw [segments_eq_plan, hfield]
  exact chunks_coversDown _ _

/-- A field of eleven bits goes on in a second byte, and one without bits has no segment. -/
example : segments [3, 0, 11, 2] =
    [⟨0, 0, ⟨3, 0⟩⟩, ⟨2, 3, ⟨5, 6⟩⟩, ⟨2, 8, ⟨6, 0⟩⟩, ⟨3, 14, ⟨2, 0⟩⟩] := by
  decide

end Bitfield.Wire
