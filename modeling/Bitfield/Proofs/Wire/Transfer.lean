import Bitfield.Proofs.Wire.Segments

/-! Transfers, whatever their direction. A transfer visits its fields one after the other and each of
them chunk by chunk; said once for any step that handles one chunk, it handles the segments of the
wire in order and stops at the first one that fails. What it asks of the fields and how it ends
follow from how the fields answer, which may depend on all requests before. -/

namespace Bitfield.Wire

section Requests

variable {φ α : Type} (answer : φ → Segment → Outcome α × φ)

/-- What the field of a segment answers to a request for it. -/
def replyTo (fields : List φ) (s : Segment) : Option (Outcome α) :=
  fields[s.field]?.map fun field => (answer field s).1

/-- The fields after requests for segments, made in order and whatever was answered. -/
def fieldsAfter (fields : List φ) (made : List Segment) : List φ :=
  made.foldl (fun fields s => fields.modify s.field fun field => (answer field s).2) fields

/-- What the field of segment `count` answers once all segments before it were requested. -/
def replyAt (fields : List φ) (list : List Segment) (count : Nat) : Option (Outcome α) :=
  list[count]?.bind (replyTo answer (fieldsAfter answer fields (list.take count)))

/-- The first request that fails is the one for segment `count`. -/
def FailsAt (fields : List φ) (list : List Segment) (count : Nat) (e : Failure) : Prop :=
  (∀ i < count, ∃ a, replyAt answer fields list i = some (.ok a)) ∧
    replyAt answer fields list count = some (.error e)

/-- A transfer makes the requests for segments in order, all of them or up to the first one that
fails, and ends as they do. -/
inductive Follows {β : Type} (request : Segment → β) (list : List Segment) (fields : List φ) :
    Outcome Unit → List β → List φ → Prop where
  | complete (hall : ∀ i < list.length, ∃ a, replyAt answer fields list i = some (.ok a)) :
      Follows request list fields (.ok ()) (list.map request) (fieldsAfter answer fields list)
  | stopped (count : Nat) (e : Failure)
      (hbefore : ∀ i < count, ∃ a, replyAt answer fields list i = some (.ok a))
      (hlast : replyAt answer fields list count = some (.error e)) :
      Follows request list fields (.error e) ((list.take (count + 1)).map request)
        (fieldsAfter answer fields (list.take (count + 1)))

/-- Where requests for segments that end at bit `finish` of a wire come to an end: with the outcome of
the transfer, the segments whose requests were answered, and the bit of the wire behind them. -/
inductive EndsAt (list : List Segment) (fields : List φ) (finish : Nat) :
    Outcome Unit → List Segment → Nat → Prop where
  | complete (hall : ∀ i < list.length, ∃ a, replyAt answer fields list i = some (.ok a)) :
      EndsAt list fields finish (.ok ()) list finish
  | stopped (count : Nat) {s : Segment} {e : Failure} (hget : list[count]? = some s)
      (hfails : FailsAt answer fields list count e) :
      EndsAt list fields finish (.error e) (list.take count) s.start

theorem fieldsAfter_singleton {fields : List φ} {s : Segment} {field : φ}
    (h : fields[s.field]? = some field) :
    fieldsAfter answer fields [s] = fields.set s.field (answer field s).2 := by
  rw [fieldsAfter, List.foldl_cons, List.foldl_nil, List.modify_eq_set_getElem?, h]
  rfl

/-- Requests for segments in other fields leave a field as it was. -/
theorem getElem?_fieldsAfter_of_ne (fields : List φ) {made : List Segment} {i : Nat}
    (h : ∀ s ∈ made, s.field ≠ i) : (fieldsAfter answer fields made)[i]? = fields[i]? := by
  induction made generalizing fields with
  | nil => rfl
  | cons s rest ih =>
      have hrest := ih (fieldsAfter answer fields [s]) fun t ht => h t (List.mem_cons_of_mem s ht)
      have hhead := List.getElem?_modify_ne (fun field => (answer field s).2) fields
        (h s List.mem_cons_self)
      exact hrest.trans hhead

/-- After one more request its field has answered it. -/
theorem fieldsAfter_take_succ (fields : List φ) {list : List Segment} {count : Nat} {s : Segment}
    (h : list[count]? = some s) :
    fieldsAfter answer fields (list.take (count + 1)) =
      fieldsAfter answer (fieldsAfter answer fields (list.take count)) [s] := by
  obtain ⟨hlt, rfl⟩ := List.getElem?_eq_some_iff.1 h
  rw [List.take_succ_eq_append_getElem hlt, fieldsAfter, List.foldl_append]
  rfl

theorem replyTo_of_getElem? {fields : List φ} {s : Segment} {field : φ}
    (h : fields[s.field]? = some field) :
    replyTo answer fields s = some (answer field s).1 := by
  rw [replyTo, h, Option.map_some]

variable {answer} {β : Type} {request : Segment → β}

theorem Follows.nil (fields : List φ) : Follows answer request [] fields (.ok ()) [] fields :=
  .complete fun _ hi => absurd hi (Nat.not_lt_zero _)

theorem Follows.cons {fields after : List φ} {s : Segment} {rest : List Segment} {a : α}
    {outcome : Outcome Unit} {made : List β} (hreply : replyTo answer fields s = some (.ok a))
    (h : Follows answer request rest (fieldsAfter answer fields [s]) outcome made after) :
    Follows answer request (s :: rest) fields outcome (request s :: made) after := by
  have hanswered : ∀ count,
      (∀ i < count, ∃ a, replyAt answer (fieldsAfter answer fields [s]) rest i = some (.ok a)) →
      ∀ i < count + 1, ∃ a, replyAt answer fields (s :: rest) i = some (.ok a) := by
    intro count hrest i hi
    cases i with
    | zero => exact ⟨a, hreply⟩
    | succ i => exact hrest i (Nat.lt_of_succ_lt_succ hi)
  cases h with
  | complete hall => exact .complete (hanswered rest.length hall)
  | stopped count e hbefore hlast => exact .stopped (count + 1) e (hanswered count hbefore) hlast

theorem Follows.of_error {fields : List φ} {s : Segment} (rest : List Segment) {e : Failure}
    (hreply : replyTo answer fields s = some (.error e)) :
    Follows answer request (s :: rest) fields (.error e) [request s]
      (fieldsAfter answer fields [s]) :=
  .stopped 0 e (fun _ hi => absurd hi (Nat.not_lt_zero _)) hreply

theorem Follows.of_answered {fields after : List φ} {list : List Segment} {outcome : Outcome Unit}
    {made : List β} (h : Follows answer request list fields outcome made after)
    (hall : ∀ i < list.length, ∃ a, replyAt answer fields list i = some (.ok a)) :
    outcome = .ok () ∧ made = list.map request ∧ after = fieldsAfter answer fields list := by
  cases h with
  | complete _ => exact ⟨rfl, rfl, rfl⟩
  | stopped count e _ hlast =>
      have hcount : count < list.length := by
        by_contra hge
        rw [replyAt, List.getElem?_eq_none (Nat.le_of_not_lt hge)] at hlast
        cases hlast
      obtain ⟨a, ha⟩ := hall count hcount
      have := ha.symm.trans hlast
      cases this

/-- A request that fails after all before it were answered is the last one made. -/
theorem Follows.of_failed {fields after : List φ} {list : List Segment} {outcome : Outcome Unit}
    {made : List β} (h : Follows answer request list fields outcome made after) (count : Nat)
    {e : Failure} (hbefore : ∀ i < count, ∃ a, replyAt answer fields list i = some (.ok a))
    (hlast : replyAt answer fields list count = some (.error e)) :
    outcome = .error e ∧ made = (list.take (count + 1)).map request ∧
      after = fieldsAfter answer fields (list.take (count + 1)) := by
  have hcount : ∀ i, (∃ a, replyAt answer fields list i = some (.ok a)) → i ≠ count := by
    rintro i ⟨a, ha⟩ rfl
    have := ha.symm.trans hlast
    cases this
  cases h with
  | complete hall =>
      by_cases hlt : count < list.length
      · exact absurd rfl (hcount count (hall count hlt))
      · rw [replyAt, List.getElem?_eq_none (Nat.le_of_not_lt hlt)] at hlast
        cases hlast
  | stopped other f hother hfailed =>
      obtain hlt | rfl | hgt := Nat.lt_trichotomy other count
      · obtain ⟨a, ha⟩ := hbefore other hlt
        have := ha.symm.trans hfailed
        cases this
      · have := hlast.symm.trans hfailed
        cases this
        exact ⟨rfl, rfl, rfl⟩
      · exact absurd rfl (hcount count (hother count hgt))

theorem Follows.answered {fields after : List φ} {list : List Segment} {outcome : Outcome Unit}
    {made : List β} (h : Follows answer request list fields outcome made after)
    (hok : outcome = .ok ()) :
    ∀ i < list.length, ∃ a, replyAt answer fields list i = some (.ok a) := by
  cases h with
  | complete hall => exact hall
  | stopped count e hbefore hlast => cases hok

theorem Follows.exists_endsAt {fields after : List φ} {list : List Segment} {outcome : Outcome Unit}
    {made : List β} (h : Follows answer request list fields outcome made after) (finish : Nat) :
    ∃ done place, EndsAt answer list fields finish outcome done place := by
  cases h with
  | complete hall => exact ⟨list, finish, .complete hall⟩
  | stopped count e hbefore hlast =>
      obtain ⟨s, hget, -⟩ := Option.bind_eq_some_iff.1 hlast
      exact ⟨list.take count, s.start, .stopped count hget ⟨hbefore, hlast⟩⟩

/-- The segments that were answered lie in front of the place without a gap. -/
theorem EndsAt.tiles {fields : List φ} {list done : List Segment} {start finish place : Nat}
    {outcome : Outcome Unit} (h : EndsAt answer list fields finish outcome done place)
    (htiles : Tiles start finish list) : Tiles start place done := by
  cases h with
  | complete hall => exact htiles
  | stopped count hget hfails => exact htiles.take hget

theorem EndsAt.place_le {fields : List φ} {list done : List Segment} {start finish place : Nat}
    {outcome : Outcome Unit} (h : EndsAt answer list fields finish outcome done place)
    (htiles : Tiles start finish list) : place ≤ finish := by
  cases h with
  | complete hall => exact Nat.le_refl _
  | stopped count hget hfails => exact (htiles.drop hget).le

/-- A transfer whose requests never fail gets through. -/
theorem Follows.eq_ok {fields after : List φ} {list : List Segment} {outcome : Outcome Unit}
    {made : List β} (h : Follows answer request list fields outcome made after)
    (hnone : ∀ i e, replyAt answer fields list i ≠ some (.error e)) : outcome = .ok () := by
  cases h with
  | complete _ => rfl
  | stopped count e _ hlast => exact absurd hlast (hnone count e)

end Requests

section Visits

variable {φ σ : Type} (step : Nat → Chunk → φ → σ → Outcome Unit × φ × σ)

/-- Handles the chunks of one field, up to the first failure. -/
def visitChunks (index : Nat) : List Chunk → φ → σ → Outcome Unit × φ × σ
  | [], field, st => (.ok (), field, st)
  | chunk :: rest, field, st =>
    match step index chunk field st with
    | (.error e, field, st) => (.error e, field, st)
    | (.ok (), field, st) => visitChunks index rest field st

def visitSegments : List Segment → List φ → σ → Outcome Unit × List φ × σ
  | [], fields, st => (.ok (), fields, st)
  | s :: rest, fields, st =>
    match fields[s.field]? with
    | none => (.ok (), fields, st)
    | some field =>
      match step s.field s.chunk field st with
      | (.error e, field, st) => (.error e, fields.set s.field field, st)
      | (.ok (), field, st) => visitSegments rest (fields.set s.field field) st

variable (width : φ → Nat) (position : σ → Nat)

/-- Handles the chunks of fields one after the other, up to the first failure. -/
def visitFields (index : Nat) : List φ → σ → Outcome Unit × List φ × σ
  | [], st => (.ok (), [], st)
  | field :: rest, st =>
    match visitChunks step index (chunks (position st) (width field)) field st with
    | (.error e, field, st) => (.error e, field :: rest, st)
    | (.ok (), field, st) =>
      let (outcome, rest, st) := visitFields (index + 1) rest st
      (outcome, field :: rest, st)

/-- Any function that handles the chunks of the first field, and unless this failed goes on with the
others, handles the fields one after the other. -/
theorem eq_visitFields {move : Nat → List φ → σ → Outcome Unit × List φ × σ}
    (hnil : ∀ index st, move index [] st = (.ok (), [], st))
    (hcons : ∀ index field rest st, move index (field :: rest) st =
      match visitChunks step index (chunks (position st) (width field)) field st with
      | (.error e, field, st) => (.error e, field :: rest, st)
      | (.ok (), field, st) =>
        let (outcome, rest, st) := move (index + 1) rest st
        (outcome, field :: rest, st))
    (index : Nat) (fields : List φ) (st : σ) :
    move index fields st = visitFields step width position index fields st := by
  induction fields generalizing index st with
  | nil => exact hnil index st
  | cons field rest ih =>
      rw [hcons, visitFields]
      rcases visitChunks step index (chunks (position st) (width field)) field st with
        ⟨outcome, after, st'⟩
      cases outcome with
      | error e => rfl
      | ok _ =>
          simp only
          rw [ih]

theorem visitSegments_ofChunks (finish : Nat) (before rest : List φ) (more : List Segment)
    (list : List Chunk) (field : φ) (st : σ) :
    visitSegments step (ofChunks before.length finish list ++ more) (before ++ field :: rest) st =
      match visitChunks step before.length list field st with
      | (.error e, field, st) => (.error e, before ++ field :: rest, st)
      | (.ok (), field, st) => visitSegments step more (before ++ field :: rest) st := by
  induction list generalizing field st with
  | nil => rfl
  | cons chunk list ih =>
      have hget : (before ++ field :: rest)[before.length]? = some field := by simp
      have hset : ∀ x, (before ++ field :: rest).set before.length x = before ++ x :: rest := by simp
      rw [ofChunks, List.map_cons, List.cons_append, visitSegments, visitChunks]
      simp only [hget, hset]
      rcases step before.length chunk field st with ⟨outcome, after, st⟩
      cases outcome with
      | error e => rfl
      | ok _ => exact ih after st

/-- A step that moves on by the length of its chunk. -/
def Advances : Prop :=
  ∀ index chunk field st after st', step index chunk field st = (.ok (), after, st') →
    position st' = position st + chunk.length

variable {step position}

theorem position_visitChunks
    (hposition : Advances step position)
    {index remaining : Nat} {list : List Chunk} (hlist : CoversDown remaining list)
    {field after : φ} {st st' : σ}
    (h : visitChunks step index list field st = (.ok (), after, st')) :
    position st' = position st + remaining := by
  induction list generalizing remaining field st with
  | nil =>
      cases h
      rw [CoversDown] at hlist
      rw [hlist, Nat.add_zero]
  | cons chunk list ih =>
      obtain ⟨-, hsum, hrest⟩ := hlist
      rw [visitChunks] at h
      split at h
      · cases h
      · rename_i hstep
        rw [ih hrest h, hposition _ _ _ _ _ _ hstep]
        omega

/-- Handling fields one after the other is handling the segments of the wire in order. The fields
already handled stay in front, since a segment names its field by its place in the list. -/
theorem visitSegments_plan
    (hposition : Advances step position)
    (before fields : List φ) (st : σ) :
    visitSegments step (plan before.length (position st) (fields.map width)) (before ++ fields) st =
      let (outcome, fields, st) := visitFields step width position before.length fields st
      (outcome, before ++ fields, st) := by
  induction fields generalizing before st with
  | nil => rfl
  | cons field rest ih =>
      rw [List.map_cons, plan, visitSegments_ofChunks, visitFields]
      cases hvisit : visitChunks step before.length (chunks (position st) (width field)) field st with
      | mk outcome result =>
          obtain ⟨after, st'⟩ := result
          cases outcome with
          | error e => rfl
          | ok _ =>
              have hlength : before.length + 1 = (before ++ [after]).length := by
                rw [List.length_append, List.length_singleton]
              have hnext := ih (before ++ [after]) st'
              rw [position_visitChunks hposition (chunks_coversDown _ _) hvisit, ← hlength] at hnext
              simp only [List.append_assoc, List.singleton_append] at hnext
              exact hnext

/-- A step that requests its segment, ends as the field answers, and after an answer is ready for the
segment that starts next. -/
structure Requests {α β : Type} (step : Nat → Chunk → φ → σ → Outcome Unit × φ × σ)
    (position : σ → Nat) (answer : φ → Segment → Outcome α × φ) (request : Segment → β)
    (made : σ → List β) (Ready : σ → Prop) (size : Nat) : Prop where
  ok : ∀ {s field st a after}, Ready st → s.start = position st → 0 < s.chunk.length →
    position st % 8 + s.chunk.length ≤ 8 → s.stop ≤ 8 * size → answer field s = (.ok a, after) →
    ∃ st', step s.field s.chunk field st = (.ok (), after, st') ∧ Ready st' ∧
      position st' = s.stop ∧ made st' = made st ++ [request s]
  error : ∀ {s field st e after}, Ready st → s.start = position st → 0 < s.chunk.length →
    position st % 8 + s.chunk.length ≤ 8 → s.stop ≤ 8 * size → answer field s = (.error e, after) →
    ∃ st', step s.field s.chunk field st = (.error e, after, st') ∧
      made st' = made st ++ [request s]

/-- Handling the segments of a wire requests them in order up to the first failure. -/
theorem Requests.follows {α β : Type} {answer : φ → Segment → Outcome α × φ}
    {request : Segment → β} {made : σ → List β} {Ready : σ → Prop} {size finish : Nat}
    (hstep : Requests step position answer request made Ready size) (hfinish : finish ≤ 8 * size)
    {list : List Segment} (fields : List φ) (st : σ) (htiles : Tiles (position st) finish list)
    (hready : Ready st) (hfields : ∀ s ∈ list, s.field < fields.length) :
    ∃ outcome after st' new, visitSegments step list fields st = (outcome, after, st') ∧
      made st' = made st ++ new ∧ Follows answer request list fields outcome new after := by
  induction list generalizing fields st with
  | nil => exact ⟨.ok (), fields, st, [], rfl, (List.append_nil _).symm, .nil fields⟩
  | cons s rest ih =>
      obtain ⟨hstart, hpos, hbyte, hrest⟩ := htiles
      have hstop := hrest.le
      obtain ⟨field, hget⟩ : ∃ field, fields[s.field]? = some field :=
        ⟨_, List.getElem?_eq_getElem (hfields s List.mem_cons_self)⟩
      have hreply := replyTo_of_getElem? answer hget
      have hone := fieldsAfter_singleton answer hget
      rw [visitSegments, hget]
      simp only
      rcases hanswer : answer field s with ⟨reply, next⟩
      rw [hanswer] at hreply hone
      simp only at hreply hone
      cases reply with
      | error e =>
          obtain ⟨st', hst', hmade⟩ := hstep.error hready hstart hpos hbyte (by omega) hanswer
          rw [hst']
          simp only [← hone]
          exact ⟨.error e, _, st', [request s], rfl, hmade, .of_error rest hreply⟩
      | ok a =>
          obtain ⟨st', hst', hready', hposition, hmade⟩ :=
            hstep.ok hready hstart hpos hbyte (by omega) hanswer
          rw [← hposition] at hrest
          obtain ⟨outcome, after, st'', new, hvisit, hnew, hfollows⟩ :=
            ih (fieldsAfter answer fields [s]) st' hrest hready' fun t ht => by
              rw [hone, List.length_set]
              exact hfields t (List.mem_cons_of_mem s ht)
          rw [hst']
          simp only [← hone]
          refine ⟨outcome, after, st'', request s :: new, hvisit, ?_, .cons hreply hfollows⟩
          rw [hnew, hmade, List.append_assoc, List.singleton_append]

/-- What the steps keep can be part of being ready. -/
theorem Requests.and {α β : Type} {answer : φ → Segment → Outcome α × φ} {request : Segment → β}
    {made : σ → List β} {Ready Also : σ → Prop} {size : Nat}
    (hstep : Requests step position answer request made Ready size)
    (hkeeps : ∀ {s : Segment} {field st after st'}, Ready st → Also st → 0 < s.chunk.length →
      position st % 8 + s.chunk.length ≤ 8 →
      step s.field s.chunk field st = (.ok (), after, st') → Also st') :
    Requests step position answer request made (fun st => Ready st ∧ Also st) size where
  ok hready hstart hpos hbyte hstop hanswer := by
    obtain ⟨st', hst', hready', hrest⟩ := hstep.ok hready.1 hstart hpos hbyte hstop hanswer
    exact ⟨st', hst', ⟨hready', hkeeps hready.1 hready.2 hpos hbyte hst'⟩, hrest⟩
  error hready := hstep.error hready.1

/-- While requests are answered, the rest of the segments decides how their handling ends. -/
theorem Requests.answered {α β : Type} {answer : φ → Segment → Outcome α × φ}
    {request : Segment → β} {made : σ → List β} {Ready : σ → Prop} {size finish : Nat}
    (hstep : Requests step position answer request made Ready size) (hfinish : finish ≤ 8 * size)
    {list : List Segment} (fields : List φ) {st : σ} (htiles : Tiles (position st) finish list)
    (hready : Ready st) {count : Nat}
    (hall : ∀ i < count, ∃ a, replyAt answer fields list i = some (.ok a)) :
    ∃ st', Ready st' ∧ Tiles (position st') finish (list.drop count) ∧
      visitSegments step list fields st =
        visitSegments step (list.drop count) (fieldsAfter answer fields (list.take count)) st' := by
  induction count generalizing list fields st with
  | zero => exact ⟨st, hready, htiles, rfl⟩
  | succ count ih =>
      obtain ⟨a, hfirst⟩ := hall 0 (Nat.zero_lt_succ count)
      cases list with
      | nil => cases hfirst
      | cons s rest =>
          obtain ⟨hstart, hpos, hbyte, htiles⟩ := htiles
          have hreply : replyTo answer fields s = some (.ok a) := hfirst
          obtain ⟨field, hget, hanswer⟩ := Option.map_eq_some_iff.1 hreply
          have hone := fieldsAfter_singleton answer hget
          obtain ⟨st', hst', hready', hposition, -⟩ :=
            hstep.ok hready hstart hpos hbyte (htiles.le.trans hfinish) (Prod.ext hanswer rfl)
          rw [← hposition] at htiles
          obtain ⟨st'', hready'', hleft, hvisit⟩ := ih (fieldsAfter answer fields [s]) htiles
            hready' fun i hi => hall (i + 1) (Nat.succ_lt_succ hi)
          refine ⟨st'', hready'', hleft, ?_⟩
          rw [visitSegments, hget]
          simp only [hst']
          rw [← hone, hvisit]
          rfl

/-- However the requests end, their handling ends in that way, in a state that is ready at the place
where they end, or in what a step that fails makes of it. -/
theorem Requests.ends {α β γ : Type} {answer : φ → Segment → Outcome α × φ}
    {request : Segment → β} {made : σ → List β} {Ready : σ → Prop} {size finish : Nat}
    (hstep : Requests step position answer request made Ready size) (hfinish : finish ≤ 8 * size)
    (kept : σ → γ) (hkept : ∀ {index chunk field st e after st'},
      step index chunk field st = (.error e, after, st') → kept st' = kept st)
    {list done : List Segment} (fields : List φ) (st : σ)
    (htiles : Tiles (position st) finish list) (hready : Ready st) {outcome : Outcome Unit}
    {place : Nat} (h : EndsAt answer list fields finish outcome done place) :
    ∃ st' after st'', Ready st' ∧ position st' = place ∧ kept st'' = kept st' ∧
      visitSegments step list fields st = (outcome, after, st'') := by
  cases h with
  | complete hall =>
      obtain ⟨st', hready', hleft, hvisit⟩ := hstep.answered hfinish fields htiles hready hall
      rw [List.drop_length] at hleft hvisit
      exact ⟨st', _, st', hready', hleft, rfl, hvisit⟩
  | @stopped count s e hget hfails =>
      obtain ⟨st', hready', hleft, hvisit⟩ := hstep.answered hfinish fields htiles hready hfails.1
      obtain ⟨hlt, rfl⟩ := List.getElem?_eq_some_iff.1 hget
      rw [List.drop_eq_getElem_cons hlt] at hleft hvisit
      obtain ⟨hstart, hpos, hbyte, hrest⟩ := hleft
      have hlast := hfails.2
      rw [replyAt, hget, Option.bind_some] at hlast
      obtain ⟨field, hfield, hreply⟩ := Option.map_eq_some_iff.1 hlast
      obtain ⟨st'', hst'', -⟩ :=
        hstep.error hready' hstart hpos hbyte (hrest.le.trans hfinish) (Prod.ext hreply rfl)
      rw [visitSegments, hfield] at hvisit
      simp only [hst''] at hvisit
      exact ⟨st', _, st'', hready', hstart.symm, hkept hst'', hvisit⟩

end Visits

end Bitfield.Wire
