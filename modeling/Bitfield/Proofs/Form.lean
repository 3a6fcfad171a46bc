import Bitfield.Form
import Bitfield.Proofs.Justification
import Bitfield.Proofs.Register.Agreement

/-! Requests are safe. A loop that writes a register in place never fails once it has begun, so a
request is refused before anything is written; and no request to a register or to a bit string leaves
the range of an index, of a shift or of the buffer. -/

namespace Bitfield

open Outcome (Faultless)

/-- A loop whose steps all succeed ends the same in place. -/
theorem Outcome.inPlace_of_foldlM {σ α : Type} {step : σ → α → Outcome σ} {items : List α} {s t : σ}
    (h : items.foldlM step s = .ok t) : inPlace step items s = (.ok (), t) := by
  induction items generalizing s with
  | nil =>
      cases h
      rfl
  | cons a rest ih =>
      rw [List.foldlM_cons] at h
      cases hstep : step s a with
      | error e =>
          rw [hstep] at h
          cases h
      | ok next =>
          rw [hstep, ok_bind] at h
          rw [inPlace, hstep]
          exact ih h

theorem Buffer.render_ok {order : ByteOrder} (b : Buffer order) : ∃ text, b.render = .ok text :=
  ⟨_, by rw [render, b.mapM_byte, Outcome.ok_bind]⟩

theorem justifiedEntry_ok (side : String) (n : Nat) (b : Buffer .big) :
    ∃ entry, justifiedEntry side n b = .ok entry := by
  obtain ⟨text, htext⟩ := b.render_ok
  exact ⟨_, by rw [justifiedEntry, htext, Outcome.ok_bind]⟩

namespace Register

variable {order : ByteOrder} {n : Nat}

theorem storeInPlace_eq (r : Register order n) (ty : IntType) (x : ty.Value) :
    r.storeInPlace ty x = Outcome.atOnce r.bytes ((r.store ty x).map bytes) := by
  rw [storeInPlace]
  rcases ty.fits_true_or_false x (narrow countBits n) with hfits | hfits
  · obtain ⟨b, s, hb, hs, -⟩ := r.store_steps ty x
    rw [hfits, r.store_of_steps hfits hb hs]
    simp only [Outcome.inPlace_of_foldlM hb, clearPaddingAfter, hs]
    rfl
  · rw [hfits, r.store_of_not_fits hfits]
    rfl

theorem negateInPlace_eq (r : Register order n) :
    ∃ s, r.negate = .ok s ∧ r.negateInPlace = (.ok (), s.bytes) := by
  obtain ⟨c, carry, s, hc, hs, -⟩ := r.negate_steps
  refine ⟨s, r.negate_of_steps hc hs, ?_⟩
  simp only [negateInPlace, Outcome.inPlace_of_foldlM hc, clearPaddingAfter, hs]
  rfl

theorem writeBitsInPlace_eq (r : Register order n) (length offset : Nat) (bits : Byte) :
    r.writeBitsInPlace length offset bits = (r.writeBits length offset bits).atOnce r := by
  rw [writeBits, writeBitsInPlace]
  by_cases hlength : 8 < length
  · rw [if_pos hlength, if_pos hlength]
    rfl
  · rw [if_neg hlength, if_neg hlength]
    by_cases hwithin : IntervalWithin length offset n
    · obtain ⟨s, hs, -⟩ := foldlM_writeBit r bits offset (Nat.le_of_not_lt hlength) hwithin
      rw [if_pos hwithin, if_pos hwithin, Outcome.inPlace_of_foldlM hs, hs]
      rfl
    · rw [if_neg hwithin, if_neg hwithin]
      rfl

/-- A byte that is replaced inside a register leaves the bytes of a register. -/
theorem exists_set (r : Register order n) {index : Nat} (x : Byte) (h : index < byteCount n) :
    ∃ s : Register order n, r.bytes.set index x = .ok s.bytes := by
  obtain ⟨b, hb, hsize, -⟩ := r.bytes.set_of_size x (by rwa [r.size_eq])
  exact ⟨⟨b, hsize.trans r.size_eq⟩, hb⟩

theorem setBitInPlace_eq (r : Register order n) (i : Nat) (on : Bool) :
    r.setBitInPlace i on = Outcome.atOnce r.bytes ((r.setBit i on).map bytes) := by
  rw [setBitInPlace]
  by_cases hi : n ≤ i
  · rw [if_pos hi, r.setBit_of_le on hi]
    rfl
  · have hlist := r.byte_div_lt (Nat.lt_of_not_le hi)
    have hflag : bitFlag i = .ok ((1 : Byte) <<< (i % 8)) :=
      Checked.shiftLeft_of_lt 1 (Nat.mod_lt i (by decide))
    obtain ⟨s, hs⟩ := r.exists_set (flagged r.bytes.toList[i / 8] ((1 : Byte) <<< (i % 8)) on)
      (by rwa [length_toList] at hlist)
    have hset : r.setBit i on = .ok s := by
      rw [r.setBit_eq_put on (Nat.lt_of_not_le hi) hlist, Buffer.put, hs, Outcome.insist_ok,
        Outcome.ok_bind, ofSized_bytes]
    rw [if_neg hi, hflag, hset]
    simp only [Buffer.modifyInPlace_eq, Buffer.modify, r.bytes.get_of_lt hlist, Outcome.ok_bind, hs]
    rfl

theorem setByteInPlace_eq (r : Register order n) (index : Nat) (x : Byte) :
    r.bytes.setInPlace index x = Outcome.atOnce r.bytes ((r.setByte index x).map bytes) := by
  rw [Buffer.setInPlace_eq, setByte]
  rcases Nat.lt_or_ge index (byteCount n) with h | h
  · obtain ⟨s, hs⟩ := r.exists_set x h
    rw [hs, Outcome.ok_bind, ofSized_bytes]
    rfl
  · rw [r.bytes.set_of_le x (by rwa [r.size_eq])]
    rfl

theorem access_of_read {α : Type} {r : Register order n} {a : Access n} {x : Outcome α}
    {answer : α → Answer} (h : r.perform a = x >>= fun y => .ok (answer y, r)) :
    (r.access a).2 = r := by
  rw [access, h]
  cases x <;> rfl

theorem accessInPlace_of_write {r : Register order n} {a : Access n}
    {x : Outcome (Register order n)} {y : Outcome Unit × Buffer order}
    (hperform : r.perform a = x >>= fun s => .ok (.done, s)) (hplace : r.accessInPlace a = written y)
    (h : y = Outcome.atOnce r.bytes (x.map bytes)) :
    r.accessInPlace a = ((r.access a).1, (r.access a).2.bytes) := by
  rw [hplace, h, access, hperform]
  cases x <;> rfl

/-- Made in place, an access is answered as ever and leaves the same bytes. -/
theorem accessInPlace_eq (r : Register order n) (a : Access n) :
    r.accessInPlace a = ((r.access a).1, (r.access a).2.bytes) := by
  cases a with
  | getBit | read | slice | slice? | readBits | getByte | render =>
      rw [access_of_read rfl]
      rfl
  | setBit i on => exact accessInPlace_of_write rfl rfl (r.setBitInPlace_eq i on)
  | setBitOn i => exact accessInPlace_of_write rfl rfl (r.setBitInPlace_eq i true)
  | setBitOff i => exact accessInPlace_of_write rfl rfl (r.setBitInPlace_eq i false)
  | store ty x => exact accessInPlace_of_write rfl rfl (r.storeInPlace_eq ty x)
  | negate =>
      obtain ⟨s, hs, hplace⟩ := r.negateInPlace_eq
      refine accessInPlace_of_write (y := r.negateInPlace) rfl rfl ?_
      rw [hplace, hs]
      rfl
  | writeBits length offset bits =>
      refine accessInPlace_of_write
        (y := Prod.map id bytes (r.writeBitsInPlace length offset bits)) rfl rfl ?_
      rw [writeBitsInPlace_eq]
      cases r.writeBits length offset bits <;> rfl
  | setByte index x => exact accessInPlace_of_write rfl rfl (r.setByteInPlace_eq index x)

theorem access_faultless (r : Register order n) (hn : n < limit indexBits) (a : Access n) :
    (r.access a).1.Faultless := by
  have hle : n ≤ 8 * byteCount n := by
    have := eight_mul_byteCount n
    omega
  have hself : Agree (8 * byteCount n) r r := fun _ _ => rfl
  have hperform := (hself.perform hn hle a (.inr (Nat.le_refl _))).faultless
  rw [access]
  cases houtcome : r.perform a with
  | ok result => exact Outcome.faultless_ok _
  | error e =>
      intro f hf
      cases hf
      exact hperform f houtcome

theorem access_of_error (r : Register order n) (a : Access n) {e : Failure}
    (h : (r.access a).1 = .error e) : (r.access a).2 = r := by
  rw [access] at h ⊢
  cases houtcome : r.perform a with
  | ok result =>
      rw [houtcome] at h
      cases h
  | error e => rfl

theorem ofBuffer_eq (b : Buffer order) :
    (b.size = byteCount n → ∃ r : Register order n, ofBuffer n b = .ok r ∧ r.bytes = b) ∧
    (b.size ≠ byteCount n → ofBuffer n b = refuse (.bufferSize (byteCount n) b.size)) :=
  ⟨fun h => ⟨⟨b, h⟩, dif_pos h, rfl⟩, fun h => dif_neg h⟩

/-- A register made with an integer is refused for its size first, and only then for the integer. -/
theorem withValue_eq (data : Array Byte) (x : Integer) :
    (data.size = byteCount n →
      (∃ r : Register order n, withValue order n data x = .ok r) ∨
      withValue order n data x = refuse (.valueOutOfRange n)) ∧
    (data.size ≠ byteCount n →
      withValue order n data x = refuse (.bufferSize (byteCount n) data.size)) := by
  constructor
  · intro hsize
    obtain ⟨r, hr, -⟩ := (ofBuffer_eq (n := n) (⟨data⟩ : Buffer order)).1 hsize
    have hmade : withValue order n data x = r.store x.type x.value := by
      rw [withValue, ofArray, hr, Outcome.ok_bind]
    rw [hmade]
    rcases x.type.fits_true_or_false x.value (narrow countBits n) with hfits | hfits
    · obtain ⟨s, hs, -⟩ := r.store_of_fits hfits
      exact .inl ⟨s, hs⟩
    · exact .inr (r.store_of_not_fits hfits)
  · intro hsize
    have hrefused := (ofBuffer_eq (n := n) (⟨data⟩ : Buffer order)).2 hsize
    rw [withValue, ofArray, hrefused]
    rfl

end Register

namespace BitString

variable {n : Nat}

theorem ofArray_eq (data : Array Byte) :
    (data.size = byteCount n → ∃ s : BitString n, ofArray n data = .ok s ∧ s.bytes.data = data) ∧
    (data.size ≠ byteCount n → ofArray n data = refuse (.bufferSize (byteCount n) data.size)) :=
  ⟨fun h => ⟨⟨⟨data⟩, h⟩, dif_pos h, rfl⟩, fun h => dif_neg h⟩

theorem getBit_faultless (s : BitString n) (hn : n < limit indexBits) (i : Nat) :
    (s.getBit i).Faultless := by
  by_cases hi : i < n
  · rw [s.getBit_of_lt hn hi]
    exact Outcome.faultless_ok _
  · rw [s.getBit_of_le (Nat.le_of_not_lt hi)]
    exact Outcome.faultless_refuse _

end BitString

namespace Form

variable {n : Nat}

theorem data_size (f : Form n) : f.data.size = byteCount n := by
  cases f with
  | register _ r => exact r.size_eq
  | string s => exact s.size_eq

/-- A form answers what it takes and nothing else. The answer is never a fault, and a form that
refuses a request stays as it was. -/
theorem answer?_of_takes (hn : n < limit indexBits) (f : Form n) (q : Request n) :
    (f.takes q = true → ∃ answer g, f.answer? q = some (answer, g) ∧ answer.Faultless ∧
      ∀ e, answer = .error e → g = f) ∧
    (f.takes q = false → f.answer? q = none) := by
  cases f with
  | register order r =>
      cases q with
      | access a =>
          refine ⟨fun _ => ⟨_, register order (r.access a).2, ?_, r.access_faultless hn a, ?_⟩, ?_⟩
          · simp only [answer?, r.accessInPlace_eq, Register.ofSized_bytes]
          · intro e he
            rw [r.access_of_error a he]
          · intro h
            cases h
      | leftJustify =>
          cases order with
          | little => exact ⟨fun h => (by cases h), fun _ => rfl⟩
          | big =>
              obtain ⟨s, hs, -⟩ := r.leftJustify_eq
              obtain ⟨entry, hentry⟩ := justifiedEntry_ok "left" n s.bytes
              refine ⟨fun _ => ⟨_, string s, ?_, Outcome.faultless_ok (.text entry.line), ?_⟩, ?_⟩
              · simp only [answer?, hs, hentry, Outcome.ok_bind, become]
              · intro e he
                cases he
              · intro h
                cases h
      | _ => cases order <;> exact ⟨fun h => (by cases h), fun _ => rfl⟩
  | string s =>
      cases q with
      | bit i =>
          have hbit := (s.getBit_faultless hn i).bind fun on =>
            Outcome.faultless_ok (Register.Answer.bit on)
          exact ⟨fun _ => ⟨_, _, rfl, hbit, fun _ _ => rfl⟩, fun h => (by cases h)⟩
      | render =>
          have htext := s.render_eq hn
          refine ⟨fun _ => ⟨_, _, rfl, ?_, fun _ _ => rfl⟩, fun h => (by cases h)⟩
          rw [htext]
          exact Outcome.faultless_ok _
      | rightJustify =>
          obtain ⟨r, hr, -⟩ := s.rightJustify_eq hn
          obtain ⟨entry, hentry⟩ := justifiedEntry_ok "right" n r.bytes
          refine ⟨fun _ => ⟨_, register .big r, ?_, Outcome.faultless_ok (.text entry.line), ?_⟩, ?_⟩
          · simp only [answer?, hr, hentry, Outcome.ok_bind, become]
          · intro e he
            cases he
          · intro h
            cases h
      | _ => exact ⟨fun h => (by cases h), fun _ => rfl⟩

theorem answer?_safe (hn : n < limit indexBits) {f g : Form n} {q : Request n}
    {answer : Outcome Register.Answer} (h : f.answer? q = some (answer, g)) :
    answer.Faultless ∧ ∀ e, answer = .error e → g = f := by
  obtain ⟨htaken, hleft⟩ := answer?_of_takes hn f q
  cases htakes : f.takes q with
  | true =>
      obtain ⟨_, _, hanswer, hsafe⟩ := htaken htakes
      rw [h] at hanswer
      cases hanswer
      exact hsafe
  | false =>
      rw [hleft htakes] at h
      cases h

/-- Every step of a run is a request that the form before it has answered. -/
theorem answer?_of_mem_run {f : Form n} {requests : List (Request n)} {step : Step n}
    (h : step ∈ f.run requests) :
    ∃ q ∈ requests, step.before.answer? q = some (step.answer, step.after) := by
  induction requests generalizing f with
  | nil => cases h
  | cons q rest ih =>
      rw [run] at h
      cases hanswer : f.answer? q with
      | none =>
          rw [hanswer] at h
          obtain ⟨p, hp, hstep⟩ := ih h
          exact ⟨p, List.mem_cons_of_mem q hp, hstep⟩
      | some result =>
          rw [hanswer] at h
          rcases List.mem_cons.1 h with rfl | h
          · exact ⟨q, List.mem_cons_self, hanswer⟩
          · obtain ⟨p, hp, hstep⟩ := ih h
            exact ⟨p, List.mem_cons_of_mem q hp, hstep⟩

/-- Buffers of the wrong size are refused and all others are taken. From there on no run of requests
leaves the range of an index, a shift or the buffer, none changes the size of the buffer, and a request
that is refused leaves the bytes as they were. -/
theorem run_safe (hindex : 8 * byteCount n < limit indexBits) :
    (∀ (order : ByteOrder) (b : Buffer order),
      (b.size = byteCount n → ∃ r : Register order n, Register.ofBuffer n b = .ok r ∧ r.bytes = b) ∧
      (b.size ≠ byteCount n →
        Register.ofBuffer n b = refuse (.bufferSize (byteCount n) b.size))) ∧
    (∀ (order : ByteOrder) (data : Array Byte),
      (data.size = byteCount n →
        ∃ r : Register order n, Register.ofArray order n data = .ok r ∧ r.bytes.data = data) ∧
      (data.size ≠ byteCount n →
        Register.ofArray order n data = refuse (.bufferSize (byteCount n) data.size))) ∧
    (∀ (order : ByteOrder) (data : Array Byte) (x : Integer),
      (data.size = byteCount n →
        (∃ r : Register order n, Register.withValue order n data x = .ok r) ∨
        Register.withValue order n data x = refuse (.valueOutOfRange n)) ∧
      (data.size ≠ byteCount n →
        Register.withValue order n data x = refuse (.bufferSize (byteCount n) data.size))) ∧
    (∀ data : Array Byte,
      (data.size = byteCount n →
        ∃ s : BitString n, BitString.ofArray n data = .ok s ∧ s.bytes.data = data) ∧
      (data.size ≠ byteCount n →
        BitString.ofArray n data = refuse (.bufferSize (byteCount n) data.size))) ∧
    (∀ (f : Form n) (q : Request n), f.takes q = true →
      ∃ answer g, f.answer? q = some (answer, g)) ∧
    ∀ (f : Form n) (requests : List (Request n)), ∀ step ∈ f.run requests,
      step.answer.Faultless ∧ step.after.data.size = byteCount n ∧
      ∀ e, step.answer = .error e → step.after.data = step.before.data := by
  have hn : n < limit indexBits := by
    have := eight_mul_byteCount n
    omega
  refine ⟨fun _ b => Register.ofBuffer_eq b, ?_, fun _ => Register.withValue_eq,
    BitString.ofArray_eq, ?_, ?_⟩
  · intro order data
    obtain ⟨hmade, hrefused⟩ := Register.ofBuffer_eq (n := n) (⟨data⟩ : Buffer order)
    refine ⟨fun hsize => ?_, hrefused⟩
    obtain ⟨r, hr, hbytes⟩ := hmade hsize
    exact ⟨r, hr, by rw [hbytes]⟩
  · intro f q htakes
    obtain ⟨answer, g, hanswer, -⟩ := (answer?_of_takes hn f q).1 htakes
    exact ⟨answer, g, hanswer⟩
  · intro f requests step hstep
    obtain ⟨q, -, hanswer⟩ := answer?_of_mem_run hstep
    obtain ⟨hfaultless, hrefused⟩ := answer?_safe hn hanswer
    refine ⟨hfaultless, data_size _, ?_⟩
    intro e he
    rw [hrefused e he]

/-- A run over twelve bits in which a value too large is refused, the bits move to the start of the
buffer and back, and are negated. -/
theorem run_safe_twelve :
    8 * byteCount 12 < limit indexBits ∧
    ((register .big (⟨⟨#[0xFA, 0xD7]⟩, rfl⟩ : Register .big 12)).run
      [.access (.store ⟨.w16, false⟩ 0x1000), .leftJustify, .bit 12, .rightJustify,
        .access .negate]).length = 5 ∧
    ∀ step ∈ (register .big (⟨⟨#[0xFA, 0xD7]⟩, rfl⟩ : Register .big 12)).run
      [.access (.store ⟨.w16, false⟩ 0x1000), .leftJustify, .bit 12, .rightJustify,
        .access .negate],
      step.answer.Faultless ∧ step.after.data.size = 2 ∧
      ∀ e, step.answer = .error e → step.after.data = step.before.data := by
  obtain ⟨-, -, -, -, -, hrun⟩ := run_safe (n := 12) (by decide)
  exact ⟨by decide, by decide, hrun _ _⟩

end Form

end Bitfield
