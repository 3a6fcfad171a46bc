import Bitfield.Field.Probe
import Bitfield.Form.Operation
import Bitfield.Proofs.Form
import Bitfield.Proofs.Wire.Delivery

/-! The padding in the course of a program. What writes a whole value clears it, as moving the bits
from one end of the buffer to the other does, and nothing else touches it except a write of a single
byte. A clear padding therefore stays clear, and registers whose padding is clear are equal as soon as
their bits are. -/

namespace Bitfield

namespace Register

variable {order : ByteOrder} {n : Nat}

/-- The number in the padding bits. -/
def paddingValue (r : Register order n) : Nat :=
  r.bytes.value / limit n

theorem testBit_paddingValue (r : Register order n) (k : Nat) :
    r.paddingValue.testBit k = r.bytes.value.testBit (n + k) := by
  rw [paddingValue, limit_eq, Nat.testBit_div_two_pow, Nat.add_comm]

theorem paddingValue_eq {r s : Register order n}
    (h : ∀ j ≥ n, s.bytes.value.testBit j = r.bytes.value.testBit j) :
    s.paddingValue = r.paddingValue := by
  apply Nat.eq_of_testBit_eq
  intro k
  rw [testBit_paddingValue, testBit_paddingValue, h _ (Nat.le_add_right n k)]

theorem paddingValue_eq_zero {r : Register order n} (h : r.bytes.value < 2 ^ n) :
    r.paddingValue = 0 :=
  Nat.div_eq_of_lt h

theorem bytes_value_of_clear {r : Register order n} (h : r.paddingValue = 0) :
    r.bytes.value = r.value := by
  have hsplit : r.value + limit n * r.paddingValue = r.bytes.value := Nat.mod_add_div _ _
  rw [← hsplit, h, Nat.mul_zero, Nat.add_zero]

/-- Registers whose padding is clear are equal exactly when all their bits are. -/
theorem beq_iff_getBit {r s : Register order n} (hr : r.paddingValue = 0) (hs : s.paddingValue = 0) :
    (r == s) = true ↔ ∀ i < n, r.getBit i = s.getBit i := by
  rw [beq_iff_eq]
  constructor
  · rintro rfl i -
    rfl
  · intro h
    apply eq_of_bytes_value
    rw [bytes_value_of_clear hr, bytes_value_of_clear hs]
    apply Nat.eq_of_testBit_eq
    intro i
    by_cases hi : i < n
    · have hbit := h i hi
      rw [r.getBit_of_lt hi, s.getBit_of_lt hi] at hbit
      exact Except.ok.inj hbit
    · have hclear : ∀ t : Register order n, t.value.testBit i = false := by
        intro t
        rw [t.testBit_value, decide_eq_false hi, Bool.false_and]
      rw [hclear r, hclear s]

theorem paddingValue_setBit {r s : Register order n} {i : Nat} (on : Bool)
    (h : r.setBit i on = .ok s) : s.paddingValue = r.paddingValue := by
  by_cases hi : i < n
  · obtain ⟨t, ht, hbits⟩ := r.setBit_of_lt on hi
    obtain rfl : t = s := Except.ok.inj (ht.symm.trans h)
    exact paddingValue_eq fun j hj => by rw [hbits, if_neg (by omega)]
  · rw [r.setBit_of_le on (Nat.le_of_not_lt hi)] at h
    cases h

theorem paddingValue_writeBits {r s : Register order n} {length offset : Nat} {bits : Byte}
    (h : r.writeBits length offset bits = .ok s) : s.paddingValue = r.paddingValue := by
  by_cases hlength : length ≤ 8
  · by_cases hwithin : IntervalWithin length offset n
    · obtain ⟨t, ht, hbits⟩ := r.writeBits_of_within bits hlength hwithin
      obtain rfl : t = s := Except.ok.inj (ht.symm.trans h)
      have hend := hwithin.2
      exact paddingValue_eq fun j hj => by rw [hbits, if_neg (by omega)]
    · rw [r.writeBits_of_not_within bits hlength hwithin] at h
      cases h
  · rw [r.writeBits_of_lt bits offset (Nat.lt_of_not_le hlength)] at h
    cases h

theorem paddingValue_store {r s : Register order n} {ty : IntType} {x : ty.Value}
    (h : r.store ty x = .ok s) : s.paddingValue = 0 := by
  rcases ty.fits_true_or_false x (narrow countBits n) with hfits | hfits
  · obtain ⟨t, ht, hbits⟩ := r.store_of_fits hfits
    obtain rfl : t = s := Except.ok.inj (ht.symm.trans h)
    apply Nat.eq_of_testBit_eq
    intro k
    rw [testBit_paddingValue, hbits, decide_eq_false (Nat.not_lt.2 (Nat.le_add_right n k)),
      Bool.false_and, Nat.zero_testBit]
  · rw [r.store_of_not_fits hfits] at h
    cases h

theorem paddingValue_negate {r s : Register order n} (h : r.negate = .ok s) :
    s.paddingValue = 0 := by
  obtain ⟨t, ht, hvalue⟩ := r.negate_eq
  obtain rfl : t = s := Except.ok.inj (ht.symm.trans h)
  apply paddingValue_eq_zero
  rw [hvalue]
  exact Nat.mod_lt _ (Nat.two_pow_pos n)

/-- The accesses that write a single byte, padding included. -/
def Access.setsByte : Access n → Bool
  | .setByte .. => true
  | _ => false

/-- The accesses that write a whole value. -/
def Access.writesValue : Access n → Bool
  | .store .. => true
  | .negate => true
  | _ => false

theorem eq_of_read {α : Type} {x : Outcome α} {answer : α → Answer} {r s : Register order n}
    {a : Answer} (h : (x >>= fun y => (.ok (answer y, r) : Outcome (Answer × Register order n))) =
      .ok (a, s)) : s = r := by
  cases x with
  | ok y =>
      cases h
      rfl
  | error e => cases h

theorem eq_of_write {x : Outcome (Register order n)} {s : Register order n} {a : Answer}
    (h : (x >>= fun t => (.ok (.done, t) : Outcome (Answer × Register order n))) = .ok (a, s)) :
    x = .ok s := by
  cases x with
  | ok t =>
      cases h
      rfl
  | error e => cases h

theorem paddingValue_perform {r s : Register order n} {a : Access n} {answer : Answer}
    (ha : a.setsByte = false) (h : r.perform a = .ok (answer, s)) :
    s.paddingValue = if a.writesValue then 0 else r.paddingValue := by
  cases a with
  | getBit | read | slice | slice? | readBits | getByte | render =>
      rw [eq_of_read h]
      rfl
  | setBit i on => exact paddingValue_setBit on (eq_of_write h)
  | setBitOn i => exact paddingValue_setBit true (eq_of_write h)
  | setBitOff i => exact paddingValue_setBit false (eq_of_write h)
  | store ty x => exact paddingValue_store (eq_of_write h)
  | negate => exact paddingValue_negate (eq_of_write h)
  | writeBits length offset bits => exact paddingValue_writeBits (eq_of_write h)
  | setByte index x => cases ha

theorem paddingValue_access (r : Register order n) {a : Access n} (ha : a.setsByte = false) :
    (r.access a).2.paddingValue =
      if a.writesValue && (r.access a).1.isOk then 0 else r.paddingValue := by
  rw [access]
  cases hperform : r.perform a with
  | ok result =>
      obtain ⟨answer, s⟩ := result
      have hafter := paddingValue_perform ha hperform
      simpa [Except.isOk, Except.toBool] using hafter
  | error e => simp [Except.isOk, Except.toBool]

/-- A chunk that is written, or refused, leaves the padding as it was. -/
theorem paddingValue_write (r : Register order n) (chunk : Chunk) (bits : Byte) :
    (WritableField.write r chunk bits).2.paddingValue = r.paddingValue := by
  simp only [WritableField.write]
  cases hwrite : r.writeBits chunk.length chunk.offset bits with
  | ok s => exact paddingValue_writeBits hwrite
  | error e => rfl

section Unpacking

variable {φ : Type}

theorem getElem?_among (r : Register order n) (before after : List φ) :
    (r.among before after)[before.length]? = some (.inl r) := by
  simp [among]

/-- A field that is a register with the padding of another one. -/
def PaddedLike (r : Register order n) (field : Register order n ⊕ φ) : Prop :=
  ∃ s : Register order n, field = .inl s ∧ s.paddingValue = r.paddingValue

variable [WritableField φ]

theorem PaddedLike.write {r : Register order n} {field : Register order n ⊕ φ} (chunk : Chunk)
    (bits : Byte) (h : PaddedLike r field) : PaddedLike r (WritableField.write field chunk bits).2 := by
  obtain ⟨s, rfl, hs⟩ := h
  exact ⟨_, rfl, (s.paddingValue_write chunk bits).trans hs⟩

/-- An unpacking leaves the padding of its targets as it was, wherever it fails. -/
theorem unpackAmong?_eq (r : Register order n) (wire : Array Byte) (before after : List φ) :
    ∃ s, r.unpackAmong? wire before after =
        some ((Wire.unpack wire (r.among before after)).outcome, s) ∧
      s.paddingValue = r.paddingValue := by
  obtain ⟨_, hafter, s, rfl, hs⟩ := Wire.unpack_preserves (P := PaddedLike r)
    (fun _ chunk bits => PaddedLike.write chunk bits) wire (r.getElem?_among before after) ⟨r, rfl, rfl⟩
  refine ⟨s, ?_, hs⟩
  rw [unpackAmong?]
  simp only [hafter]

end Unpacking

end Register

namespace BitString

variable {n : Nat}

/-- The number in the padding bits. -/
def paddingValue (s : BitString n) : Nat :=
  s.bytes.value % limit (padding n)

end BitString

namespace Form

variable {φ : Type} {n : Nat}

def paddingValue : Form n → Nat
  | register _ r => r.paddingValue
  | string s => s.paddingValue

/-- The operations that write a single byte, padding included. -/
def Operation.setsByte : Operation φ n → Bool
  | .request (.access a) => a.setsByte
  | _ => false

/-- Whether an operation with this answer clears the padding: a value is stored, or negated, or the
bits are moved to the other end of the buffer. -/
def Operation.clears : Operation φ n → Outcome Register.Answer → Bool
  | .request (.access (.store ..)), answer => answer.isOk
  | .request (.access .negate), _ => true
  | .request .leftJustify, _ => true
  | .request .rightJustify, _ => true
  | _, _ => false

theorem Operation.clears_access (r : Register order n) (a : Register.Access n) :
    (Operation.request (.access a) : Operation φ n).clears (r.access a).1 =
      (a.writesValue && (r.access a).1.isOk) := by
  cases a with
  | negate =>
      obtain ⟨s, hs, -⟩ := r.negate_eq
      simp only [Register.access, Register.perform, hs]
      rfl
  | store ty x => rfl
  | _ => rfl

theorem paddingValue_of_leftJustify {r : Register .big n} {s : BitString n}
    (h : r.leftJustify = .ok s) : s.paddingValue = 0 := by
  obtain ⟨t, ht, hvalue⟩ := r.leftJustify_eq
  obtain rfl : t = s := Except.ok.inj (ht.symm.trans h)
  rw [BitString.paddingValue, hvalue]
  exact Nat.mul_mod_left _ _

theorem paddingValue_of_rightJustify (hn : n < limit indexBits) {s : BitString n}
    {r : Register .big n} (h : s.rightJustify = .ok r) : r.paddingValue = 0 := by
  obtain ⟨t, ht, hvalue⟩ := s.rightJustify_eq hn
  obtain rfl : t = r := Except.ok.inj (ht.symm.trans h)
  exact Register.paddingValue_eq_zero (by rw [hvalue]; exact s.value_lt)

/-- A request that is answered clears the padding or leaves it as it was. One that the form does not
take has no answer. -/
theorem paddingValue_answer? (hn : n < limit indexBits) {f g : Form n} {q : Request n}
    {answer : Outcome Register.Answer}
    (hq : (Operation.request q : Operation φ n).setsByte = false) (h : f.answer? q = some (answer, g)) :
    g.paddingValue =
      if (Operation.request q : Operation φ n).clears answer then 0 else f.paddingValue := by
  cases f with
  | register order r =>
      cases q with
      | access a =>
          simp only [answer?, r.accessInPlace_eq, Register.ofSized_bytes, Option.some.injEq,
            Prod.mk.injEq] at h
          obtain ⟨rfl, rfl⟩ := h
          rw [Operation.clears_access]
          exact r.paddingValue_access hq
      | leftJustify =>
          cases order with
          | little => cases h
          | big =>
              obtain ⟨s, hs, -⟩ := r.leftJustify_eq
              obtain ⟨entry, hentry⟩ := justifiedEntry_ok "left" n s.bytes
              simp only [answer?, hs, hentry, Outcome.ok_bind, become, Option.some.injEq,
                Prod.mk.injEq] at h
              obtain ⟨rfl, rfl⟩ := h
              exact paddingValue_of_leftJustify hs
      | _ => cases order <;> cases h
  | string s =>
      cases q with
      | bit | render =>
          cases h
          rfl
      | rightJustify =>
          obtain ⟨r, hr, -⟩ := s.rightJustify_eq hn
          obtain ⟨entry, hentry⟩ := justifiedEntry_ok "right" n r.bytes
          simp only [answer?, hr, hentry, Outcome.ok_bind, become, Option.some.injEq,
            Prod.mk.injEq] at h
          obtain ⟨rfl, rfl⟩ := h
          exact paddingValue_of_rightJustify hn hr
      | _ => cases h

variable [WritableField φ]

/-- A form answers the operations that it is part of. -/
theorem operate?_of_admits (hn : n < limit indexBits) (f : Form n) (op : Operation φ n)
    (h : f.admits op = true) : ∃ answer g, f.operate? op = some (answer, g) := by
  cases op with
  | request q =>
      obtain ⟨answer, g, hanswer, -⟩ := (answer?_of_takes hn f q).1 h
      exact ⟨answer, g, hanswer⟩
  | unpack wire before after =>
      cases f with
      | register order r =>
          obtain ⟨s, hs, -⟩ := r.unpackAmong?_eq wire before after
          exact ⟨_, register order s, by rw [operate?, hs]; rfl⟩
      | string s => cases h

/-- An operation clears the padding or leaves it as it was. -/
theorem paddingValue_operate? (hn : n < limit indexBits) {f g : Form n} {op : Operation φ n}
    {answer : Outcome Register.Answer} (hop : op.setsByte = false)
    (h : f.operate? op = some (answer, g)) :
    g.paddingValue = if op.clears answer then 0 else f.paddingValue := by
  cases op with
  | request q => exact paddingValue_answer? hn hop h
  | unpack wire before after =>
      cases f with
      | register order r =>
          obtain ⟨s, hs, hkept⟩ := r.unpackAmong?_eq wire before after
          rw [operate?, hs] at h
          cases h
          exact hkept
      | string s => cases h

/-- After any operations the padding is clear, or what it was before the first of them. -/
theorem paddingValue_operateAll (hn : n < limit indexBits) (f : Form n) (ops : List (Operation φ n))
    (hops : ∀ op ∈ ops, op.setsByte = false) :
    (f.operateAll ops).paddingValue = 0 ∨ (f.operateAll ops).paddingValue = f.paddingValue := by
  induction ops generalizing f with
  | nil => exact .inr rfl
  | cons op rest ih =>
      have hrest : ∀ op ∈ rest, op.setsByte = false := fun p hp => hops p (List.mem_cons_of_mem op hp)
      rw [operateAll]
      cases hstep : f.operate? op with
      | none => exact ih f hrest
      | some result =>
          obtain ⟨answer, g⟩ := result
          have hkept := paddingValue_operate? hn (hops op List.mem_cons_self) hstep
          rcases ih g hrest with hzero | hsame
          · exact .inl hzero
          · by_cases hclears : op.clears answer = true
            · exact .inl (hsame.trans (hkept.trans (if_pos hclears)))
            · exact .inr (hsame.trans (hkept.trans (if_neg hclears)))

/-- Storing a value, negating it and moving the bits to the other end of the buffer clear the padding.
Nothing else that is done to a register changes a bit of it, succeed or fail, except a write of a single
byte: in the course of a program the padding is clear or what it was at first. Registers whose padding
is clear keep it so, and are equal exactly when all their bits are. -/
theorem padding_clear_or_kept (hn : n < limit indexBits) :
    (∀ (f : Form n) (op : Operation φ n), f.admits op = true → op.setsByte = false →
      ∃ answer g, f.operate? op = some (answer, g) ∧
        (op.clears answer = true → g.paddingValue = 0) ∧
        (op.clears answer = false → g.paddingValue = f.paddingValue)) ∧
    (∀ (f : Form n) (ops : List (Operation φ n)), (∀ op ∈ ops, op.setsByte = false) →
      ((f.operateAll ops).paddingValue = 0 ∨ (f.operateAll ops).paddingValue = f.paddingValue) ∧
      (f.paddingValue = 0 → (f.operateAll ops).paddingValue = 0)) ∧
    ∀ (order : ByteOrder) (r s : Register order n), r.paddingValue = 0 → s.paddingValue = 0 →
      ((r == s) = true ↔ ∀ i < n, r.getBit i = s.getBit i) := by
  refine ⟨?_, ?_, fun _ r s hr hs => Register.beq_iff_getBit hr hs⟩
  · intro f op hadmits hop
    obtain ⟨answer, g, hstep⟩ := operate?_of_admits hn f op hadmits
    have hkept := paddingValue_operate? hn hop hstep
    refine ⟨answer, g, hstep, ?_, ?_⟩
    · exact fun hclears => hkept.trans (if_pos hclears)
    · exact fun hclears => hkept.trans (if_neg (by rw [hclears]; exact Bool.false_ne_true))
  · intro f ops hops
    have hrun := paddingValue_operateAll hn f ops hops
    exact ⟨hrun, fun hclear => hrun.elim id fun hsame => hsame.trans hclear⟩

/-- Twelve bits with their padding set, unpacked before a field that refuses its bits. Twelve bits with
their padding clear, after a value too large for them, a write and a move to the start. -/
theorem padding_clear_or_kept_twelve :
    12 < limit indexBits ∧
    (∃ answer g, (register .big (⟨⟨#[0xFA, 0xD7]⟩, rfl⟩ : Register .big 12)).operate?
        (.unpack #[0x12, 0x34] [] [(⟨4, 0, 1, []⟩ : Probe)]) = some (answer, g) ∧
      g.paddingValue = 15) ∧
    ((register .big (⟨⟨#[0x0A, 0xD7]⟩, rfl⟩ : Register .big 12)).operateAll
      [.unpack #[0x12, 0x34] [] [(⟨4, 0, 1, []⟩ : Probe)],
        .request (.access (.store ⟨.w16, false⟩ 0x1000)),
        .request (.access (.writeBits 6 3 0x2A)), .request .leftJustify]).paddingValue = 0 ∧
    (((⟨⟨#[0x0A, 0xD7]⟩, rfl⟩ : Register .big 12) == ⟨⟨#[0x0A, 0xD5]⟩, rfl⟩) = true ↔
      ∀ i < 12, (⟨⟨#[0x0A, 0xD7]⟩, rfl⟩ : Register .big 12).getBit i =
        (⟨⟨#[0x0A, 0xD5]⟩, rfl⟩ : Register .big 12).getBit i) := by
  obtain ⟨hstep, hrun, hequal⟩ := padding_clear_or_kept (n := 12) (φ := Probe) (by decide)
  obtain ⟨answer, g, hg, -, hkept⟩ :=
    hstep (register .big ⟨⟨#[0xFA, 0xD7]⟩, rfl⟩) (.unpack #[0x12, 0x34] [] [⟨4, 0, 1, []⟩]) rfl rfl
  refine ⟨by decide, ⟨answer, g, hg, ?_⟩, ?_, ?_⟩
  · rw [hkept rfl]
    decide
  · exact (hrun _ _ (by simp [Operation.setsByte, Register.Access.setsByte])).2 (by decide)
  · exact hequal .big _ _ (by decide) (by decide)

end Form

end Bitfield
