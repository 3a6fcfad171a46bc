import Bitfield.Register.Reading

/-!
Writing a register: single bits, a whole integer, the negated value, and an interval of at most a
byte. Writing a whole value clears the padding; the other writes leave it as it was.
-/

namespace Bitfield

namespace Register

variable {order : ByteOrder} {n : Nat}

def setBitOn (r : Register order n) (i : Nat) : Outcome (Register order n) :=
  if n ≤ i then
    refuse (.bitOutOfRange i n)
  else do
    let flag ← bitFlag i
    let x ← r.bytes.byte (i / 8)
    let b ← r.bytes.put (i / 8) (x ||| flag)
    ofSized b

def setBitOff (r : Register order n) (i : Nat) : Outcome (Register order n) :=
  if n ≤ i then
    refuse (.bitOutOfRange i n)
  else do
    let flag ← bitFlag i
    let x ← r.bytes.byte (i / 8)
    let b ← r.bytes.put (i / 8) (x &&& ~~~flag)
    ofSized b

/-- A byte with the bits of a flag set, or cleared. -/
def flagged (x flag : Byte) (on : Bool) : Byte :=
  if on then x ||| flag else x &&& ~~~flag

def setBit (r : Register order n) (i : Nat) (on : Bool) : Outcome (Register order n) :=
  if on then r.setBitOn i else r.setBitOff i

/-- A buffer with the padding of an `n`-bit value cleared. -/
def clearPadding (n : Nat) (b : Buffer order) : Outcome (Buffer order) := do
  let mask ← paddingMask n
  let cleared ← b.modifyHigh? (· &&& ~~~mask)
  .ok (cleared.getD b)

/-- One step of storing an integer: byte `index` of the buffer becomes that of the integer. -/
def storeByte (ty : IntType) (x : ty.Value) (b : Buffer order) (index : Nat) :
    Outcome (Buffer order) := do
  let y ← ty.byteAt x (narrow countBits index)
  b.put index y

/-- The register that holds an integer in its data bits and has its padding cleared, refused if the
integer is not representable in `n` bits. -/
def store (r : Register order n) (ty : IntType) (x : ty.Value) : Outcome (Register order n) := do
  let fits ← ty.fits x (narrow countBits n)
  if fits then do
    let b ← (List.range (byteCount n)).foldlM (storeByte ty x) r.bytes
    let b ← clearPadding n b
    ofSized b
  else
    refuse (.valueOutOfRange n)

def withValue (order : ByteOrder) (n : Nat) (data : Array Byte) (x : Integer) :
    Outcome (Register order n) := do
  let r ← ofArray order n data
  r.store x.type x.value

/-- A byte inverted with a carry added, and the carry out of it. -/
def invertWithCarry (x : Byte) (carry : Bool) : Byte × Bool :=
  let sum := (~~~x).toNat + carry.toNat
  (BitVec.ofNat 8 sum, decide (256 ≤ sum))

/-- One step of a negation: byte `index` is inverted and the carry from the byte below is added. -/
def negateByte (state : Buffer order × Bool) (index : Nat) : Outcome (Buffer order × Bool) := do
  let x ← state.1.byte index
  let sum := invertWithCarry x state.2
  let b ← state.1.put index sum.1
  .ok (b, sum.2)

/-- The register with its value negated within `n` bits and its padding cleared. -/
def negate (r : Register order n) : Outcome (Register order n) := do
  let state ← (List.range (byteCount n)).foldlM negateByte (r.bytes, true)
  let b ← clearPadding n state.1
  ofSized b

/-- One step of writing an interval: bit `k` of a byte becomes bit `offset + k` of the value. -/
def writeBit (offset : Nat) (bits : Byte) (r : Register order n) (k : Nat) :
    Outcome (Register order n) := do
  let i ← Checked.add indexBits offset k
  let low ← Checked.shiftRight bits k
  r.setBit i (low &&& 1 != 0)

/-- The register with the `length` bits from bit `offset` on replaced by the lowest bits of a byte;
no other bit changes, padding included. -/
def writeBits (r : Register order n) (length offset : Nat) (bits : Byte) :
    Outcome (Register order n) :=
  if 8 < length then
    refuse (.tooManyBits length 8)
  else if IntervalWithin length offset n then
    (List.range length).foldlM (writeBit offset bits) r
  else
    refuse (.intervalOutOfRange length offset n)

def setByte (r : Register order n) (index : Nat) (x : Byte) : Outcome (Register order n) := do
  let b ← r.bytes.set index x
  ofSized b

/-- Replacing the byte of bit `i` by one that differs at most in that bit changes at most this
bit of the value. -/
theorem putBit_of_lt (r : Register order n) {i : Nat} (on : Bool) (h : i < n) {x y : Byte}
    (hx : r.bytes.byte (i / 8) = .ok x)
    (hy : ∀ k < 8, y.getLsbD k = if k = i % 8 then on else x.getLsbD k) :
    ∃ s : Register order n, (r.bytes.put (i / 8) y >>= fun b => ofSized b) = .ok s ∧
      ∀ j, s.bytes.value.testBit j = if j = i then on else r.bytes.value.testBit j := by
  have hbyte := r.byte_div_lt h
  rw [Buffer.byte_of_lt _ hbyte] at hx
  obtain ⟨b, hput, hlist⟩ := Buffer.put_of_lt r.bytes y (by rwa [Buffer.length_toList] at hbyte)
  obtain ⟨s, hs, hbytes⟩ := ofSized_of_length r (b := b) (by rw [hlist, List.length_set])
  refine ⟨s, by rw [hput, Outcome.ok_bind, hs], fun j => ?_⟩
  rw [hbytes, Buffer.testBit_value_of_set hbyte hlist]
  by_cases hj : j / 8 = i / 8
  · rw [if_pos hj, hy _ (Nat.mod_lt j (by decide)), Buffer.testBit_value, hj,
      List.getD_eq_getElem?_getD, List.getElem?_eq_getElem hbyte, Option.getD_some,
      Except.ok.inj hx]
    by_cases hji : j = i
    · rw [if_pos hji, if_pos (by rw [hji])]
    · rw [if_neg hji, if_neg (by omega)]
  · rw [if_neg hj, if_neg (by omega)]

theorem getLsbD_flagged (x : Byte) (on : Bool) {i k : Nat} (hi : i < 8) (hk : k < 8) :
    (flagged x ((1 : Byte) <<< i) on).getLsbD k = if k = i then on else x.getLsbD k := by
  cases on with
  | true =>
      rw [flagged, if_pos rfl, BitVec.getLsbD_or, Word.getLsbD_one_shiftLeft hi]
      by_cases hki : k = i <;> simp [hki]
  | false =>
      rw [flagged, if_neg Bool.false_ne_true, BitVec.getLsbD_and, BitVec.getLsbD_not,
        Word.getLsbD_one_shiftLeft hi]
      by_cases hki : k = i <;> simp [hki, hk]

/-- A bit of the value is written by one write, of its byte. -/
theorem setBit_eq_put (r : Register order n) {i : Nat} (on : Bool) (h : i < n)
    (hbyte : i / 8 < r.bytes.toList.length) :
    r.setBit i on = r.bytes.put (i / 8)
      (flagged r.bytes.toList[i / 8] ((1 : Byte) <<< (i % 8)) on) >>= fun b => ofSized b := by
  have hflag : bitFlag i = .ok ((1 : Byte) <<< (i % 8)) :=
    Checked.shiftLeft_of_lt _ (Nat.mod_lt i (by decide))
  have hx := Buffer.byte_of_lt r.bytes hbyte
  cases on with
  | true =>
      rw [setBit, if_pos rfl, setBitOn, if_neg (by omega), hflag, Outcome.ok_bind, hx,
        Outcome.ok_bind]
      rfl
  | false =>
      rw [setBit, if_neg Bool.false_ne_true, setBitOff, if_neg (by omega), hflag, Outcome.ok_bind, hx,
        Outcome.ok_bind]
      rfl

/-- A write of a bit of the value changes that bit and no other, padding included. -/
theorem setBit_of_lt (r : Register order n) {i : Nat} (on : Bool) (h : i < n) :
    ∃ s, r.setBit i on = .ok s ∧
      ∀ j, s.bytes.value.testBit j = if j = i then on else r.bytes.value.testBit j := by
  have hbyte := r.byte_div_lt h
  rw [r.setBit_eq_put on h hbyte]
  exact putBit_of_lt r on h (Buffer.byte_of_lt r.bytes hbyte) fun k hk =>
    getLsbD_flagged _ on (Nat.mod_lt i (by decide)) hk

end Register

end Bitfield
