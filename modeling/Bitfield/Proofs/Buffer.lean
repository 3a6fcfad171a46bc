import Bitfield.Buffer.Value

/-! Buffers by their bits. A byte that is read is eight bits of the number in the buffer, a byte that
is written replaces them and no others, and the bytes at the two ends are there unless the buffer is
empty. Buffers of one size that hold the same number have the same bytes, each in its own order. -/

namespace Bitfield.Buffer

variable {order order' : ByteOrder}

theorem valueOf_injective {left right : List Byte} (hlength : left.length = right.length)
    (h : valueOf left = valueOf right) : left = right := by
  induction left generalizing right with
  | nil => exact (List.length_eq_zero_iff.1 hlength.symm).symm
  | cons x left ih =>
      cases right with
      | nil => cases hlength
      | cons y right =>
          have hx := x.isLt
          have hy := y.isLt
          simp only [valueOf] at h
          rw [ih (by simpa using hlength) (by omega), BitVec.eq_of_toNat_eq (x := x) (y := y) (by omega)]

theorem testBit_value_of_le (b : Buffer order) {j : Nat} (h : 8 * b.size ≤ j) :
    b.value.testBit j = false := by
  have hlist : b.toList.length ≤ j / 8 := by
    rw [length_toList]
    omega
  rw [testBit_value, List.getD_eq_getElem?_getD, List.getElem?_eq_none hlist, Option.getD_none]
  exact BitVec.getLsbD_zero

theorem byte_of_size (b : Buffer order) {index : Nat} (h : index < b.size) :
    ∃ x, b.byte index = .ok x ∧ ∀ k < 8, x.getLsbD k = b.value.testBit (8 * index + k) := by
  have hlist : index < b.toList.length := by rwa [length_toList]
  exact ⟨_, byte_of_lt b hlist, fun k hk => getLsbD_getElem b hlist hk⟩

/-- A write keeps the size and replaces the bits of its byte. -/
theorem set_of_size (b : Buffer order) {index : Nat} (x : Byte) (h : index < b.size) :
    ∃ c, b.set index x = .ok c ∧ c.size = b.size ∧
      ∀ j, c.value.testBit j = if j / 8 = index then x.getLsbD (j % 8) else b.value.testBit j := by
  obtain ⟨c, hc, hlist⟩ := b.set_of_lt x h
  refine ⟨c, hc, ?_, ?_⟩
  · rw [← length_toList, hlist, List.length_set, length_toList]
  · exact testBit_value_of_set (by rwa [length_toList]) hlist

theorem put_of_size (b : Buffer order) {index : Nat} (x : Byte) (h : index < b.size) :
    ∃ c, b.put index x = .ok c ∧ c.size = b.size ∧
      ∀ j, c.value.testBit j = if j / 8 = index then x.getLsbD (j % 8) else b.value.testBit j := by
  obtain ⟨c, hc, hsize, hbits⟩ := b.set_of_size x h
  exact ⟨c, by rw [put, hc, Outcome.insist_ok], hsize, hbits⟩

theorem lowByte?_of_pos (b : Buffer order) (h : 0 < b.size) :
    ∃ x, b.lowByte? = .ok (some x) ∧ ∀ k < 8, x.getLsbD k = b.value.testBit k := by
  have hlist : 0 < b.toList.length := by rwa [length_toList]
  refine ⟨b.toList[0], ?_, fun k hk => ?_⟩
  · rw [lowByte?, get_of_lt b hlist, Outcome.optional_ok]
  · rw [getLsbD_getElem b hlist hk, Nat.mul_zero, Nat.zero_add]

theorem highByte?_of_pos (b : Buffer order) (h : b.size - 1 < b.toList.length) :
    b.highByte? = .ok (some b.toList[b.size - 1]) := by
  have hpos : b.size ≠ 0 := by
    rw [length_toList] at h
    omega
  rw [highByte?, if_neg hpos, get_of_lt b h, Outcome.optional_ok]

theorem modifyHigh?_of_pos (b : Buffer order) (change : Byte → Byte)
    (h : b.size - 1 < b.toList.length) :
    ∃ c, b.modifyHigh? change = .ok (some c) ∧
      c.toList = b.toList.set (b.size - 1) (change b.toList[b.size - 1]) := by
  have hpos : 0 < b.size := by
    rw [length_toList] at h
    omega
  obtain ⟨c, hc, hlist⟩ := b.set_of_lt (change b.toList[b.size - 1]) (Nat.sub_lt hpos Nat.one_pos)
  refine ⟨c, ?_, hlist⟩
  rw [modifyHigh?, if_neg (Nat.ne_of_gt hpos), modify, get_of_lt b h, Outcome.ok_bind, hc,
    Outcome.optional_ok]

theorem lowByte?_of_empty (b : Buffer order) (h : b.size = 0) : b.lowByte? = .ok none := by
  rw [lowByte?, get_of_le b (Nat.le_of_eq h)]
  rfl

theorem highByte?_of_empty (b : Buffer order) (h : b.size = 0) : b.highByte? = .ok none :=
  if_pos h

theorem toList_eq_of_value {b : Buffer order} {c : Buffer order'} (hsize : b.size = c.size)
    (h : b.value = c.value) : b.toList = c.toList := by
  apply valueOf_injective _ h
  rw [length_toList, length_toList, hsize]

/-- The bytes that two buffers have in common lie in the same places in buffers of one order, and the
other way round in buffers of different orders. -/
theorem data_eq_of_toList {b : Buffer order} {c : Buffer order'} (h : b.toList = c.toList) :
    (order = order' → b.data = c.data) ∧ (order ≠ order' → b.data = c.data.reverse) := by
  cases order <;> cases order' <;> simp only [toList, List.reverse_inj] at h
  · exact ⟨fun _ => Array.ext' h, fun hne => absurd rfl hne⟩
  · refine ⟨fun heq => (by cases heq), fun _ => Array.ext' ?_⟩
    rw [h, Array.toList_reverse]
  · refine ⟨fun heq => (by cases heq), fun _ => Array.ext' ?_⟩
    rw [Array.toList_reverse, ← h, List.reverse_reverse]
  · exact ⟨fun _ => Array.ext' h, fun hne => absurd rfl hne⟩

end Bitfield.Buffer
