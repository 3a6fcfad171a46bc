import Bitfield.ByteOrder
import Bitfield.Word

/-!
A buffer of bytes read by significance. Index 0 is the least significant byte, whichever end of the
buffer the byte order puts it on, so nothing that goes through `get`, `set` and their relatives can
tell the two orders apart. `toList` and `value` say what a buffer means: its bytes from the least
significant one on, and the number they write in base 256.
-/

namespace Bitfield

/-- Bytes in the order in which they are stored, and the byte order in which they are read. -/
structure Buffer (order : ByteOrder) where
  data : Array Byte
deriving DecidableEq

namespace Buffer

variable {order : ByteOrder}

def size (b : Buffer order) : Nat :=
  b.data.size

/-- The bytes from the least significant one on. -/
def toList (b : Buffer order) : List Byte :=
  match order with
  | .little => b.data.toList
  | .big => b.data.toList.reverse

/-- The number that bytes write in base 256, the least significant byte first. -/
def valueOf : List Byte → Nat
  | [] => 0
  | x :: rest => x.toNat + 256 * valueOf rest

def value (b : Buffer order) : Nat :=
  valueOf b.toList

def offset (b : Buffer order) (index : Nat) : Outcome Nat :=
  if index < b.size then order.offset index b.size
  else refuse (.byteOutOfRange index b.size)

/-- Byte `index`, refused outside the buffer. -/
def get (b : Buffer order) (index : Nat) : Outcome Byte := do
  let place ← b.offset index
  match b.data[place]? with
  | some x => .ok x
  | none => fault .outside

def set (b : Buffer order) (index : Nat) (x : Byte) : Outcome (Buffer order) := do
  let place ← b.offset index
  if h : place < b.data.size then .ok ⟨b.data.set place x h⟩ else fault .outside

def modify (b : Buffer order) (index : Nat) (change : Byte → Byte) : Outcome (Buffer order) := do
  let x ← b.get index
  b.set index (change x)

/-- Byte `index`, which has to lie inside the buffer. -/
def byte (b : Buffer order) (index : Nat) : Outcome Byte :=
  (b.get index).insist

def put (b : Buffer order) (index : Nat) (x : Byte) : Outcome (Buffer order) :=
  (b.set index x).insist

def lowByte? (b : Buffer order) : Outcome (Option Byte) :=
  (b.get 0).optional

def highByte? (b : Buffer order) : Outcome (Option Byte) :=
  if b.size = 0 then .ok none else (b.get (b.size - 1)).optional

def modifyLow? (b : Buffer order) (change : Byte → Byte) : Outcome (Option (Buffer order)) :=
  (b.modify 0 change).optional

def modifyHigh? (b : Buffer order) (change : Byte → Byte) : Outcome (Option (Buffer order)) :=
  if b.size = 0 then .ok none else (b.modify (b.size - 1) change).optional

/-- The buffer with its bytes stored the other way round. -/
def reverse (b : Buffer order) : Buffer order :=
  ⟨b.data.reverse⟩

/-- A word with one byte of the buffer shifted in at its low end; what leaves the word at the top is
lost. -/
def shiftInByte {w : Nat} (b : Buffer order) (word : BitVec w) (index : Nat) :
    Outcome (BitVec w) := do
  let x ← b.byte index
  .ok (Word.shiftUp word 8 ||| x.setWidth w)

/-- A word with the bytes at `indices` shifted in one after the other. -/
def shiftIn {w : Nat} (b : Buffer order) (start : BitVec w) (indices : List Nat) :
    Outcome (BitVec w) :=
  indices.foldlM b.shiftInByte start

/-- The buffer as a hexadecimal numeral, the most significant byte first. -/
def render (b : Buffer order) : Outcome String := do
  let bytes ← (List.range b.size).reverse.mapM b.byte
  .ok ("0x" ++ Byte.hex bytes)

def record (b : Buffer order) : Outcome Record := do
  let text ← b.render
  .ok ⟨"ByteView", [("endianness", order.name), ("value", text)]⟩

theorem length_toList (b : Buffer order) : b.toList.length = b.size := by
  cases order <;> simp [toList, size]

theorem ext_toList {b c : Buffer order} (h : b.toList = c.toList) : b = c := by
  cases b; cases c
  cases order <;> simp_all [toList]

theorem get_of_lt (b : Buffer order) {index : Nat} (hlist : index < b.toList.length) :
    b.get index = .ok b.toList[index] := by
  have h : index < b.size := by rwa [length_toList] at hlist
  simp only [get, offset, if_pos h, ByteOrder.offset_of_lt order h, Outcome.ok_bind]
  cases order with
  | little =>
      rw [Array.getElem?_eq_getElem (by simpa [size] using h)]
      simp [toList]
  | big =>
      have hplace : b.size - 1 - index < b.data.size := by
        simp only [size] at h ⊢
        omega
      rw [Array.getElem?_eq_getElem hplace]
      simp [toList, size]

theorem get_of_le (b : Buffer order) {index : Nat} (h : b.size ≤ index) :
    b.get index = refuse (.byteOutOfRange index b.size) := by
  simp only [get, offset, if_neg (Nat.not_lt.2 h)]
  rfl

/-- A write inside the buffer replaces the byte of that significance and no other. -/
theorem set_of_lt (b : Buffer order) {index : Nat} (x : Byte) (h : index < b.size) :
    ∃ c, b.set index x = .ok c ∧ c.toList = b.toList.set index x := by
  simp only [set, offset, if_pos h, ByteOrder.offset_of_lt order h, Outcome.ok_bind]
  cases order with
  | little =>
      rw [dif_pos (by simpa [size] using h)]
      exact ⟨_, rfl, by simp [toList]⟩
  | big =>
      have hplace : b.size - 1 - index < b.data.size := by
        simp only [size] at h ⊢
        omega
      rw [dif_pos hplace]
      refine ⟨_, rfl, ?_⟩
      apply List.ext_getElem
      · simp [toList]
      · intro i hleft hright
        simp only [toList, size, Array.toList_set, List.getElem_reverse, List.getElem_set,
          List.length_set, List.length_reverse, Array.length_toList] at hleft hright h ⊢
        by_cases hi : index = i
        · subst hi
          rw [if_pos rfl, if_pos rfl]
        · rw [if_neg hi, if_neg (by omega)]

theorem set_of_le (b : Buffer order) {index : Nat} (x : Byte) (h : b.size ≤ index) :
    b.set index x = refuse (.byteOutOfRange index b.size) := by
  simp only [set, offset, if_neg (Nat.not_lt.2 h)]
  rfl

theorem byte_of_lt (b : Buffer order) {index : Nat} (h : index < b.toList.length) :
    b.byte index = .ok b.toList[index] := by
  rw [byte, get_of_lt b h, Outcome.insist_ok]

theorem put_of_lt (b : Buffer order) {index : Nat} (x : Byte) (h : index < b.size) :
    ∃ c, b.put index x = .ok c ∧ c.toList = b.toList.set index x := by
  obtain ⟨c, hc, hlist⟩ := set_of_lt b x h
  exact ⟨c, by rw [put, hc, Outcome.insist_ok], hlist⟩

end Buffer

end Bitfield
