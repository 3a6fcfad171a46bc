import Bitfield.Checked

/-!
Byte orders: which end of a buffer holds the least significant byte.
-/

namespace Bitfield

/-- Where the least significant byte of a buffer lies: first, or last. -/
inductive ByteOrder where
  | little
  | big
deriving DecidableEq

namespace ByteOrder

def name : ByteOrder → String
  | little => "Little"
  | big => "Big"

/-- The byte of a word that a machine of this order stores at the lower address. -/
def firstByte (order : ByteOrder) (word : BitVec 16) : BitVec 8 :=
  match order with
  | little => word.setWidth 8
  | big => (word >>> 8).setWidth 8

/-- The order of a machine, told by the byte that it stores at the lower address of a word. -/
def ofFirstByte (first : BitVec 16 → BitVec 8) : ByteOrder :=
  if first 0x00FF = 0xFF then little else big

/-- The order of machines that store the low byte of a word first, as those of the x86 and aarch64
families do. On a machine that stores the high byte first the order is `ofFirstByte big.firstByte`. -/
def native : ByteOrder :=
  ofFirstByte little.firstByte

/-- Where the byte of significance `index` lies in a buffer of `size` bytes. -/
def offset (order : ByteOrder) (index size : Nat) : Outcome Nat :=
  match order with
  | little => .ok index
  | big => do
    let last ← Checked.sub size 1
    Checked.sub last index

def json (order : ByteOrder) : String :=
  "\"" ++ order.name ++ "\""

def isJsonBlank (c : Char) : Bool :=
  c = ' ' || c = '\t' || c = '\n' || c = '\r'

/-- The order that a JSON text names, blanks around it apart. Only the text that `json` gives is read: a
name with an escaped character in it, or one inside an object, is the same name to other readers and
is refused here. -/
def ofJson? (text : String) : Option ByteOrder :=
  let rest := text.toList.dropWhile isJsonBlank
  let core := (rest.reverse.dropWhile isJsonBlank).reverse
  if core = little.json.toList then some little
  else if core = big.json.toList then some big
  else none

/-- A machine of either order is told by its first byte. -/
theorem ofFirstByte_firstByte (order : ByteOrder) : ofFirstByte order.firstByte = order := by
  cases order <;> decide

theorem ofJson?_json (order : ByteOrder) : ofJson? order.json = some order := by
  cases order <;> decide

theorem offset_of_lt (order : ByteOrder) {index size : Nat} (h : index < size) :
    order.offset index size =
      .ok (match order with | little => index | big => size - 1 - index) := by
  cases order with
  | little => rfl
  | big =>
      simp only [offset]
      rw [Checked.sub_of_le (by omega), Outcome.ok_bind, Checked.sub_of_le (by omega)]

end ByteOrder

end Bitfield
