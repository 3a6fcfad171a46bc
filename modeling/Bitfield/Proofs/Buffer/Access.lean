import Bitfield.Buffer.InPlace
import Bitfield.Proofs.Buffer
import Mathlib.Data.Fin.Rev

/-! A buffer is a plain list of its bytes, index 0 first. Every access to it is answered as the list
answers it and leaves the list that it leaves, so nothing shows where the bytes are stored; and they
are stored in all places of the buffer, each in one of its own. -/

namespace Bitfield

namespace Plain

open Buffer (Access Answer)

/-- What `found` makes of the byte at an index. Past the last byte there is none, and the bytes stay
as they were. -/
def reach (bytes : List Byte) (index : Nat) (failure : Error → Failure)
    (found : Byte → Answer × List Byte) : Outcome Answer × List Byte :=
  match bytes[index]? with
  | some x => (.ok (found x).1, (found x).2)
  | none => (.error (failure (.byteOutOfRange index bytes.length)), bytes)

/-- The failure of an access that promised to be in range. -/
def broken (e : Error) : Failure :=
  .fault (.unhandled e)

/-- The answer of plain bytes to an access, and the bytes after it. -/
def access (bytes : List Byte) : Access → Outcome Answer × List Byte
  | .get index => reach bytes index .refused fun x => (.byte x, bytes)
  | .set index x => reach bytes index .refused fun _ => (.done, bytes.set index x)
  | .modify index change =>
    reach bytes index .refused fun x => (.byte (change x), bytes.set index (change x))
  | .byte index => reach bytes index broken fun x => (.byte x, bytes)
  | .put index x => reach bytes index broken fun _ => (.done, bytes.set index x)
  | .low => (.ok (.byte? bytes.head?), bytes)
  | .high => (.ok (.byte? bytes.getLast?), bytes)
  | .modifyLow change => (.ok (.changed !bytes.isEmpty), bytes.modify 0 change)
  | .modifyHigh change => (.ok (.changed !bytes.isEmpty), bytes.modify (bytes.length - 1) change)

def accessAll (bytes : List Byte) : List Access → List (Outcome Answer) × List Byte
  | [] => ([], bytes)
  | a :: rest =>
    let (answer, after) := access bytes a
    let (answers, final) := accessAll after rest
    (answer :: answers, final)

theorem reach_of_lt {bytes : List Byte} {index : Nat} (h : index < bytes.length)
    (failure : Error → Failure) (found : Byte → Answer × List Byte) :
    reach bytes index failure found = (.ok (found bytes[index]).1, (found bytes[index]).2) := by
  rw [reach, List.getElem?_eq_getElem h]

theorem reach_of_le {bytes : List Byte} {index : Nat} (h : bytes.length ≤ index)
    (failure : Error → Failure) (found : Byte → Answer × List Byte) :
    reach bytes index failure found =
      (.error (failure (.byteOutOfRange index bytes.length)), bytes) := by
  rw [reach, List.getElem?_eq_none h]

theorem length_reach {bytes : List Byte} {index : Nat} {failure : Error → Failure}
    {found : Byte → Answer × List Byte} (h : ∀ x, (found x).2.length = bytes.length) :
    (reach bytes index failure found).2.length = bytes.length := by
  rw [reach]
  split
  · exact h _
  · rfl

theorem length_access (bytes : List Byte) (a : Access) :
    (access bytes a).2.length = bytes.length := by
  cases a with
  | get | byte => exact length_reach fun _ => rfl
  | set | modify | put => exact length_reach fun _ => List.length_set
  | low | high => rfl
  | modifyLow | modifyHigh => exact List.length_modify ..

theorem length_accessAll (bytes : List Byte) (accesses : List Access) :
    (accessAll bytes accesses).2.length = bytes.length := by
  induction accesses generalizing bytes with
  | nil => rfl
  | cons a rest ih => exact (ih _).trans (length_access bytes a)

end Plain

namespace Buffer

variable {order : ByteOrder}

theorem modify_of_lt (b : Buffer order) (change : Byte → Byte) {index : Nat}
    (h : index < b.toList.length) :
    ∃ c, b.modify index change = .ok c ∧ c.toList = b.toList.set index (change b.toList[index]) := by
  obtain ⟨c, hc, hlist⟩ := b.set_of_lt (change b.toList[index]) (by rwa [length_toList] at h)
  exact ⟨c, by rw [modify, b.get_of_lt h, Outcome.ok_bind, hc], hlist⟩

theorem modify_of_le (b : Buffer order) (change : Byte → Byte) {index : Nat} (h : b.size ≤ index) :
    b.modify index change = refuse (.byteOutOfRange index b.size) := by
  rw [modify, b.get_of_le h]
  rfl

/-- A byte that was replaced is read back. -/
theorem get_of_toList_set {b c : Buffer order} {index : Nat} {x : Byte}
    (hlist : c.toList = b.toList.set index x) (h : index < b.toList.length) :
    c.get index = .ok x := by
  rw [c.get_of_lt (by rwa [hlist, List.length_set])]
  simp only [hlist, List.getElem_set_self]

theorem byte_of_le (b : Buffer order) {index : Nat} (h : b.size ≤ index) :
    b.byte index = fault (.unhandled (.byteOutOfRange index b.size)) := by
  rw [byte, b.get_of_le h]
  rfl

theorem put_of_le (b : Buffer order) {index : Nat} (x : Byte) (h : b.size ≤ index) :
    b.put index x = fault (.unhandled (.byteOutOfRange index b.size)) := by
  rw [put, b.set_of_le x h]
  rfl

theorem lowByte?_eq (b : Buffer order) : b.lowByte? = .ok b.toList.head? := by
  rw [List.head?_eq_getElem?, lowByte?]
  rcases Nat.eq_zero_or_pos b.toList.length with h | h
  · rw [b.get_of_le (by rw [← length_toList, h]), List.getElem?_eq_none (Nat.le_of_eq h)]
    rfl
  · rw [b.get_of_lt h, Outcome.optional_ok, List.getElem?_eq_getElem h]

theorem highByte?_eq (b : Buffer order) : b.highByte? = .ok b.toList.getLast? := by
  rw [List.getLast?_eq_getElem?]
  rcases Nat.eq_zero_or_pos b.toList.length with h | h
  · rw [b.highByte?_of_empty (by rw [← length_toList, h]), List.getElem?_eq_none (by omega)]
  · have hlast : b.size - 1 < b.toList.length := by
      rw [length_toList] at h ⊢
      omega
    rw [b.highByte?_of_pos hlast, ← List.getElem?_eq_getElem hlast, length_toList]

/-- A change at one end is made if there is a byte there, and the list says whether there is. -/
theorem modifyEnd_of_size (b : Buffer order) (change : Byte → Byte) (index : Nat)
    {x : Outcome (Option (Buffer order))} (hempty : b.size = 0 → x = .ok none)
    (hpos : 0 < b.size → index < b.size ∧ x = (b.modify index change).optional) :
    ∃ c, x = .ok c ∧ c.isSome = !b.toList.isEmpty ∧
      (c.getD b).toList = b.toList.modify index change := by
  rcases Nat.eq_zero_or_pos b.size with h | h
  · have hnil : b.toList = [] := by rw [← List.length_eq_zero_iff, length_toList, h]
    exact ⟨none, hempty h, by rw [hnil]; rfl, by rw [Option.getD_none, hnil, List.modify_nil]⟩
  · obtain ⟨hindex, hx⟩ := hpos h
    have hlist : index < b.toList.length := by rwa [length_toList]
    obtain ⟨c, hc, hset⟩ := b.modify_of_lt change hlist
    refine ⟨some c, by rw [hx, hc, Outcome.optional_ok], ?_, ?_⟩
    · cases hnil : b.toList with
      | nil =>
          rw [hnil] at hlist
          cases hlist
      | cons y rest => rfl
    · rw [Option.getD_some, hset]
      apply List.ext_getElem?
      intro i
      rw [List.getElem?_modify, List.getElem?_set]
      by_cases hi : index = i
      · subst hi
        simp [hlist]
      · simp [hi]

theorem access_of_read {α : Type} {b : Buffer order} {a : Access} {x : Outcome α}
    {answer : α → Answer} (h : b.perform a = x >>= fun y => .ok (answer y, b)) :
    (b.access a).2 = b := by
  rw [access, h]
  cases x <;> rfl

/-- Made in place, an access is answered as ever and leaves the same buffer. No access fails once it
has replaced a byte. -/
theorem accessInPlace_eq (b : Buffer order) (a : Access) : b.accessInPlace a = b.access a := by
  cases a with
  | get | byte | low | high => exact Prod.ext rfl (access_of_read rfl).symm
  | set index x =>
      rw [accessInPlace, setInPlace_eq, access, perform]
      cases b.set index x <;> rfl
  | put index x =>
      rw [accessInPlace, setInPlace_eq, access, perform, put]
      cases b.set index x with
      | ok c => rfl
      | error e => cases e <;> rfl
  | modify index change =>
      rw [accessInPlace, modifyInPlace_eq, access, perform]
      rcases Nat.lt_or_ge index b.toList.length with h | h
      · obtain ⟨c, hc, hlist⟩ := b.modify_of_lt change h
        simp only [hc, Outcome.atOnce, Outcome.ok_bind, get_of_toList_set hlist h]
        rfl
      · rw [b.modify_of_le change (by rwa [length_toList] at h)]
        rfl
  | modifyLow change =>
      rw [accessInPlace, modifyInPlace_eq, access, perform, modifyLow?]
      cases b.modify 0 change with
      | ok c => rfl
      | error e => cases e <;> rfl
  | modifyHigh change =>
      rw [accessInPlace, modifyInPlace_eq, access, perform, modifyHigh?]
      by_cases hempty : b.size = 0
      · rw [if_pos hempty, if_pos hempty]
        rfl
      · rw [if_neg hempty, if_neg hempty]
        cases b.modify (b.size - 1) change with
        | ok c => rfl
        | error e => cases e <;> rfl

/-- The answer to an access and the bytes after it, as plain bytes give them. -/
def Refines (b : Buffer order) (a : Access) : Prop :=
  ((b.access a).1, (b.access a).2.toList) = Plain.access b.toList a

theorem Refines.of_ok {b c : Buffer order} {a : Access} {answer : Answer}
    (h : b.perform a = .ok (answer, c)) (hplain : Plain.access b.toList a = (.ok answer, c.toList)) :
    Refines b a := by
  rw [Refines, access, h, hplain]

/-- An access that reaches for one index is decided by whether the list has a byte there. -/
theorem Refines.of_reach {b : Buffer order} {a : Access} {index : Nat} {failure : Error → Failure}
    {found : Byte → Answer × List Byte}
    (hplain : Plain.access b.toList a = Plain.reach b.toList index failure found)
    (hinside : ∀ h : index < b.toList.length, ∃ c,
      b.perform a = .ok ((found b.toList[index]).1, c) ∧ c.toList = (found b.toList[index]).2)
    (houtside : b.size ≤ index →
      b.perform a = .error (failure (.byteOutOfRange index b.size))) : Refines b a := by
  rw [Refines, hplain, access]
  rcases Nat.lt_or_ge index b.toList.length with h | h
  · obtain ⟨c, hc, hlist⟩ := hinside h
    rw [hc, Plain.reach_of_lt h, hlist]
  · rw [houtside (by rwa [length_toList] at h), Plain.reach_of_le h, length_toList]

theorem refines (b : Buffer order) (a : Access) : Refines b a := by
  cases a with
  | get index =>
      refine .of_reach rfl (fun h => ⟨b, ?_, rfl⟩) fun h => ?_
      · rw [perform, b.get_of_lt h, Outcome.ok_bind]
      · rw [perform, b.get_of_le h]
        rfl
  | set index x =>
      refine .of_reach rfl (fun h => ?_) fun h => ?_
      · obtain ⟨c, hc, hlist⟩ := b.set_of_lt x (by rwa [length_toList] at h)
        exact ⟨c, by rw [perform, hc, Outcome.ok_bind], hlist⟩
      · rw [perform, b.set_of_le x h]
        rfl
  | modify index change =>
      refine .of_reach rfl (fun h => ?_) fun h => ?_
      · obtain ⟨c, hc, hlist⟩ := b.modify_of_lt change h
        have hread := get_of_toList_set hlist h
        exact ⟨c, by rw [perform, hc, Outcome.ok_bind, hread, Outcome.ok_bind], hlist⟩
      · rw [perform, b.modify_of_le change h]
        rfl
  | byte index =>
      refine .of_reach rfl (fun h => ⟨b, ?_, rfl⟩) fun h => ?_
      · rw [perform, b.byte_of_lt h, Outcome.ok_bind]
      · rw [perform, b.byte_of_le h]
        rfl
  | put index x =>
      refine .of_reach rfl (fun h => ?_) fun h => ?_
      · obtain ⟨c, hc, hlist⟩ := b.put_of_lt x (by rwa [length_toList] at h)
        exact ⟨c, by rw [perform, hc, Outcome.ok_bind], hlist⟩
      · rw [perform, b.put_of_le x h]
        rfl
  | low =>
      refine .of_ok (c := b) ?_ rfl
      rw [perform, b.lowByte?_eq, Outcome.ok_bind]
  | high =>
      refine .of_ok (c := b) ?_ rfl
      rw [perform, b.highByte?_eq, Outcome.ok_bind]
  | modifyLow change =>
      obtain ⟨c, hc, hfound, hlist⟩ := b.modifyEnd_of_size change 0 (x := b.modifyLow? change)
        (fun h => by rw [modifyLow?, b.modify_of_le change (Nat.le_of_eq h)]; rfl)
        fun h => ⟨h, rfl⟩
      have hstep : b.perform (.modifyLow change) = .ok (.changed c.isSome, c.getD b) := by
        rw [perform, hc, Outcome.ok_bind]
      refine .of_ok hstep ?_
      rw [hlist, hfound]
      rfl
  | modifyHigh change =>
      obtain ⟨c, hc, hfound, hlist⟩ := b.modifyEnd_of_size change (b.size - 1)
        (x := b.modifyHigh? change) (fun h => if_pos h)
        fun h => ⟨Nat.sub_lt h Nat.one_pos, if_neg (Nat.ne_of_gt h)⟩
      have hstep : b.perform (.modifyHigh change) = .ok (.changed c.isSome, c.getD b) := by
        rw [perform, hc, Outcome.ok_bind]
      refine .of_ok hstep ?_
      rw [hlist, hfound, ← length_toList]
      rfl

theorem accessAll_refines (b : Buffer order) (accesses : List Access) :
    ((b.accessAll accesses).1, (b.accessAll accesses).2.toList) =
      Plain.accessAll b.toList accesses := by
  induction accesses generalizing b with
  | nil => rfl
  | cons a rest ih =>
      have hstep : ((b.access a).1, (b.access a).2.toList) = Plain.access b.toList a := b.refines a
      have hrest := ih (b.access a).2
      rw [accessAll, Plain.accessAll, ← hstep]
      simp only [← hrest]

/-- The place of a byte in its buffer, by its index. -/
def place (b : Buffer order) : Equiv.Perm (Fin b.size) :=
  match order with
  | .little => Equiv.refl _
  | .big => Fin.revPerm

theorem place_val (b : Buffer order) (i : Fin b.size) :
    (order = .little → (b.place i : Nat) = i) ∧
      (order = .big → (b.place i : Nat) = b.size - 1 - i) := by
  cases order with
  | little => exact ⟨fun _ => rfl, fun h => (by cases h)⟩
  | big =>
      have hrev : (b.place i : Nat) = b.size - (i + 1) := Fin.val_rev i
      exact ⟨fun h => (by cases h), fun _ => by rw [hrev, Nat.add_comm, Nat.sub_add_eq]⟩

theorem offset_eq_place (b : Buffer order) (i : Fin b.size) : b.offset i = .ok (b.place i : Nat) := by
  rw [offset, if_pos i.isLt, ByteOrder.offset_of_lt order i.isLt]
  cases order with
  | little => rfl
  | big => rw [(b.place_val i).2 rfl]

theorem toList_eq_place (b : Buffer order) (i : Fin b.size) :
    b.toList[(i : Nat)]? = b.data[(b.place i : Nat)]? := by
  cases order with
  | little => simp [toList, place]
  | big =>
      have hi : (i : Nat) < b.data.toList.length := by simpa [size] using i.isLt
      rw [(b.place_val i).2 rfl, toList, List.getElem?_reverse hi, Array.length_toList,
        Array.getElem?_toList]
      rfl

/-- Whatever is read from a buffer, written to it or refused by it, in whatever order, is what a plain
list of its bytes answers; its size never changes, and an access past it that promised to be in range
stops with the text of the refusal. The bytes of the list lie in the buffer as its byte order says,
every one in a place of its own and every place taken. -/
theorem accessAll_plain (b : Buffer order) (accesses : List Access) :
    (b.accessAll accesses).1 = (Plain.accessAll b.toList accesses).1 ∧
    (b.accessAll accesses).2.toList = (Plain.accessAll b.toList accesses).2 ∧
    (b.accessAll accesses).2.size = b.size ∧
    (∀ (index : Nat) (x : Byte), b.size ≤ index → ∃ f,
      b.byte index = fault f ∧ b.put index x = fault f ∧
      f.message = (Error.byteOutOfRange index b.size).message) ∧
    ∃ place : Equiv.Perm (Fin b.size), ∀ i : Fin b.size,
      b.offset i = .ok (place i : Nat) ∧ b.toList[(i : Nat)]? = b.data[(place i : Nat)]? ∧
      (order = .little → (place i : Nat) = i) ∧
      (order = .big → (place i : Nat) = b.size - 1 - i) := by
  have hrefines := b.accessAll_refines accesses
  have hlist : (b.accessAll accesses).2.toList = (Plain.accessAll b.toList accesses).2 :=
    congrArg Prod.snd hrefines
  refine ⟨congrArg Prod.fst hrefines, hlist, ?_, ?_, b.place, ?_⟩
  · rw [← length_toList, hlist, Plain.length_accessAll, length_toList]
  · exact fun index x h => ⟨_, b.byte_of_le h, b.put_of_le x h, rfl⟩
  · exact fun i => ⟨b.offset_eq_place i, b.toList_eq_place i, b.place_val i⟩

theorem accessAll_plain_two :
    ((⟨#[0x0A, 0xD7]⟩ : Buffer .big).accessAll
      [.low, .set 1 0x33, .modify 2 (· + 1), .high]).2.toList = [0xD7, 0x33] ∧
    2 ≤ 2 ∧ ∃ f, (⟨#[0x0A, 0xD7]⟩ : Buffer .big).byte 2 = fault f ∧
      f.message = (Error.byteOutOfRange 2 2).message := by
  obtain ⟨-, hlist, -, hpast, -⟩ := accessAll_plain (⟨#[0x0A, 0xD7]⟩ : Buffer .big)
    [.low, .set 1 0x33, .modify 2 (· + 1), .high]
  obtain ⟨f, hbyte, -, hmessage⟩ := hpast 2 0 (Nat.le_refl 2)
  exact ⟨hlist, Nat.le_refl 2, f, hbyte, hmessage⟩

end Buffer

end Bitfield
