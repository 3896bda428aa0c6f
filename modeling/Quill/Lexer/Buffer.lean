import Quill.Feed

/-! # Buffers

A buffer is an array of bytes of which only the first ones hold input; what stands behind them is
of no account. Bytes that are done with are shifted out at the front, and a full buffer doubles
before it takes more. What an operation does is said by what it does to the bytes held.
-/
namespace Quill

structure Buffer where
  data : ByteArray
  /-- How many bytes hold input. -/
  size : Nat
  size_le : size ≤ data.size
  data_pos : 0 < data.size

namespace Buffer

def zeros (n : Nat) : ByteArray := ⟨.replicate n 0⟩

@[simp] theorem size_zeros (n : Nat) : (zeros n).size = n := Array.size_replicate

/-- A capacity of zero counts as one. -/
def withCapacity (capacity : Nat) : Buffer where
  data := zeros (max capacity 1)
  size := 0
  size_le := Nat.zero_le _
  data_pos := by
    rw [size_zeros]
    exact Nat.lt_of_lt_of_le Nat.zero_lt_one (Nat.le_max_right ..)

def slice (b : Buffer) (first last : Nat) : List UInt8 := (b.data.extract first last).data.toList

def bytes (b : Buffer) : List UInt8 := b.slice 0 b.size

def get? (b : Buffer) (i : Nat) : Option UInt8 :=
  if h : i < b.size then some (b.data.get i (Nat.lt_of_lt_of_le h b.size_le)) else none

/-- Drops the first `n` bytes and moves the others to the front. -/
def shift (b : Buffer) (n : Nat) : Buffer where
  data := b.data.copySlice n b.data 0 (b.size - n)
  size := b.size - n
  size_le := by
    have := b.size_le
    simp [ByteArray.copySlice_eq_append, ByteArray.size_extract, ByteArray.size_append]
    omega
  data_pos := by
    have := b.size_le
    have := b.data_pos
    simp [ByteArray.copySlice_eq_append, ByteArray.size_extract, ByteArray.size_append]
    omega

/-- Makes room: a full buffer doubles. -/
def grow (b : Buffer) : Buffer :=
  if b.size = b.data.size then
    { b with
      data := b.data ++ zeros b.data.size
      size_le := by
        rw [ByteArray.size_append]
        exact Nat.le_add_right_of_le b.size_le
      data_pos := by
        rw [ByteArray.size_append]
        exact Nat.add_pos_left b.data_pos _ }
  else b

@[simp] theorem size_grow (b : Buffer) : b.grow.size = b.size := by
  unfold grow
  split <;> rfl

def append (b : Buffer) (bs : List UInt8) : Buffer where
  data := bs.toByteArray.copySlice 0 b.data b.size bs.length
  size := b.size + bs.length
  size_le := by
    have := b.size_le
    simp [ByteArray.copySlice_eq_append, ByteArray.size_extract, ByteArray.size_append]
    omega
  data_pos := by
    have := b.data_pos
    simp [ByteArray.copySlice_eq_append, ByteArray.size_extract, ByteArray.size_append]
    omega

def room (b : Buffer) : Nat := b.data.size - b.size

/-! ### What the buffer holds -/

variable (b : Buffer)

theorem bytes_eq : b.bytes = b.data.data.toList.take b.size := by
  simp [bytes, slice]

@[simp] theorem length_bytes : b.bytes.length = b.size := by
  rw [bytes_eq, List.length_take]
  exact Nat.min_eq_left b.size_le

theorem slice_eq (first : Nat) {last : Nat} (h : last ≤ b.size) :
    b.slice first last = (b.bytes.take last).drop first := by
  rw [bytes_eq, List.take_take, Nat.min_eq_left h]
  simp [slice, List.drop_take]

theorem get?_eq (i : Nat) : b.get? i = b.bytes[i]? := by
  unfold get?
  by_cases hi : i < b.size
  · rw [dif_pos hi, bytes_eq, List.getElem?_take_of_lt hi, Array.getElem?_toList,
      Array.getElem?_eq_getElem]
    rfl
  · rw [dif_neg hi, List.getElem?_eq_none]
    rw [length_bytes]
    exact Nat.le_of_not_lt hi

@[simp] theorem bytes_withCapacity (capacity : Nat) : (withCapacity capacity).bytes = [] :=
  List.eq_nil_of_length_eq_zero (length_bytes _)

@[simp] theorem bytes_shift (n : Nat) : (b.shift n).bytes = b.bytes.drop n := by
  have hsize : b.size - n = (b.data.extract n (n + (b.size - n))).size := by
    have := b.size_le
    rw [ByteArray.size_extract]
    omega
  change ((b.data.copySlice n b.data 0 (b.size - n)).extract 0 (b.size - n)).data.toList = _
  rw [ByteArray.copySlice_eq_append, ByteArray.extract_same, ByteArray.empty_append,
    ByteArray.extract_append_eq_left hsize, bytes_eq, List.drop_take]
  simp

@[simp] theorem bytes_grow : b.grow.bytes = b.bytes := by
  unfold grow
  split
  · rename_i hfull
    rw [bytes, slice, ByteArray.extract_append_eq_left hfull, bytes, slice, hfull,
      ByteArray.extract_zero_size]
  · rfl

@[simp] theorem bytes_append (bs : List UInt8) : (b.append bs).bytes = b.bytes ++ bs := by
  have hsize : b.size + bs.length =
      (b.data.extract 0 b.size ++ bs.toByteArray.extract 0 (0 + bs.length)).size := by
    have := b.size_le
    simp only [ByteArray.size_append, ByteArray.size_extract, List.size_toByteArray]
    omega
  change ((bs.toByteArray.copySlice 0 b.data b.size bs.length).extract 0
    (b.size + bs.length)).data.toList = _
  rw [ByteArray.copySlice_eq_append, ByteArray.extract_append_eq_left hsize]
  simp [bytes, slice, ByteArray.data_append]

theorem room_grow : 0 < b.grow.room := by
  have := b.size_le
  have := b.data_pos
  unfold grow
  split <;> simp only [room, ByteArray.size_append, size_zeros] <;> omega

theorem data_size_grow :
    b.grow.data.size = if b.size = b.data.size then 2 * b.data.size else b.data.size := by
  unfold grow
  split
  · simp only [ByteArray.size_append, size_zeros]
    omega
  · rfl

theorem data_size_append {bs : List UInt8} (h : bs.length ≤ b.room) :
    (b.append bs).data.size = b.data.size := by
  have := b.size_le
  unfold room at h
  simp [append, ByteArray.copySlice_eq_append, ByteArray.size_extract, ByteArray.size_append]
  omega

end Buffer

end Quill
