import Jinx.Http.BufferView

/-! `buffer::BufferView` as the code has it: an address, the memory there, and two offsets into it.

    The views of the other modules keep the memory in parts; `toView` is how the two fit together. -/

namespace Jinx.Http

/-- `_begin <= _end <= _memory_size` holds of every view that a pool hands out, and is kept. -/
structure RawView where
  /-- `_memory` -/
  memory : Nat
  /-- the `_memory_size` bytes at this address -/
  bytes : List Byte
  begin_ : Nat
  end_ : Nat
  begin_le : begin_ ≤ end_
  end_le : end_ ≤ bytes.length

/-- `SliceConst`: an address and a number of bytes. -/
structure SliceConst where
  data : Nat := 0
  size : Nat := 0
  deriving DecidableEq, Repr

namespace RawView

def memorySize (v : RawView) : Nat := v.bytes.length

def capacity (v : RawView) : Nat := v.memorySize - v.end_

def size (v : RawView) : Nat := v.end_ - v.begin_

/-- The view of a buffer as `BufferMemory` constructs and resets it. -/
def fresh (memory : Nat) (bytes : List Byte) : RawView :=
  { memory, bytes, begin_ := 0, end_ := 0, begin_le := Nat.le_refl 0, end_le := Nat.zero_le _ }

def resetFull (v : RawView) : RawView :=
  { v with begin_ := 0, end_ := v.memorySize, begin_le := Nat.zero_le _, end_le := Nat.le_refl _ }

/-- The memory of the view begins later by `n`; `none` is `Failed_`. -/
def cut (v : RawView) (n : Nat) : Option RawView :=
  if h : n > v.begin_ then none
  else some {
    memory := v.memory + n
    bytes := v.bytes.drop n
    begin_ := v.begin_ - n
    end_ := v.end_ - n
    begin_le := Nat.sub_le_sub_right v.begin_le n
    end_le := by
      rw [List.length_drop]
      exact Nat.sub_le_sub_right v.end_le n }

def commit (v : RawView) (n : Nat) : Option RawView :=
  if h : n > v.capacity then none
  else some { v with
    end_ := v.end_ + n
    begin_le := Nat.le_trans v.begin_le (Nat.le_add_right ..)
    end_le := by
      have hend := v.end_le
      simp only [capacity, memorySize, Nat.not_lt] at h
      omega }

def consume (v : RawView) (n : Nat) : Option RawView :=
  if h : n > v.size then none
  else some { v with
    begin_ := v.begin_ + n
    begin_le := by
      have hbegin := v.begin_le
      simp only [size, Nat.not_lt] at h
      omega }

def sliceForConsumer (v : RawView) : SliceConst := { data := v.memory + v.begin_, size := v.size }

/-- The bytes from `p` to `last`. -/
def slice (v : RawView) (p last : Nat) : List Byte := (v.bytes.take last).drop p

/-- The bytes that a slice of this memory shows. -/
def shows (v : RawView) (s : SliceConst) : List Byte :=
  v.slice (s.data - v.memory) (s.data - v.memory + s.size)

/-- The bytes from the offset `p` to `_end`. -/
def rest (v : RawView) (p : Nat) : List Byte := (v.bytes.take v.end_).drop p

/-- The bytes between `_begin` and `_end`. -/
def content (v : RawView) : List Byte := v.rest v.begin_

/-- The bytes before the window, the window, and the room behind it. -/
def toView (v : RawView) : BufferView :=
  { front := v.bytes.take v.begin_, window := v.rest v.begin_, capacity := v.capacity }

variable {v : RawView} {n : Nat}

theorem rest_length (v : RawView) (p : Nat) : (v.rest p).length = v.end_ - p := by
  simp [rest, v.end_le]

theorem rest_drop (v : RawView) (p n : Nat) : (v.rest p).drop n = v.rest (p + n) := by
  rw [rest, rest, List.drop_drop]

theorem content_length (v : RawView) : v.content.length = v.size := v.rest_length v.begin_

theorem shows_sliceForConsumer (v : RawView) : v.shows v.sliceForConsumer = v.content := by
  simp only [shows, sliceForConsumer, Nat.add_sub_cancel_left, size, Nat.add_sub_cancel' v.begin_le]
  rfl

/-- Consuming succeeds up to the size, and takes the bytes from the front of the content. -/
theorem consume_content (h : n ≤ v.size) :
    ∃ v', v.consume n = some v' ∧ v'.content = v.content.drop n ∧ v'.size = v.size - n := by
  refine ⟨_, dif_neg (Nat.not_lt.mpr h), ?_, ?_⟩
  · exact (v.rest_drop v.begin_ n).symm
  · exact Nat.sub_add_eq ..

theorem toView_offset (v : RawView) : v.toView.offset = v.begin_ := by
  simp [toView, BufferView.offset, Nat.le_trans v.begin_le v.end_le]

theorem toView_size (v : RawView) : v.toView.size = v.size := v.rest_length v.begin_

theorem toView_consume (v : RawView) (n : Nat) : v.toView.consume n = (v.consume n).map toView := by
  rw [consume, BufferView.consume, toView_size]
  split
  · rfl
  · next h =>
    simp only [size, Nat.not_lt] at h
    have hfront : v.bytes.take v.begin_ ++ (v.rest v.begin_).take n = v.bytes.take (v.begin_ + n) := by
      rw [rest, List.drop_take, List.take_take, Nat.min_eq_left h, List.take_add]
    simp only [Option.map_some, toView, hfront, rest_drop]
    rfl

theorem toView_cut (v : RawView) (n : Nat) : v.toView.cut n = (v.cut n).map toView := by
  rw [cut, BufferView.cut, toView_offset]
  split
  · rfl
  · next h =>
    have hbegin := v.begin_le
    have hfront : (v.bytes.take v.begin_).drop n = (v.bytes.drop n).take (v.begin_ - n) := List.drop_take
    have hwindow : v.rest v.begin_ = ((v.bytes.drop n).take (v.end_ - n)).drop (v.begin_ - n) := by
      rw [← List.drop_take, List.drop_drop, Nat.add_sub_cancel' (Nat.not_lt.mp h), rest]
    have hcapacity : v.capacity = (v.bytes.drop n).length - (v.end_ - n) := by
      rw [capacity, memorySize, List.length_drop]
      omega
    simp only [Option.map_some, toView, hfront, hwindow, hcapacity]
    rfl

end RawView

end Jinx.Http
