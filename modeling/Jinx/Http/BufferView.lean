import Mathlib.Data.List.Basic

/-! `buffer::BufferView`: a window `[_begin, _end)` in a piece of memory.

    The memory is kept in three parts, so that `_begin <= _end <= _memory_size` holds of every value:
    the bytes before the window, the window, and the number of bytes after it, whose content nobody
    reads. -/

namespace Jinx.Http

abbrev Byte := UInt8

structure BufferView where
  /-- the bytes from `_memory` to `_begin` -/
  front : List Byte := []
  /-- the bytes from `_begin` to `_end` -/
  window : List Byte := []
  /-- `_memory_size - _end` -/
  capacity : Nat := 0
  deriving DecidableEq, Repr

namespace BufferView

/-- `_begin`. -/
def offset (v : BufferView) : Nat := v.front.length

def size (v : BufferView) : Nat := v.window.length

def memorySize (v : BufferView) : Nat := v.front.length + v.window.length + v.capacity

/-- An empty view of `n` bytes. -/
def empty (n : Nat) : BufferView := { capacity := n }

/-- `_begin += n`; `none` is `Failed_`. -/
def consume (v : BufferView) (n : Nat) : Option BufferView :=
  if n > v.size then none
  else some { v with front := v.front ++ v.window.take n, window := v.window.drop n }

/-- The first `n` bytes leave the view. -/
def cut (v : BufferView) (n : Nat) : Option BufferView :=
  if n > v.offset then none else some { v with front := v.front.drop n }

/-- A read writes bytes behind the window and commits them. -/
def receive (v : BufferView) (bytes : List Byte) : Option BufferView :=
  if bytes.length > v.capacity then none
  else some { v with window := v.window ++ bytes, capacity := v.capacity - bytes.length }

variable {v v' : BufferView} {n : Nat} {w rest bytes : List Byte}

theorem consume_of_le (h : n ≤ v.size) :
    v.consume n = some { v with front := v.front ++ v.window.take n, window := v.window.drop n } :=
  if_neg (Nat.not_lt.mpr h)

/-- What is left of the window can be reached by consuming. -/
theorem consume_to (hw : v.window = w ++ rest) :
    v.consume (v.size - rest.length) = some { v with front := v.front ++ w, window := rest } := by
  have hn : v.size - rest.length = w.length := by simp [size, hw]
  rw [hn, consume_of_le (by simp [size, hw])]
  simp [hw]

theorem cut_offset (v : BufferView) : v.cut v.offset = some { v with front := [] } := by
  simp [cut, offset]

theorem receive_of_le (h : bytes.length ≤ v.capacity) :
    v.receive bytes =
      some { v with window := v.window ++ bytes, capacity := v.capacity - bytes.length } :=
  if_neg (Nat.not_lt.mpr h)

end BufferView

end Jinx.Http
