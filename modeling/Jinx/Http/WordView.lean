import Jinx.ControlState
import Jinx.Http.RawView
import Jinx.Lib.Runs

/-! `buffer::BufferView` with its `size_t` fields: arithmetic is modulo `2 ^ 64`, and any call can get
    any argument.

    Each member function is written once, over the subtraction it uses. With `Size.minus` it is the
    code; `Size.checked` stops at a difference that would wrap. The other modules work with the views
    of `RawView`, whose offsets are natural numbers: `Represents` is how the two fit together. -/

namespace Jinx.Http

/-- `a - b` as the code computes it. -/
def Size.minus (a b : UInt64) : Id UInt64 := pure (a - b)

/-- The same, where it does not wrap. -/
def Size.checked (a b : UInt64) : Option UInt64 := if b ≤ a then some (a - b) else none

structure WordView where
  /-- `_memory`, as an address -/
  memory : Nat := 0
  memorySize : UInt64 := 0
  begin_ : UInt64 := 0
  end_ : UInt64 := 0
  deriving DecidableEq, Repr

/-- The calls that change a view. -/
inductive ViewOp where
  | resize (size : UInt64)
  | cut (n : UInt64)
  | commit (n : UInt64)
  | consume (n : UInt64)
  | resetFull
  | resetEmpty
  deriving DecidableEq, Repr

namespace WordView

section Code

variable {m : Type → Type} [Monad m] (minus : UInt64 → UInt64 → m UInt64) (v : WordView)

def capacity : m UInt64 := minus v.memorySize v.end_

def size : m UInt64 := minus v.end_ v.begin_

def resetFull : WordView := { v with begin_ := 0, end_ := v.memorySize }

def resetEmpty : WordView := { v with begin_ := 0, end_ := 0 }

def resize (size : UInt64) : m (WordView × ResultGeneric) := do
  let room ← minus v.memorySize v.begin_
  if size > room then
    return (v, .failed)
  return ({ v with end_ := v.begin_ + size }, .successful)

def cut (n : UInt64) : m (WordView × ResultGeneric) := do
  if n > v.begin_ then
    return (v, .failed)
  let memorySize ← minus v.memorySize n
  let begin_ ← minus v.begin_ n
  let end_ ← minus v.end_ n
  return ({ memory := v.memory + n.toNat, memorySize, begin_, end_ }, .successful)

def commit (n : UInt64) : m (WordView × ResultGeneric) := do
  let capacity ← v.capacity minus
  if n > capacity then
    return (v, .failed)
  return ({ v with end_ := v.end_ + n }, .successful)

def consume (n : UInt64) : m (WordView × ResultGeneric) := do
  let size ← v.size minus
  if n > size then
    return (v, .failed)
  return ({ v with begin_ := v.begin_ + n }, .successful)

/-- `slice_for_consumer`: from `begin()`, `size()` bytes. -/
def sliceForConsumer : m SliceConst := do
  let size ← v.size minus
  return { data := v.memory + v.begin_.toNat, size := size.toNat }

/-- `slice_for_producer`: from `end()`, `capacity()` bytes. -/
def sliceForProducer : m SliceConst := do
  let capacity ← v.capacity minus
  return { data := v.memory + v.end_.toNat, size := capacity.toNat }

def callWith : ViewOp → m (WordView × ResultGeneric)
  | .resize size => v.resize minus size
  | .cut n => v.cut minus n
  | .commit n => v.commit minus n
  | .consume n => v.consume minus n
  | .resetFull => return (v.resetFull, .successful)
  | .resetEmpty => return (v.resetEmpty, .successful)

end Code

/-- A call, as the code does it. -/
def call (v : WordView) (op : ViewOp) : WordView × ResultGeneric := (v.callWith Size.minus op).run

def run (v : WordView) (ops : List ViewOp) : WordView := ops.foldl (fun v op => (v.call op).1) v

/-- The addresses of a slice's bytes. -/
def addresses (s : SliceConst) : List Nat := List.range' s.data s.size

/-- Where the bytes are that a consumer gets, in order. -/
def consumable (v : WordView) : List Nat := addresses (v.sliceForConsumer Size.minus).run

/-- Where the bytes are that a producer gets, in order. -/
def producible (v : WordView) : List Nat := addresses (v.sliceForProducer Size.minus).run

/-- `_begin <= _end <= _memory_size`. -/
structure Valid (v : WordView) : Prop where
  begin_le : v.begin_ ≤ v.end_
  end_le : v.end_ ≤ v.memorySize

instance (v : WordView) : Decidable v.Valid :=
  decidable_of_iff (v.begin_ ≤ v.end_ ∧ v.end_ ≤ v.memorySize)
    ⟨fun h => ⟨h.1, h.2⟩, fun h => ⟨h.begin_le, h.end_le⟩⟩

/-- What a call needs to succeed, in natural numbers. -/
def Fits (v : WordView) : ViewOp → Prop
  | .resize size => v.begin_.toNat + size.toNat ≤ v.memorySize.toNat
  | .cut n => n.toNat ≤ v.begin_.toNat
  | .commit n => n.toNat ≤ v.producible.length
  | .consume n => n.toNat ≤ v.consumable.length
  | .resetFull | .resetEmpty => True

variable {v : WordView} {n : UInt64}

theorem Valid.begin_toNat_le (h : v.Valid) : v.begin_.toNat ≤ v.end_.toNat :=
  UInt64.le_iff_toNat_le.mp h.begin_le

theorem Valid.end_toNat_le (h : v.Valid) : v.end_.toNat ≤ v.memorySize.toNat :=
  UInt64.le_iff_toNat_le.mp h.end_le

theorem valid_iff : v.Valid ↔ v.begin_.toNat ≤ v.end_.toNat ∧ v.end_.toNat ≤ v.memorySize.toNat :=
  ⟨fun h => ⟨h.begin_toNat_le, h.end_toNat_le⟩,
    fun h => ⟨UInt64.le_iff_toNat_le.mpr h.1, UInt64.le_iff_toNat_le.mpr h.2⟩⟩

theorem Valid.begin_le_memorySize (h : v.Valid) : v.begin_ ≤ v.memorySize :=
  UInt64.le_trans h.begin_le h.end_le

/-- In a valid view no call sees a difference that wraps, so that any subtraction that is right where
    it does not wrap does the same. -/
theorem callWith_eq {m : Type → Type} [Monad m] [LawfulMonad m] {minus : UInt64 → UInt64 → m UInt64}
    (hminus : ∀ a b, b ≤ a → minus a b = pure (a - b)) (h : v.Valid) (op : ViewOp) :
    v.callWith minus op = pure (v.call op) := by
  cases op with
  | resize size =>
    simp only [callWith, call, resize, hminus _ _ h.begin_le_memorySize, Size.minus, pure_bind]
    split <;> rfl
  | cut n =>
    simp only [callWith, call, cut]
    split
    · rfl
    · next hn =>
      have hbegin : n ≤ v.begin_ := UInt64.not_lt.mp hn
      have hend := UInt64.le_trans hbegin h.begin_le
      simp only [hminus _ _ hbegin, hminus _ _ hend, hminus _ _ (UInt64.le_trans hend h.end_le),
        Size.minus, pure_bind]
      rfl
  | commit n =>
    simp only [callWith, call, commit, capacity, hminus _ _ h.end_le, Size.minus, pure_bind]
    split <;> rfl
  | consume n =>
    simp only [callWith, call, consume, size, hminus _ _ h.begin_le, Size.minus, pure_bind]
    split <;> rfl
  | resetFull => rfl
  | resetEmpty => rfl

theorem call_checked (h : v.Valid) (op : ViewOp) : v.callWith Size.checked op = some (v.call op) :=
  callWith_eq (fun _ _ hle => if_pos hle) h op

/-! What each call does, in natural numbers. -/

theorem call_resize (size : UInt64) : v.call (.resize size) =
    if size > v.memorySize - v.begin_ then (v, .failed)
    else ({ v with end_ := v.begin_ + size }, .successful) := by
  simp only [call, callWith, resize, Size.minus, pure_bind]
  split <;> rfl

theorem call_cut (n : UInt64) : v.call (.cut n) =
    if n > v.begin_ then (v, .failed)
    else ({ memory := v.memory + n.toNat, memorySize := v.memorySize - n, begin_ := v.begin_ - n,
            end_ := v.end_ - n }, .successful) := by
  simp only [call, callWith, cut, Size.minus, pure_bind]
  split <;> rfl

theorem call_commit (n : UInt64) : v.call (.commit n) =
    if n > v.memorySize - v.end_ then (v, .failed)
    else ({ v with end_ := v.end_ + n }, .successful) := by
  simp only [call, callWith, commit, capacity, Size.minus, pure_bind]
  split <;> rfl

theorem call_consume (n : UInt64) : v.call (.consume n) =
    if n > v.end_ - v.begin_ then (v, .failed)
    else ({ v with begin_ := v.begin_ + n }, .successful) := by
  simp only [call, callWith, consume, size, Size.minus, pure_bind]
  split <;> rfl

theorem consumable_eq (h : v.Valid) : v.consumable =
    List.range' (v.memory + v.begin_.toNat) (v.end_.toNat - v.begin_.toNat) :=
  congrArg (List.range' _) (UInt64.toNat_sub_of_le _ _ h.begin_le)

theorem producible_eq (h : v.Valid) : v.producible =
    List.range' (v.memory + v.end_.toNat) (v.memorySize.toNat - v.end_.toNat) :=
  congrArg (List.range' _) (UInt64.toNat_sub_of_le _ _ h.end_le)

/-- A resize moves the end to `size` bytes behind the begin, if there are so many. -/
theorem resize_spec (h : v.Valid) (size : UInt64) :
    (v.Fits (.resize size) ∧ v.call (.resize size) = ({ v with end_ := v.begin_ + size }, .successful) ∧
      (v.begin_ + size).toNat = v.begin_.toNat + size.toNat) ∨
    (¬ v.Fits (.resize size) ∧ v.call (.resize size) = (v, .failed)) := by
  have hroom := UInt64.toNat_sub_of_le _ _ h.begin_le_memorySize
  have hle := UInt64.le_iff_toNat_le.mp h.begin_le_memorySize
  have hlt := v.memorySize.toNat_lt
  rw [call_resize]
  split <;> rename_i hsize <;> rw [gt_iff_lt, UInt64.lt_iff_toNat_lt, hroom] at hsize
  · exact .inr ⟨by simp only [Fits]; omega, rfl⟩
  · refine .inl ⟨by simp only [Fits]; omega, rfl, ?_⟩
    rw [UInt64.toNat_add]
    omega

/-- A cut moves the memory, and keeps where the begin, the end and the end of the memory are. -/
theorem cut_spec (h : v.Valid) (n : UInt64) :
    (v.Fits (.cut n) ∧ ∃ w : WordView, v.call (.cut n) = (w, .successful) ∧
      w.memory = v.memory + n.toNat ∧ w.begin_.toNat = v.begin_.toNat - n.toNat ∧
      w.end_.toNat = v.end_.toNat - n.toNat ∧ w.memorySize.toNat = v.memorySize.toNat - n.toNat) ∨
    (¬ v.Fits (.cut n) ∧ v.call (.cut n) = (v, .failed)) := by
  rw [call_cut]
  split <;> rename_i hn
  · exact .inr ⟨Nat.not_le.mpr (UInt64.lt_iff_toNat_lt.mp hn), rfl⟩
  · have hbegin : n ≤ v.begin_ := UInt64.not_lt.mp hn
    have hend := UInt64.le_trans hbegin h.begin_le
    exact .inl ⟨UInt64.le_iff_toNat_le.mp hbegin, _, rfl, rfl, UInt64.toNat_sub_of_le _ _ hbegin,
      UInt64.toNat_sub_of_le _ _ hend, UInt64.toNat_sub_of_le _ _ (UInt64.le_trans hend h.end_le)⟩

theorem commit_spec (h : v.Valid) (n : UInt64) :
    (v.Fits (.commit n) ∧ v.call (.commit n) = ({ v with end_ := v.end_ + n }, .successful) ∧
      (v.end_ + n).toNat = v.end_.toNat + n.toNat ∧ v.end_.toNat + n.toNat ≤ v.memorySize.toNat) ∨
    (¬ v.Fits (.commit n) ∧ v.call (.commit n) = (v, .failed)) := by
  have hroom := UInt64.toNat_sub_of_le _ _ h.end_le
  have hle := h.end_toNat_le
  have hlt := v.memorySize.toNat_lt
  rw [call_commit]
  split <;> rename_i hn <;> rw [gt_iff_lt, UInt64.lt_iff_toNat_lt, hroom] at hn
  · exact .inr ⟨by simp only [Fits, producible_eq h, List.length_range']; omega, rfl⟩
  · refine .inl ⟨by simp only [Fits, producible_eq h, List.length_range']; omega, rfl, ?_, by omega⟩
    rw [UInt64.toNat_add]
    omega

theorem consume_spec (h : v.Valid) (n : UInt64) :
    (v.Fits (.consume n) ∧ v.call (.consume n) = ({ v with begin_ := v.begin_ + n }, .successful) ∧
      (v.begin_ + n).toNat = v.begin_.toNat + n.toNat ∧ v.begin_.toNat + n.toNat ≤ v.end_.toNat) ∨
    (¬ v.Fits (.consume n) ∧ v.call (.consume n) = (v, .failed)) := by
  have hsize := UInt64.toNat_sub_of_le _ _ h.begin_le
  have hle := h.begin_toNat_le
  have hlt := v.end_.toNat_lt
  rw [call_consume]
  split <;> rename_i hn <;> rw [gt_iff_lt, UInt64.lt_iff_toNat_lt, hsize] at hn
  · exact .inr ⟨by simp only [Fits, consumable_eq h, List.length_range']; omega, rfl⟩
  · refine .inl ⟨by simp only [Fits, consumable_eq h, List.length_range']; omega, rfl, ?_, by omega⟩
    rw [UInt64.toNat_add]
    omega

/-- The view `w` is valid, and lies in the memory of `v`, up to its end. -/
structure Within (v w : WordView) : Prop where
  valid : w.Valid
  starts : v.memory ≤ w.memory
  ends : w.memory + w.memorySize.toNat = v.memory + v.memorySize.toNat

theorem Within.refl (h : v.Valid) : Within v v := ⟨h, Nat.le_refl _, rfl⟩

theorem Within.trans {u w : WordView} (h : Within u v) (h' : Within v w) : Within u w :=
  ⟨h'.valid, Nat.le_trans h.starts h'.starts, h'.ends.trans h.ends⟩

/-- Only the offsets change, and they stay in order. -/
theorem Within.of_offsets {b e : UInt64} (hbe : b.toNat ≤ e.toNat)
    (he : e.toNat ≤ v.memorySize.toNat) : Within v { v with begin_ := b, end_ := e } :=
  ⟨valid_iff.mpr ⟨hbe, he⟩, Nat.le_refl _, rfl⟩

theorem call_within (h : v.Valid) (op : ViewOp) : Within v (v.call op).1 := by
  have hbegin := h.begin_toNat_le
  have hend := h.end_toNat_le
  cases op with
  | resize size =>
    obtain ⟨hfits, heq, hto⟩ | ⟨-, heq⟩ := resize_spec h size <;> rw [heq]
    · exact .of_offsets (by omega) (hto ▸ hfits)
    · exact .refl h
  | cut n =>
    obtain ⟨hfits, w, heq, hmemory, hb, he, hs⟩ | ⟨-, heq⟩ := cut_spec h n <;> rw [heq]
    · have hn : n.toNat ≤ v.begin_.toNat := hfits
      have hw : w.Valid := valid_iff.mpr ⟨by omega, by omega⟩
      have hends : w.memory + w.memorySize.toNat = v.memory + v.memorySize.toNat := by omega
      exact ⟨hw, hmemory ▸ Nat.le_add_right .., hends⟩
    · exact .refl h
  | commit n =>
    obtain ⟨-, heq, hto, hle⟩ | ⟨-, heq⟩ := commit_spec h n <;> rw [heq]
    · exact .of_offsets (by omega) (by omega)
    · exact .refl h
  | consume n =>
    obtain ⟨-, heq, hto, hle⟩ | ⟨-, heq⟩ := consume_spec h n <;> rw [heq]
    · exact .of_offsets (by omega) hend
    · exact .refl h
  | resetFull => exact .of_offsets (Nat.zero_le _) (Nat.le_refl _)
  | resetEmpty => exact .of_offsets (Nat.le_refl _) (Nat.zero_le _)

theorem run_within (h : v.Valid) (ops : List ViewOp) : Within v (v.run ops) :=
  Runs.foldl_invariant (fun _ op hw => hw.trans (call_within hw.valid op)) ops v (.refl h)

/-- A call succeeds exactly where its request fits, and a call that fails changes nothing. -/
theorem call_outcome (h : v.Valid) (op : ViewOp) :
    (v.Fits op ∧ (v.call op).2 = .successful) ∨ (¬ v.Fits op ∧ v.call op = (v, .failed)) := by
  cases op with
  | resize size => exact (resize_spec h size).imp_left fun hs => ⟨hs.1, by rw [hs.2.1]⟩
  | cut n =>
    exact (cut_spec h n).imp_left fun ⟨hfits, w, heq, _⟩ => ⟨hfits, by rw [heq]⟩
  | commit n => exact (commit_spec h n).imp_left fun hs => ⟨hs.1, by rw [hs.2.1]⟩
  | consume n => exact (consume_spec h n).imp_left fun hs => ⟨hs.1, by rw [hs.2.1]⟩
  | resetFull => exact .inl ⟨trivial, rfl⟩
  | resetEmpty => exact .inl ⟨trivial, rfl⟩

/-- A cut leaves the window where it is. -/
theorem cut_window (h : v.Valid) (n : UInt64) :
    (v.call (.cut n)).1.consumable = v.consumable ∧ (v.call (.cut n)).1.producible = v.producible := by
  have hbegin := h.begin_toNat_le
  have hend := h.end_toNat_le
  have hw := (call_within h (.cut n)).valid
  rw [consumable_eq hw, producible_eq hw, consumable_eq h, producible_eq h]
  obtain ⟨hfits, w, heq, hmemory, hb, he, hs⟩ | ⟨-, heq⟩ := cut_spec h n <;> rw [heq]
  · have hn : n.toNat ≤ v.begin_.toNat := hfits
    constructor <;> congr 1 <;> dsimp only <;> omega
  · exact ⟨rfl, rfl⟩

/-- Consuming drops the first `n` addresses, and none of those behind the window. -/
theorem consume_window (h : v.Valid) (hfits : v.Fits (.consume n)) :
    (v.call (.consume n)).1.consumable = v.consumable.drop n.toNat ∧
      (v.call (.consume n)).1.producible = v.producible := by
  have hw := (call_within h (.consume n)).valid
  rw [consumable_eq hw, producible_eq hw, consumable_eq h, producible_eq h, List.drop_range']
  obtain ⟨-, heq, hto, hle⟩ | ⟨hnot, -⟩ := consume_spec h n
  · rw [heq]
    refine ⟨?_, rfl⟩
    congr 1 <;> dsimp only <;> omega
  · exact absurd hfits hnot

/-- Committing moves the first `n` addresses of the producer to the end of the window. -/
theorem commit_window (h : v.Valid) (hfits : v.Fits (.commit n)) :
    (v.call (.commit n)).1.consumable = v.consumable ++ v.producible.take n.toNat ∧
      (v.call (.commit n)).1.producible = v.producible.drop n.toNat := by
  have hbegin := h.begin_toNat_le
  have hw := (call_within h (.commit n)).valid
  rw [consumable_eq hw, producible_eq hw, consumable_eq h, producible_eq h, List.drop_range']
  obtain ⟨-, heq, hto, hle⟩ | ⟨hnot, -⟩ := commit_spec h n
  · have hroom : v.memorySize.toNat - v.end_.toNat ≥ n.toNat := by omega
    have hstart : v.memory + v.end_.toNat =
        v.memory + v.begin_.toNat + (v.end_.toNat - v.begin_.toNat) := by omega
    rw [List.take_range'_of_length_ge hroom, heq]
    constructor
    · rw [hstart, List.range'_append_1]
      congr 1
      dsimp only
      omega
    · congr 1 <;> dsimp only <;> omega
  · exact absurd hfits hnot

/-- What holds of a view that was reached from `orig`, and of the next call, whatever it is. -/
structure Sound (orig v : WordView) : Prop where
  within : Within orig v
  /-- no call has a difference that wraps, nor has an accessor -/
  no_wrap : ∀ op, v.callWith Size.checked op = some (v.call op)
  no_wrap_consumer : v.sliceForConsumer Size.checked = some (v.sliceForConsumer Size.minus).run
  no_wrap_producer : v.sliceForProducer Size.checked = some (v.sliceForProducer Size.minus).run
  /-- a call fails where its request does not fit, and then it changes nothing -/
  succeeds : ∀ op, (v.call op).2 = .successful ↔ v.Fits op
  failed : ∀ op, (v.call op).2 = .failed → (v.call op).1 = v
  cut : ∀ n, (v.call (.cut n)).1.consumable = v.consumable
  consume : ∀ n, v.Fits (.consume n) →
    (v.call (.consume n)).1.consumable = v.consumable.drop n.toNat
  commit : ∀ n, v.Fits (.commit n) →
    (v.call (.commit n)).1.consumable = v.consumable ++ v.producible.take n.toNat
  /-- the bytes of both sides are in the memory that `orig` had -/
  inside : ∀ a ∈ v.consumable ++ v.producible,
    orig.memory ≤ a ∧ a < orig.memory + orig.memorySize.toNat

theorem Within.inside {orig : WordView} (h : Within orig v) : ∀ a ∈ v.consumable ++ v.producible,
    orig.memory ≤ a ∧ a < orig.memory + orig.memorySize.toNat := by
  have hbegin := h.valid.begin_toNat_le
  have hend := h.valid.end_toNat_le
  have hstarts := h.starts
  have hends := h.ends
  intro a ha
  rw [consumable_eq h.valid, producible_eq h.valid, List.mem_append, List.mem_range'_1,
    List.mem_range'_1] at ha
  omega

theorem Within.sound {orig : WordView} (h : Within orig v) : Sound orig v where
  within := h
  no_wrap := call_checked h.valid
  no_wrap_consumer := by
    simp only [sliceForConsumer, size, Size.checked, if_pos h.valid.begin_le, Size.minus, pure_bind]
    rfl
  no_wrap_producer := by
    simp only [sliceForProducer, capacity, Size.checked, if_pos h.valid.end_le, Size.minus, pure_bind]
    rfl
  succeeds op := by
    obtain ⟨hfits, hok⟩ | ⟨hnot, heq⟩ := call_outcome h.valid op
    · exact iff_of_true hok hfits
    · exact iff_of_false (by simp [heq]) hnot
  failed op hfailed := by
    obtain ⟨-, hok⟩ | ⟨-, heq⟩ := call_outcome h.valid op
    · simp [hok] at hfailed
    · rw [heq]
  cut n := (cut_window h.valid n).1
  consume n hfits := (consume_window h.valid hfits).1
  commit n hfits := (commit_window h.valid hfits).1
  inside := h.inside

/-- A view that starts valid is a sound window after any calls. -/
theorem window_sound (orig : WordView) (hvalid : orig.Valid) (ops : List ViewOp) :
    Sound orig (orig.run ops) :=
  (run_within hvalid ops).sound

/-- The calls at the limit of `size_t` on eight bytes of which two are taken. -/
theorem window_sound_limit :
    Sound { memory := 1000, memorySize := 8, begin_ := 2, end_ := 4 }
      (run { memory := 1000, memorySize := 8, begin_ := 2, end_ := 4 }
        [.resize (0 - 1), .cut 2, .commit (0 - 2), .commit 4, .consume 3]) :=
  window_sound _ (by decide) _

/-! The views with natural numbers do what these do. -/

/-- `r` is the view `w`, with the bytes that are in memory. -/
structure Represents (bytes : Nat → Byte) (w : WordView) (r : RawView) : Prop where
  memory : r.memory = w.memory
  bytes_eq : r.bytes = (List.range' w.memory w.memorySize.toNat).map bytes
  begin_eq : r.begin_ = w.begin_.toNat
  end_eq : r.end_ = w.end_.toNat

/-- A call on `w` succeeds with the next view of `r`, or fails where `r` has none. -/
def Answers (bytes : Nat → Byte) (w : WordView) : Option RawView → WordView × ResultGeneric → Prop
  | some r, c => c.2 = .successful ∧ Represents bytes c.1 r
  | none, c => c = (w, .failed)

namespace Represents

variable {bytes : Nat → Byte} {w : WordView} {r : RawView}

theorem memorySize_eq (h : Represents bytes w r) : r.memorySize = w.memorySize.toNat := by
  rw [RawView.memorySize, h.bytes_eq, List.length_map, List.length_range']

theorem valid (h : Represents bytes w r) : w.Valid := by
  refine valid_iff.mpr ⟨?_, ?_⟩
  · rw [← h.begin_eq, ← h.end_eq]; exact r.begin_le
  · rw [← h.end_eq, ← h.memorySize_eq]; exact r.end_le

/-- The bytes that a consumer finds at the addresses of the window. -/
theorem content_eq (h : Represents bytes w r) : r.content = w.consumable.map bytes := by
  rw [consumable_eq h.valid, RawView.content, RawView.rest, h.bytes_eq, h.begin_eq, h.end_eq,
    ← List.map_take, ← List.map_drop, List.take_range'_of_length_ge h.valid.end_toNat_le,
    List.drop_range', Nat.mul_one]

theorem cut (h : Represents bytes w r) (n : UInt64) :
    Answers bytes w (r.cut n.toNat) (w.call (.cut n)) := by
  rw [RawView.cut]
  obtain ⟨hfits, w', heq, hmemory, hb, he, hs⟩ | ⟨hnot, heq⟩ := cut_spec h.valid n <;> rw [heq]
  · have hn : ¬ n.toNat > r.begin_ := by rw [h.begin_eq]; exact Nat.not_lt.mpr hfits
    rw [dif_neg hn]
    refine ⟨rfl, ?_, ?_, ?_, ?_⟩
    · exact (congrArg (· + n.toNat) h.memory).trans hmemory.symm
    · refine (congrArg (List.drop n.toNat) h.bytes_eq).trans ?_
      rw [← List.map_drop, List.drop_range', Nat.mul_one, hmemory, hs]
    · exact (congrArg (· - n.toNat) h.begin_eq).trans hb.symm
    · exact (congrArg (· - n.toNat) h.end_eq).trans he.symm
  · have hn : n.toNat > r.begin_ := by rw [h.begin_eq]; exact Nat.not_le.mp hnot
    rw [dif_pos hn]
    rfl

theorem commit (h : Represents bytes w r) (n : UInt64) :
    Answers bytes w (r.commit n.toNat) (w.call (.commit n)) := by
  have hroom : r.capacity = w.producible.length := by
    rw [producible_eq h.valid, List.length_range', RawView.capacity, h.memorySize_eq, h.end_eq]
  rw [RawView.commit]
  obtain ⟨hfits, heq, hto, -⟩ | ⟨hnot, heq⟩ := commit_spec h.valid n <;> rw [heq]
  · have hn : ¬ n.toNat > r.capacity := by rw [hroom]; exact Nat.not_lt.mpr hfits
    rw [dif_neg hn]
    exact ⟨rfl, { h with end_eq := (congrArg (· + n.toNat) h.end_eq).trans hto.symm }⟩
  · have hn : n.toNat > r.capacity := by rw [hroom]; exact Nat.not_le.mp hnot
    rw [dif_pos hn]
    rfl

theorem consume (h : Represents bytes w r) (n : UInt64) :
    Answers bytes w (r.consume n.toNat) (w.call (.consume n)) := by
  have hsize : r.size = w.consumable.length := by
    rw [consumable_eq h.valid, List.length_range', RawView.size, h.begin_eq, h.end_eq]
  rw [RawView.consume]
  obtain ⟨hfits, heq, hto, -⟩ | ⟨hnot, heq⟩ := consume_spec h.valid n <;> rw [heq]
  · have hn : ¬ n.toNat > r.size := by rw [hsize]; exact Nat.not_lt.mpr hfits
    rw [dif_neg hn]
    exact ⟨rfl, { h with begin_eq := (congrArg (· + n.toNat) h.begin_eq).trans hto.symm }⟩
  · have hn : n.toNat > r.size := by rw [hsize]; exact Nat.not_le.mp hnot
    rw [dif_pos hn]
    rfl

theorem resetFull (h : Represents bytes w r) :
    Answers bytes w (some r.resetFull) (w.call .resetFull) :=
  ⟨rfl, { h with begin_eq := rfl, end_eq := h.memorySize_eq }⟩

end Represents

end WordView

end Jinx.Http
