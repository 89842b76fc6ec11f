import Jinx.Http.PageBuffer
import Jinx.Http.RawView

/-! Objects in a pool buffer: the page of `WebRoute::spawn` and the task of `TaskBufferred::allocate`.

    Both align the memory of the view to the type and construct the object where the memory begins
    then. What they cut off is the remainder of the address, and the window of the view begins with the
    memory in both, so `cut` has nothing to give. -/

namespace Jinx.Http

/-- How the construction ends instead. -/
inductive PlaceFault where
  /-- `abort_on(Failed_, "buffer overflow")` -/
  | overflow
  /-- a `jinx_assert` fails -/
  | assertion
  deriving DecidableEq, Repr

variable {v : RawView} {t : Layout}

/-- The first lines of both functions. -/
def RawView.align (v : RawView) (t : Layout) : Option RawView :=
  let offset := v.memory % t.align
  if offset ≠ 0 then v.cut offset else some v

/-- `WebRoute::spawn` for an array of `slotArray` slots, up to the constructor: the view, and the address
    of the page. -/
def WebRoute.spawn (slotArray slotCount : Nat) (t : Layout) (view : RawView) :
    Except PlaceFault (RawView × Nat) :=
  match view.align t with
  | none => .error .overflow
  | some view =>
    if slotArray < slotCount then .error .assertion
    else if view.memorySize < t.size then .error .assertion
    else .ok (view, view.memory)

/-- `TaskBufferred::allocate` on the view of its buffer, up to the constructor; `none` is `Failed_`. -/
def TaskBufferred.allocate (t : Layout) (view : RawView) : Except PlaceFault (Option (RawView × Nat)) :=
  match view.align t with
  | none => .ok none
  | some view => if view.memorySize < t.size then .error .assertion else .ok (some (view, view.memory))

/-- An object of the type at the address is aligned, and lies in the memory of the view. -/
def Places (v : RawView) (t : Layout) (address : Nat) : Prop :=
  t.align ∣ address ∧ v.memory ≤ address ∧ address + t.size ≤ v.memory + v.memorySize

/-- `spawn`, after `reset_full`, constructs the page in the buffer. -/
def PagePlaced (slotArray slotCount : Nat) (v : RawView) (t : Layout) : Prop :=
  ∃ view address, WebRoute.spawn slotArray slotCount t v.resetFull = .ok (view, address) ∧
    Places v t address

/-- `allocate`, with a fresh view, constructs the task in the buffer. -/
def TaskPlaced (v : RawView) (t : Layout) : Prop :=
  ∃ view address, TaskBufferred.allocate t (.fresh v.memory v.bytes) = .ok (some (view, address)) ∧
    Places v t address

/-- A view whose window begins with the memory is aligned only if its memory is. -/
theorem RawView.align_begin (hbegin : v.begin_ = 0) :
    v.align t = if t.align ∣ v.memory then some v else none := by
  rw [RawView.align]
  by_cases hdvd : t.align ∣ v.memory
  · rw [if_pos hdvd, Nat.mod_eq_zero_of_dvd hdvd]
    rfl
  · have hoffset : v.memory % t.align ≠ 0 := fun h => hdvd (Nat.dvd_of_mod_eq_zero h)
    have hcut : v.memory % t.align > v.begin_ := by omega
    rw [if_neg hdvd, if_pos hoffset, RawView.cut, dif_pos hcut]

theorem places_memory (hdvd : t.align ∣ v.memory) (hroom : t.size ≤ v.memorySize) :
    Places v t v.memory :=
  ⟨hdvd, Nat.le_refl _, Nat.add_le_add_left hroom _⟩

theorem pagePlaced_iff {slotArray slotCount : Nat} (hroom : t.size ≤ v.memorySize) :
    PagePlaced slotArray slotCount v t ↔ t.align ∣ v.memory ∧ slotCount ≤ slotArray := by
  have halign : v.resetFull.align t = if t.align ∣ v.memory then some v.resetFull else none :=
    RawView.align_begin rfl
  constructor
  · rintro ⟨view, address, hspawn, -⟩
    rw [WebRoute.spawn, halign] at hspawn
    by_cases hdvd : t.align ∣ v.memory
    · refine ⟨hdvd, Nat.not_lt.mp fun hslot => ?_⟩
      simp [hdvd, hslot] at hspawn
    · simp [hdvd] at hspawn
  · rintro ⟨hdvd, hslot⟩
    refine ⟨v.resetFull, v.memory, ?_, places_memory hdvd hroom⟩
    have hsize : ¬ v.resetFull.memorySize < t.size := Nat.not_lt.mpr hroom
    simp only [WebRoute.spawn, halign, if_pos hdvd, if_neg (Nat.not_lt.mpr hslot), if_neg hsize]
    rfl

theorem taskPlaced_iff (hroom : t.size ≤ v.memorySize) : TaskPlaced v t ↔ t.align ∣ v.memory := by
  have halign : (RawView.fresh v.memory v.bytes).align t =
      if t.align ∣ v.memory then some (RawView.fresh v.memory v.bytes) else none :=
    RawView.align_begin rfl
  constructor
  · rintro ⟨view, address, hallocate, -⟩
    rw [TaskBufferred.allocate, halign] at hallocate
    by_contra hdvd
    simp [hdvd] at hallocate
  · intro hdvd
    refine ⟨RawView.fresh v.memory v.bytes, v.memory, ?_, places_memory hdvd hroom⟩
    have hsize : ¬ (RawView.fresh v.memory v.bytes).memorySize < t.size := Nat.not_lt.mpr hroom
    simp only [TaskBufferred.allocate, halign, if_pos hdvd, if_neg hsize]
    rfl

/-- CORRECT: in a buffer with room for the size and the alignment, a page or a task is constructed, in
    the buffer and aligned, if and only if the buffer happens to begin at a multiple of the alignment
    (and the slots of the page are in range). -/
theorem placement_iff (v : RawView) (t : Layout) (slotArray slotCount : Nat)
    (hroom : t.size + t.align ≤ v.memorySize) :
    (PagePlaced slotArray slotCount v t ↔ t.align ∣ v.memory ∧ slotCount ≤ slotArray) ∧
      (TaskPlaced v t ↔ t.align ∣ v.memory) := by
  have hsize : t.size ≤ v.memorySize := by omega
  exact ⟨pagePlaced_iff hsize, taskPlaced_iff hsize⟩

/-- A type of 16 bytes in a buffer of 32 bytes. -/
theorem placement_at_64 :
    let t : Layout := ⟨16, 16, by decide, ⟨4, rfl⟩, by decide⟩
    let v : RawView := .fresh 64 (.replicate 32 0)
    (PagePlaced 0 0 v t ↔ t.align ∣ v.memory ∧ 0 ≤ 0) ∧ (TaskPlaced v t ↔ t.align ∣ v.memory) :=
  placement_iff _ _ 0 0 (by decide)

/-- The memory of a pool buffer is aligned like a pointer: it may begin at 72. -/
theorem not_placed_at_72 :
    ¬ ∀ (v : RawView) (t : Layout), t.size + t.align ≤ v.memorySize → PagePlaced 0 0 v t ∧ TaskPlaced v t := by
  intro h
  obtain ⟨⟨view, address, hspawn, -⟩, -⟩ := h (.fresh 72 (.replicate 32 0))
    ⟨16, 16, by decide, ⟨4, rfl⟩, by decide⟩ (by decide)
  simp [WebRoute.spawn, RawView.align, RawView.cut, RawView.resetFull, RawView.fresh] at hspawn

end Jinx.Http
