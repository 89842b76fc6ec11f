import Jinx.Lib.Ring
import Jinx.Lib.Runs
import Jinx.Sync.Queue

/-! `detail::QueueBase<std::array<T, N>>`: a queue in the memory of `N` objects.

    `_end` is wrapped before the next object is constructed, `_begin` after one was destroyed. An
    access outside the memory, an object constructed over another one and a destructor call where no
    object is are undefined: there is no next state. -/

namespace Jinx.Sync

open Runs

variable {α : Type*}

/-- A constructed `T`, with the number of its construction. -/
structure Object (α : Type*) where
  serial : Nat
  value : α
  deriving DecidableEq, Repr

structure ArrayQueue (α : Type*) where
  /-- `_memory`, by index; `none` where no object lives -/
  memory : Nat → Option (Object α) := fun _ => none
  /-- `_begin`, as an index -/
  begin_ : Nat := 0
  /-- `_end`, as an index -/
  end_ : Nat := 0
  size : Nat := 0
  /-- how many objects were constructed -/
  constructed : Nat := 0
  /-- the objects that were destroyed, in this order -/
  destroyed : List Nat := []

/-- The calls; the constructor of `T` makes an object or throws. -/
inductive ArrayOp (α : Type*) where
  | emplace (made : Option α)
  | front
  | pop
  | reset
  deriving DecidableEq, Repr

namespace ArrayQueue

/-- `new (p)T(x)`. -/
def construct (N : Nat) (q : ArrayQueue α) (p : Nat) (x : α) : Option (ArrayQueue α) :=
  if p < N ∧ (q.memory p).isNone then
    some { q with
      memory := Function.update q.memory p (some ⟨q.constructed, x⟩)
      constructed := q.constructed + 1 }
  else none

/-- `p->~T()`. -/
def destroy (N : Nat) (q : ArrayQueue α) (p : Nat) : Option (ArrayQueue α) :=
  if p < N then
    (q.memory p).map fun object =>
      { q with
        memory := Function.update q.memory p none
        destroyed := q.destroyed ++ [object.serial] }
  else none

def empty (q : ArrayQueue α) : Bool := q.size == 0

def full (N : Nat) (q : ArrayQueue α) : Bool := 0 < q.size && q.size == N

def front (N : Nat) (q : ArrayQueue α) : Option α :=
  if q.begin_ < N then (q.memory q.begin_).map Object.value else none

def emplace (N : Nat) (q : ArrayQueue α) (made : Option α) : Option (ArrayQueue α) :=
  let q := if q.end_ = N then { q with end_ := 0 } else q
  match made with
  | none => some q
  | some x =>
    (q.construct N q.end_ x).map fun q => { q with end_ := q.end_ + 1, size := q.size + 1 }

def pop (N : Nat) (q : ArrayQueue α) : Option (ArrayQueue α) :=
  (q.destroy N q.begin_).map fun q =>
    let q := { q with size := q.size - 1, begin_ := q.begin_ + 1 }
    if q.begin_ = N then { q with begin_ := 0 } else q

/-- The objects that live in the memory, from the front on. -/
def objects (N : Nat) (q : ArrayQueue α) : List (Object α) := Ring.contents q.memory N q.begin_ q.size

/-- The loop of `reset`, for at most so many rounds. -/
def resetLoop (N : Nat) : Nat → ArrayQueue α → Option (ArrayQueue α)
  | 0, q => if q.size = 0 then some q else none
  | rounds + 1, q => if q.size = 0 then some q else (q.pop N).bind (resetLoop N rounds)

/-- `reset`, and the destructor: each round takes one from the size. -/
def reset (N : Nat) (q : ArrayQueue α) : Option (ArrayQueue α) := q.resetLoop N q.size

def step (N : Nat) (q : ArrayQueue α) : ArrayOp α → Option (ArrayQueue α)
  | .emplace made => q.emplace N made
  | .front => (q.front N).map fun _ => q
  | .pop => q.pop N
  | .reset => q.reset N

/-- An element is put into a queue that is not full, and taken from or looked at in one that is not
    empty. -/
def Allowed (N : Nat) (q : ArrayQueue α) : ArrayOp α → Prop
  | .emplace _ => q.full N = false
  | .front | .pop => q.empty = false
  | .reset => True

instance (N : Nat) (q : ArrayQueue α) : ∀ op, Decidable (Allowed N q op)
  | .emplace _ => inferInstanceAs (Decidable (q.full N = false))
  | .front | .pop => inferInstanceAs (Decidable (q.empty = false))
  | .reset => .isTrue trivial

end ArrayQueue

/-- The queue that it stands for: a list of at most `N` elements. -/
def Fifo.step (N : Nat) (l : List α) : ArrayOp α → Option (List α)
  | .emplace made => if l.length < N then some (l ++ made.toList) else none
  | .front => if l.isEmpty then none else some l
  | .pop => if l.isEmpty then none else some l.tail
  | .reset => some []

namespace ArrayQueue

/-- The cells from `_begin` on hold these objects, `_end` is behind them, and every object that was
    ever constructed is one of them or was destroyed, in the order of construction. -/
structure Represents (N : Nat) (q : ArrayQueue α) (objects : List (Object α)) : Prop where
  ring : Ring.Holds q.memory N q.begin_ objects
  size_eq : q.size = objects.length
  end_le : q.end_ ≤ N
  end_eq : Ring.wrap N q.end_ = Ring.index N q.begin_ objects.length
  serials : q.destroyed ++ objects.map Object.serial = List.range q.constructed

namespace Represents

variable {N : Nat} {q : ArrayQueue α} {objects : List (Object α)} {object : Object α}

theorem start (hN : 0 < N) : Represents N ({} : ArrayQueue α) [] where
  ring := .nil hN
  size_eq := rfl
  end_le := Nat.zero_le N
  end_eq := by rw [Ring.wrap, if_neg (Nat.ne_of_lt hN)]; exact (Ring.index_zero hN).symm
  serials := rfl

/-- Wrapping `_end` changes nothing that matters. -/
theorem wrap_end (h : Represents N q objects) :
    Represents N { q with end_ := Ring.wrap N q.end_ } objects :=
  have hN : 0 < N := Nat.lt_of_le_of_lt (Nat.zero_le _) h.ring.begin_lt
  have hlt := Ring.wrap_lt hN h.end_le
  { h with
    end_le := Nat.le_of_lt hlt
    end_eq := (if_neg (Nat.ne_of_lt hlt)).trans h.end_eq }

theorem construct (h : Represents N q objects) (hend : q.end_ = Ring.index N q.begin_ objects.length)
    (hroom : objects.length < N) (x : α) :
    ∃ q', q.construct N q.end_ x = some q' ∧ q'.constructed = q.constructed + 1 ∧
      Represents N { q' with end_ := q'.end_ + 1, size := q'.size + 1 }
        (objects ++ [⟨q.constructed, x⟩]) := by
  have hfree : (q.memory q.end_).isNone := by
    rw [hend, h.ring.cell_end hroom]; rfl
  have hlt : q.end_ < N := hend ▸ Ring.index_lt h.ring.begin_lt (Nat.le_of_lt hroom)
  refine ⟨_, if_pos ⟨hlt, hfree⟩, rfl, ?_, ?_, hlt, ?_, ?_⟩
  · rw [hend]
    exact h.ring.push hroom _
  · rw [List.length_append, h.size_eq]; rfl
  · rw [List.length_append, hend]
    exact (Ring.index_succ h.ring.begin_lt hroom).symm
  · rw [List.map_append, ← List.append_assoc, h.serials]
    exact List.range_succ.symm

theorem emplace (h : Represents N q objects) (hroom : objects.length < N) (made : Option α) :
    ∃ q', q.emplace N made = some q' ∧ q'.constructed = q.constructed + made.toList.length ∧
      ∃ fresh : List (Object α), fresh.map Object.value = made.toList ∧
        Represents N q' (objects ++ fresh) := by
  have hwrap : (if q.end_ = N then { q with end_ := 0 } else q) =
      { q with end_ := Ring.wrap N q.end_ } := by
    unfold Ring.wrap
    split <;> rfl
  simp only [ArrayQueue.emplace, hwrap]
  cases made with
  | none => exact ⟨_, rfl, rfl, [], rfl, by simpa using h.wrap_end⟩
  | some x =>
    obtain ⟨q', hq', hconstructed, hrep⟩ := h.wrap_end.construct h.end_eq hroom x
    exact ⟨_, Option.map_eq_some_iff.mpr ⟨q', hq', rfl⟩, hconstructed, [⟨q.constructed, x⟩], rfl, hrep⟩

theorem front (h : Represents N q (object :: objects)) : q.front N = some object.value := by
  have hcell := h.ring.cell_begin
  rw [ArrayQueue.front, if_pos h.ring.begin_lt, hcell]
  rfl

theorem pop (h : Represents N q (object :: objects)) :
    ∃ q', q.pop N = some q' ∧ q'.constructed = q.constructed ∧ q'.size + 1 = q.size ∧
      Represents N q' objects := by
  have hcell := h.ring.cell_begin
  have hsize := h.size_eq
  rw [List.length_cons] at hsize
  have hlen := h.ring.length_le
  rw [List.length_cons] at hlen
  have hdestroy : q.destroy N q.begin_ = some { q with
      memory := Function.update q.memory q.begin_ none
      destroyed := q.destroyed ++ [object.serial] } := by
    rw [ArrayQueue.destroy, if_pos h.ring.begin_lt, hcell]
    rfl
  refine ⟨{ q with
    memory := Function.update q.memory q.begin_ none
    destroyed := q.destroyed ++ [object.serial]
    size := q.size - 1
    begin_ := Ring.wrap N (q.begin_ + 1) }, ?_, rfl, by dsimp only; omega, ?_⟩
  · rw [ArrayQueue.pop, hdestroy, Option.map_some]
    unfold Ring.wrap
    dsimp only
    split <;> rfl
  · refine ⟨h.ring.pop, by dsimp only; omega, h.end_le, ?_, ?_⟩
    · rw [h.end_eq]
      exact (Ring.index_wrap hlen).symm
    · have hserials := h.serials
      rw [List.map_cons] at hserials
      exact (List.append_assoc ..).trans hserials

theorem resetLoop {rounds : Nat} (h : Represents N q objects) (hrounds : objects.length ≤ rounds) :
    ∃ q', q.resetLoop N rounds = some q' ∧ q'.constructed = q.constructed ∧ Represents N q' [] := by
  induction rounds generalizing q objects with
  | zero =>
    obtain rfl : objects = [] := List.eq_nil_of_length_eq_zero (Nat.le_zero.mp hrounds)
    exact ⟨q, if_pos h.size_eq, rfl, h⟩
  | succ rounds ih =>
    cases objects with
    | nil => exact ⟨q, if_pos h.size_eq, rfl, h⟩
    | cons object objects =>
      have hne : q.size ≠ 0 := by rw [h.size_eq]; exact Nat.succ_ne_zero _
      obtain ⟨m, hm, hmade, -, hrep⟩ := h.pop
      obtain ⟨q', hq', hmade', hrep'⟩ := ih hrep (Nat.le_of_succ_le_succ hrounds)
      refine ⟨q', ?_, hmade'.trans hmade, hrep'⟩
      rw [ArrayQueue.resetLoop, if_neg hne, hm]
      exact hq'

theorem reset (h : Represents N q objects) :
    ∃ q', q.reset N = some q' ∧ q'.constructed = q.constructed ∧ Represents N q' [] :=
  h.resetLoop (Nat.le_of_eq h.size_eq.symm)

theorem full_eq (h : Represents N q objects) : q.full N = decide (objects.length = N) := by
  have hlt := h.ring.begin_lt
  rw [ArrayQueue.full, h.size_eq]
  by_cases heq : objects.length = N
  · simp [heq]; omega
  · simp [heq]

theorem empty_eq (h : Represents N q objects) : q.empty = objects.isEmpty := by
  rw [ArrayQueue.empty, h.size_eq]
  cases objects <;> rfl

theorem objects_eq (h : Represents N q objects) : q.objects N = objects := by
  rw [ArrayQueue.objects, h.size_eq]
  exact h.ring.contents_eq

end Represents

/-- The queue `q` and the list `l` answer the same, `q` stays in its memory, and every object that was
    constructed is an element of it or was destroyed, once. -/
structure Agrees (N : Nat) (q : ArrayQueue α) (l : List α) : Prop where
  length_le : l.length ≤ N
  size : q.size = l.length
  empty : q.empty = l.isEmpty
  full : q.full N = decide (l.length = N)
  front : ∀ x ∈ l.head?, q.front N = some x
  values : (q.objects N).map Object.value = l
  begin_lt : q.begin_ < N
  end_le : q.end_ ≤ N
  nothing_else : ∀ p object, q.memory p = some object → object ∈ q.objects N
  lifetimes : q.destroyed ++ (q.objects N).map Object.serial = List.range q.constructed
  /-- after `reset`, as in the destructor, all of them were destroyed -/
  destructor : ∃ q', q.reset N = some q' ∧ q'.destroyed = List.range q.constructed ∧
    ∀ p, q'.memory p = none

variable {N : Nat} {q : ArrayQueue α} {objects : List (Object α)}

theorem Represents.agrees (h : Represents N q objects) : Agrees N q (objects.map Object.value) where
  length_le := by rw [List.length_map]; exact h.ring.length_le
  size := by rw [List.length_map]; exact h.size_eq
  empty := by rw [h.empty_eq]; cases objects <;> rfl
  full := by rw [List.length_map]; exact h.full_eq
  front := by
    intro x hx
    cases objects with
    | nil => cases hx
    | cons object objects =>
      obtain rfl := Option.some.inj hx
      exact h.front
  values := by rw [h.objects_eq]
  begin_lt := h.ring.begin_lt
  end_le := h.end_le
  nothing_else p object hp := by
    rw [h.objects_eq]
    exact h.ring.mem_of_cell hp
  lifetimes := by rw [h.objects_eq]; exact h.serials
  destructor := by
    obtain ⟨q', hq', hmade, hrep⟩ := h.reset
    refine ⟨q', hq', ?_, fun p => ?_⟩
    · have hserials := hrep.serials
      rwa [hmade, List.map_nil, List.append_nil] at hserials
    · cases hp : q'.memory p with
      | none => rfl
      | some object => exact absurd (hrep.ring.mem_of_cell hp) (List.not_mem_nil)

/-- The elements that a call makes. -/
def made : ArrayOp α → List α
  | .emplace made => made.toList
  | .front | .pop | .reset => []

/-- The calls that the guards of the queue allow are those that the list accepts. -/
theorem Represents.allowed_iff (h : Represents N q objects) (op : ArrayOp α) :
    q.Allowed N op ↔ (Fifo.step N (objects.map Object.value) op).isSome := by
  have hle := h.ring.length_le
  cases op with
  | emplace made =>
    rw [Allowed, h.full_eq, decide_eq_false_iff_not, Fifo.step, List.length_map]
    split <;> simp <;> omega
  | front =>
    rw [Allowed, h.empty_eq]
    cases objects <;> simp [Fifo.step]
  | pop =>
    rw [Allowed, h.empty_eq]
    cases objects <;> simp [Fifo.step]
  | reset => exact iff_of_true trivial rfl

/-- A call that is allowed does what it does on the list. -/
theorem Represents.step (h : Represents N q objects) {op : ArrayOp α} (hallowed : q.Allowed N op) :
    ∃ q', ArrayQueue.step N q op = some q' ∧ q'.constructed = q.constructed + (made op).length ∧
      ∃ objects' : List (Object α), Represents N q' objects' ∧
        Fifo.step N (objects.map Object.value) op = some (objects'.map Object.value) := by
  cases op with
  | emplace x =>
    have hne : objects.length ≠ N := by
      have hfull : q.full N = false := hallowed
      rwa [h.full_eq, decide_eq_false_iff_not] at hfull
    have hroom := Nat.lt_of_le_of_ne h.ring.length_le hne
    obtain ⟨q', hq', hmade, fresh, hfresh, hrep⟩ := h.emplace hroom x
    refine ⟨q', hq', hmade, _, hrep, ?_⟩
    rw [Fifo.step, List.length_map, if_pos hroom, List.map_append, hfresh]
  | front =>
    cases objects with
    | nil => exact absurd h.empty_eq (by rw [show q.empty = false from hallowed]; simp)
    | cons object objects =>
      exact ⟨q, by rw [ArrayQueue.step, h.front]; rfl, rfl, _, h, rfl⟩
  | pop =>
    cases objects with
    | nil => exact absurd h.empty_eq (by rw [show q.empty = false from hallowed]; simp)
    | cons object objects =>
      obtain ⟨q', hq', hmade, -, hrep⟩ := h.pop
      exact ⟨q', hq', hmade, objects, hrep, rfl⟩
  | reset =>
    obtain ⟨q', hq', hmade, hrep⟩ := h.reset
    exact ⟨q', hq', hmade, [], hrep, rfl⟩

theorem Represents.run {ops : List (ArrayOp α)} (h : Represents N q objects)
    (hallowed : Meets (ArrayQueue.step N) (Allowed N) q ops) :
    ∃ q', exec (ArrayQueue.step N) q ops = some q' ∧
      q'.constructed = q.constructed + (ops.flatMap made).length ∧
      ∃ objects' : List (Object α), Represents N q' objects' ∧
        exec (Fifo.step N) (objects.map Object.value) ops = some (objects'.map Object.value) := by
  induction ops generalizing q objects with
  | nil => exact ⟨q, rfl, rfl, objects, h, rfl⟩
  | cons op ops ih =>
    obtain ⟨m, hm, hmade, objects', hrep, hfifo⟩ := h.step hallowed.1
    obtain ⟨q', hq', hmade', objects'', hrep', hfifo'⟩ := ih hrep (hallowed.2 m hm)
    refine ⟨q', exec_cons.mpr ⟨m, hm, hq'⟩, ?_, objects'', hrep', exec_cons.mpr ⟨_, hfifo, hfifo'⟩⟩
    rw [hmade', hmade, List.flatMap_cons, List.length_append, Nat.add_assoc]

/-- The sequences of calls that keep to the guards are those that the list accepts. -/
theorem Represents.meets_iff (h : Represents N q objects) (ops : List (ArrayOp α)) :
    Meets (ArrayQueue.step N) (Allowed N) q ops ↔
      (exec (Fifo.step N) (objects.map Object.value) ops).isSome := by
  induction ops generalizing q objects with
  | nil => exact iff_of_true trivial rfl
  | cons op ops ih =>
    rw [Meets, h.allowed_iff op, exec]
    cases hfifo : Fifo.step N (objects.map Object.value) op with
    | none => simp
    | some l =>
      have hallowed : q.Allowed N op := (h.allowed_iff op).mpr (by rw [hfifo]; rfl)
      obtain ⟨m, hm, -, objects', hrep, hl⟩ := h.step hallowed
      obtain rfl := Option.some.inj (hfifo.symm.trans hl)
      simpa [hm] using ih hrep

/-- For any capacity and any calls that are allowed, the queue is a bounded FIFO: every access is
    inside its memory, it answers as the list does, and each element is constructed and destroyed
    once. -/
theorem bounded_fifo (hN : 0 < N) (ops : List (ArrayOp α))
    (hallowed : Meets (ArrayQueue.step N) (Allowed N) {} ops) :
    ∃ q l, exec (ArrayQueue.step N) {} ops = some q ∧ exec (Fifo.step N) [] ops = some l ∧
      Agrees N q l ∧ q.constructed = (ops.flatMap made).length := by
  obtain ⟨q, hq, hmade, objects, hrep, hfifo⟩ := (Represents.start hN).run hallowed
  exact ⟨q, _, hq, hfifo, hrep.agrees, hmade.trans (Nat.zero_add _)⟩

/-- A queue of two elements, whose positions go around. -/
theorem bounded_fifo_two :
    ∃ q l, exec (ArrayQueue.step 2) {} [.emplace (some 1), .emplace (some 2), .pop, .emplace none,
        .emplace (some 3), .front, .reset, .emplace (some 4)] = some q ∧
      exec (Fifo.step 2) [] [.emplace (some 1), .emplace (some 2), .pop, .emplace none,
        .emplace (some 3), .front, .reset, .emplace (some 4)] = some l ∧
      Agrees 2 q l ∧ q.constructed = 4 :=
  bounded_fifo (by decide) _ (by decide)

end ArrayQueue

end Jinx.Sync
