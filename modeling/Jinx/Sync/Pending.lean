import Jinx.ControlState
import Mathlib.Data.List.Nodup

/-! What the synchronization primitives share: the answers of `async_poll`, and the lists
    `_pending_*` of the awaitables that wait in one of them.

    The nodes of a `LinkedList` are the awaitables themselves, and `is_inserted` is read off the
    links of the node. A node that is linked is refused by both pushes, one that is not by
    `erase`. -/

namespace Jinx.Sync

/-- An awaitable, one number for each use of it. -/
abbrev Id := Nat

/-- What an `async_poll` answers: `async_return`, `async_suspend` or `async_throw`. -/
inductive Async where
  | returned
  | suspended
  | thrown (e : Error)
  deriving DecidableEq, Repr

/-- Where the task that awaits an awaitable is: not in it, suspended in it, resumed but not yet
    run, or past it. -/
inductive Stage where
  | idle
  | suspended
  | scheduled
  | returned
  deriving DecidableEq, Repr

/-- `Task::resume`: only a suspended task is put in the ready list. -/
def Stage.resume : Stage → Stage
  | .suspended => .scheduled
  | st => st

/-- Nothing but `async_poll` suspends a task. -/
theorem Stage.resume_ne (st : Stage) : st.resume ≠ .suspended := by cases st <;> decide

theorem Stage.resume_idle (st : Stage) : st.resume ≠ .idle ↔ st ≠ .idle := by cases st <;> decide

theorem Stage.resume_eq_scheduled (st : Stage) :
    st.resume = .scheduled ↔ st = .suspended ∨ st = .scheduled := by cases st <;> decide

namespace LinkedList

variable {l : List Id} {i : Id}

/-- `LinkedList::push_front`. -/
def pushFront (l : List Id) (i : Id) : List Id × ResultGeneric :=
  if i ∈ l then (l, .failed) else (i :: l, .successful)

/-- `LinkedList::push_back`. -/
def pushBack (l : List Id) (i : Id) : List Id × ResultGeneric :=
  if i ∈ l then (l, .failed) else (l ++ [i], .successful)

/-- `LinkedList::erase`. -/
def erase (l : List Id) (i : Id) : List Id × ResultGeneric :=
  if i ∈ l then (l.erase i, .successful) else (l, .failed)

theorem pushFront_of_not_mem (h : i ∉ l) : pushFront l i = (i :: l, .successful) := if_neg h

theorem pushBack_of_not_mem (h : i ∉ l) : pushBack l i = (l ++ [i], .successful) := if_neg h

theorem pushBack_of_mem (h : i ∈ l) : pushBack l i = (l, .failed) := if_pos h

@[simp] theorem erase_fst : (erase l i).1 = l.erase i := by
  by_cases h : i ∈ l
  · simp [erase, h]
  · simp [erase, h, List.erase_of_not_mem h]

end LinkedList

end Jinx.Sync
