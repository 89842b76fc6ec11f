import Mathlib.Data.List.Basic

/-! `ControlState` and `error::Error`, the two values that travel through every driver. -/

namespace Jinx

/-- `enum class ControlState : int`. -/
inductive ControlState where
  | ready | raise | suspended | yield | pause | passthrough | exited
  deriving DecidableEq, Repr

/-- The number behind the enumerator; the drivers compare it with `>`. -/
def ControlState.toInt : ControlState → Nat
  | .ready => 0
  | .raise => 1
  | .suspended => 2
  | .yield => 4
  | .pause => 8
  | .passthrough => 16
  | .exited => 24

/-- `state > ControlState::Raise`. -/
def ControlState.stops (st : ControlState) : Bool := ControlState.toInt .raise < st.toInt

/-- The category objects errors point to; `null` is what `Error::clear` leaves behind. -/
inductive Category where
  | null | uninitialized | awaitable | stream | http | other (n : Nat)
  deriving DecidableEq, Repr

/-- `error::Error`: a value and the category it belongs to. -/
structure Error where
  value : Int := 0
  category : Category := .uninitialized
  deriving DecidableEq, Repr

/-- `explicit operator bool`: an error is set when its value is not zero. -/
def Error.isSet (e : Error) : Bool := e.value != 0

/-- `Error::clear`, which the move constructor leaves in the moved-from object. -/
def Error.cleared : Error := ⟨0, .null⟩

/-- `enum class ErrorAwaitable`, with `make_error`. -/
inductive ErrorAwaitable where
  | noError | uninitialized | cancelled | popped | invalidErrorCode | noSys | cxxException
  | exitLoop | internalError
  deriving DecidableEq, Repr

def ErrorAwaitable.toInt : ErrorAwaitable → Int
  | .noError => 0
  | .uninitialized => 1
  | .cancelled => 2
  | .popped => 3
  | .invalidErrorCode => 4
  | .noSys => 5
  | .cxxException => 6
  | .exitLoop => 7
  | .internalError => 8

def makeError (e : ErrorAwaitable) : Error := ⟨e.toInt, .awaitable⟩

/-- `enum class ErrorCancel`, what `TaskQueue::cancel` returns. -/
inductive ErrorCancel where
  | noError | cancelRunningTask | cancelDequeuedTask | deferredDequeue
  deriving DecidableEq, Repr

/-- `ResultGeneric`, that is `Successful_` or `Failed_`. -/
inductive ResultGeneric where
  | successful | failed
  deriving DecidableEq, Repr

@[simp] theorem Error.default_not_isSet : ({} : Error).isSet = false := rfl

@[simp] theorem Error.cleared_not_isSet : Error.cleared.isSet = false := rfl

@[simp] theorem Error.isSet_iff (e : Error) : e.isSet = true ↔ e.value ≠ 0 := by
  simp [Error.isSet]

end Jinx
