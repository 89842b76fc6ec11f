import Jinx.Lib.Runs
import Jinx.Posix.Retry
import Mathlib.Logic.Function.Basic

/-! The event handles of `EventEngineLibevent`: `Optional` memory with an event that libevent holds by
    its address.

    libevent is what its documentation says: `event_add` gives it the event or fails, `event_del` takes
    it back, and an event without `EV_PERSIST` is taken back before its callback is called. One callback
    is called at a time, and until it returns it may do with every handle whatever the program may do.
    An event that is never called is one that libevent may choose to call: times, descriptors and
    signals are left to it. Nobody looks at what `event_add` returns: it is an input.

    `Registry` is what the handles are for: a table of the callbacks that are registered. -/

namespace Jinx.Libevent
open Jinx Posix Function

abbrev EV_TIMEOUT : Nat := 0x01
abbrev EV_READ : Nat := 0x02
abbrev EV_WRITE : Nat := 0x04
abbrev EV_SIGNAL : Nat := 0x08
abbrev EV_PERSIST : Nat := 0x10
abbrev EV_ET : Nat := 0x20

abbrev ETIMEDOUT : Int := 110

/-- `make_error(posix::ErrorPosix::TimedOut)`. -/
def timedOut : Error := ⟨ETIMEDOUT, categoryPosix⟩

/-- `enum EventState`. -/
inductive EventState where
  | pending
  | running
  | deleted
  deriving DecidableEq, Repr

/-- What `event_assign` writes into a `struct event`: a descriptor or a signal, and the flags. -/
structure Event where
  fd : Int := -1
  flags : Nat := 0
  deriving DecidableEq, Repr

def Event.persists (ev : Event) : Bool := ev.flags &&& EV_PERSIST != 0

theorem read_not_persists (fd : Int) : Event.persists ⟨fd, EV_READ⟩ = false := by
  simp [Event.persists, show EV_READ &&& EV_PERSIST = 0 by decide]

theorem write_not_persists (fd : Int) : Event.persists ⟨fd, EV_WRITE⟩ = false := by
  simp [Event.persists, show EV_WRITE &&& EV_PERSIST = 0 by decide]

theorem timer_not_persists (fd : Int) : Event.persists ⟨fd, EV_TIMEOUT⟩ = false := by
  simp [Event.persists, show EV_TIMEOUT &&& EV_PERSIST = 0 by decide]

theorem signal_not_persists (sig : Int) : Event.persists ⟨sig, EV_SIGNAL⟩ = false := by
  simp [Event.persists, show EV_SIGNAL &&& EV_PERSIST = 0 by decide]

/-- `EventDataIO`, `EventDataSimple` and `EventDataSimpleFunctional`, with `_callback` and `_arg` in
    one; `none` is the null pointer of memory in which nothing was constructed. -/
structure EventData (κ : Type*) where
  event : Event := {}
  state : EventState := .pending
  callback : Option κ := none
  deriving DecidableEq, Repr

/-- `Optional<EventData>`: what was destroyed stays in the memory. -/
structure EventHandle (κ : Type*) where
  memory : EventData κ := {}
  empty : Bool := true
  deriving DecidableEq, Repr

/-- A call of a `_callback`; only those of `EventDataIO` are given the flags. -/
structure Call (κ : Type*) where
  callback : Option κ
  flags : Nat
  error : Error
  deriving DecidableEq, Repr

/-- The handles of a program, and what libevent has of them. -/
structure Engine (H κ : Type*) where
  handle : H → EventHandle κ := fun _ => {}
  /-- libevent has the event in the memory of this handle -/
  added : H → Bool := fun _ => false
  /-- how many objects were constructed in the memory of this handle -/
  built : H → Nat := fun _ => 0
  /-- the callback that has not returned: its handle, and the number of its `self` -/
  frame : Option (H × Nat) := none
  calls : List (Call κ) := []

inductive EngineOp (H κ : Type*) where
  /-- in this one and the next two, `accepted` is whether `event_add` succeeds -/
  | addIo (flags : Nat) (h : H) (fd : Int) (callback : κ) (accepted : Bool)
  | addTimer (h : H) (callback : κ) (accepted : Bool)
  | addSignal (h : H) (sig : Int) (callback : κ) (accepted : Bool)
  | removeIo (h : H)
  | removeTimer (h : H)
  | removeSignal (h : H)
  /-- `Optional::reset` and the destructor of a handle -/
  | reset (h : H)
  /-- libevent calls the callback of this handle -/
  | fire (h : H) (flags : Nat)
  /-- `_callback` has returned to it -/
  | finish
  deriving DecidableEq, Repr

namespace Engine

variable {H κ : Type*} [DecidableEq H]

/-- `Optional::reset`: the destructor is `event_del`. -/
def reset (s : Engine H κ) (h : H) : Engine H κ :=
  if (s.handle h).empty then s
  else
    { s with
      handle := update s.handle h { s.handle h with empty := true }
      added := update s.added h false }

/-- `Optional::emplace`, after its `reset`. -/
def construct (s : Engine H κ) (h : H) (data : EventData κ) : Engine H κ :=
  { s with
    handle := update s.handle h { memory := data, empty := false }
    built := update s.built h (s.built h + 1) }

/-- `event_add`, for an event that `event_assign` has just written. -/
def eventAdd (s : Engine H κ) (h : H) (accepted : Bool) : Engine H κ :=
  { s with added := update s.added h accepted }

/-- What `add_io`, `add_timer` and `add_signal` have in common. -/
def add (s : Engine H κ) (h : H) (event : Event) (callback : κ) (accepted : Bool) :
    Engine H κ × ResultGeneric :=
  let s := (s.reset h).construct h { event, callback := some callback }
  (s.eventAdd h accepted, .successful)

def addIo (s : Engine H κ) (flags : Nat) (h : H) (fd : Int) (callback : κ) (accepted : Bool) :
    Engine H κ × ResultGeneric :=
  s.add h { fd, flags } callback accepted

/-- The time goes to libevent. -/
def addTimer (s : Engine H κ) (h : H) (callback : κ) (accepted : Bool) : Engine H κ × ResultGeneric :=
  s.add h { fd := -1, flags := EV_TIMEOUT } callback accepted

def addSignal (s : Engine H κ) (h : H) (sig : Int) (callback : κ) (accepted : Bool) :
    Engine H κ × ResultGeneric :=
  s.add h { fd := sig, flags := EV_SIGNAL } callback accepted

/-- Write `_state`, whether or not an object lives there. -/
def setState (s : Engine H κ) (h : H) (state : EventState) : Engine H κ :=
  { s with
    handle := update s.handle h
      { s.handle h with memory := { (s.handle h).memory with state } } }

/-- `remove_io`, which looks at `_state` first. -/
def removeIo (s : Engine H κ) (h : H) : Engine H κ × ResultGeneric :=
  if (s.handle h).memory.state = .running then (s.setState h .deleted, .successful)
  else (s.reset h, .successful)

def removeTimer (s : Engine H κ) (h : H) : Engine H κ × ResultGeneric :=
  if (s.handle h).empty then (s, .failed) else s.removeIo h

def removeSignal (s : Engine H κ) (h : H) : Engine H κ × ResultGeneric :=
  if (s.handle h).empty then (s, .failed) else s.removeIo h

/-- The three functions `callback`, up to the call of `_callback`. -/
def callback (s : Engine H κ) (h : H) (flags : Nat) : Engine H κ :=
  let s := s.setState h .running
  let error := if flags &&& EV_TIMEOUT ≠ 0 then timedOut else {}
  { s with
    frame := some (h, s.built h)
    calls := s.calls ++ [{ callback := (s.handle h).memory.callback, flags, error }] }

/-- libevent has chosen an event. -/
def fire (s : Engine H κ) (h : H) (flags : Nat) : Engine H κ :=
  let s :=
    if (s.handle h).memory.event.persists then s else { s with added := update s.added h false }
  s.callback h flags

/-- The rest of `callback`, for the `self` and the `handle` that it has. -/
def finish (s : Engine H κ) (h : H) : Engine H κ :=
  if (s.handle h).memory.state = .deleted then { s with frame := none }.reset h
  else { s with frame := none }.setState h .pending

def step (s : Engine H κ) : EngineOp H κ → Option (Engine H κ)
  | .addIo flags h fd cb accepted => some (s.addIo flags h fd cb accepted).1
  | .addTimer h cb accepted => some (s.addTimer h cb accepted).1
  | .addSignal h sig cb accepted => some (s.addSignal h sig cb accepted).1
  | .removeIo h => some (s.removeIo h).1
  | .removeTimer h => some (s.removeTimer h).1
  | .removeSignal h => some (s.removeSignal h).1
  | .reset h => some (s.reset h)
  | .fire h flags => if s.frame.isNone ∧ s.added h then some (s.fire h flags) else none
  | .finish => s.frame.map fun frame => s.finish frame.1

abbrev exec : Engine H κ → List (EngineOp H κ) → Option (Engine H κ) := Runs.exec step

/-! ### What a call changes -/

/-- Nothing but one handle and its event is changed. -/
structure Elsewhere {H κ : Type*} (s s' : Engine H κ) (h : H) : Prop where
  handle : ∀ k ≠ h, s'.handle k = s.handle k
  added : ∀ k ≠ h, s'.added k = s.added k
  frame : s'.frame = s.frame
  calls : s'.calls = s.calls

theorem Elsewhere.trans {H κ : Type*} {s s' s'' : Engine H κ} {h : H} (h₁ : Elsewhere s s' h)
    (h₂ : Elsewhere s' s'' h) : Elsewhere s s'' h where
  handle k hk := (h₂.handle k hk).trans (h₁.handle k hk)
  added k hk := (h₂.added k hk).trans (h₁.added k hk)
  frame := h₂.frame.trans h₁.frame
  calls := h₂.calls.trans h₁.calls

theorem elsewhere_reset (s : Engine H κ) (h : H) : Elsewhere s (s.reset h) h := by
  unfold reset
  split
  · exact ⟨fun _ _ => rfl, fun _ _ => rfl, rfl, rfl⟩
  · exact ⟨fun k hk => update_of_ne hk .., fun k hk => update_of_ne hk .., rfl, rfl⟩

theorem elsewhere_setState (s : Engine H κ) (h : H) (state : EventState) :
    Elsewhere s (s.setState h state) h :=
  ⟨fun _ hk => update_of_ne hk .., fun _ _ => rfl, rfl, rfl⟩

theorem elsewhere_add (s : Engine H κ) (h : H) (event : Event) (callback : κ) (accepted : Bool) :
    Elsewhere s (s.add h event callback accepted).1 h := by
  refine (elsewhere_reset s h).trans ⟨fun k hk => ?_, fun k hk => ?_, rfl, rfl⟩
  · exact update_of_ne hk ..
  · exact update_of_ne hk ..

theorem elsewhere_removeIo (s : Engine H κ) (h : H) : Elsewhere s (s.removeIo h).1 h := by
  unfold removeIo
  split
  · exact elsewhere_setState s h .deleted
  · exact elsewhere_reset s h

theorem removeTimer_fst (s : Engine H κ) (h : H) :
    (s.removeTimer h).1 = if (s.handle h).empty then s else (s.removeIo h).1 := by
  unfold removeTimer
  split <;> rfl

theorem elsewhere_removeTimer (s : Engine H κ) (h : H) : Elsewhere s (s.removeTimer h).1 h := by
  rw [removeTimer_fst]
  split
  · exact ⟨fun _ _ => rfl, fun _ _ => rfl, rfl, rfl⟩
  · exact elsewhere_removeIo s h

theorem handle_reset (s : Engine H κ) (h : H) :
    (s.reset h).handle h = { s.handle h with empty := true } := by
  unfold reset
  split
  · next hempty => rw [← hempty]
  · exact update_self ..

theorem added_reset (s : Engine H κ) (h : H) :
    (s.reset h).added h = (s.added h && (s.handle h).empty) := by
  unfold reset
  split
  · next hempty => rw [hempty, Bool.and_true]
  · next hempty =>
    rw [Bool.eq_false_iff.mpr hempty, Bool.and_false]
    exact update_self ..

/-- libevent takes back an event that is called once. -/
theorem fire_eq (s : Engine H κ) (h : H) (flags : Nat) :
    s.fire h flags =
      { s with
        handle := update s.handle h
          { s.handle h with memory := { (s.handle h).memory with state := .running } }
        added := update s.added h (s.added h && (s.handle h).memory.event.persists)
        frame := some (h, s.built h)
        calls := s.calls ++
          [{ callback := (s.handle h).memory.callback, flags
             error := if flags &&& EV_TIMEOUT ≠ 0 then timedOut else {} }] } := by
  unfold fire
  split
  · next hpersists =>
    rw [hpersists, Bool.and_true, update_eq_self]
    simp only [callback, setState, update_self]
  · next hpersists =>
    rw [Bool.eq_false_iff.mpr hpersists, Bool.and_false]
    simp only [callback, setState, update_self]

/-- What a callback leaves of its own handle. -/
def left (x : EventHandle κ) : EventHandle κ :=
  if x.memory.state = .deleted then { x with empty := true }
  else { x with memory := { x.memory with state := .pending } }

theorem finish_frame (s : Engine H κ) (h : H) : (s.finish h).frame = none := by
  unfold finish
  split
  · exact (elsewhere_reset { s with frame := none } h).frame
  · rfl

theorem finish_calls (s : Engine H κ) (h : H) : (s.finish h).calls = s.calls := by
  unfold finish
  split
  · exact (elsewhere_reset { s with frame := none } h).calls
  · rfl

theorem finish_other (s : Engine H κ) {h k : H} (hk : k ≠ h) :
    (s.finish h).handle k = s.handle k ∧ (s.finish h).added k = s.added k := by
  unfold finish
  split
  · have hsame := elsewhere_reset { s with frame := none } h
    exact ⟨hsame.handle k hk, hsame.added k hk⟩
  · exact ⟨update_of_ne hk .., rfl⟩

theorem finish_handle (s : Engine H κ) (h : H) : (s.finish h).handle h = left (s.handle h) := by
  unfold finish left
  split
  · exact handle_reset { s with frame := none } h
  · exact update_self ..

theorem finish_added (s : Engine H κ) (h : H) :
    (s.finish h).added h =
      (s.added h && ((s.handle h).empty || (s.handle h).memory.state != .deleted)) := by
  unfold finish
  split
  · next hdeleted =>
    refine (added_reset { s with frame := none } h).trans ?_
    simp [hdeleted]
  · next hdeleted => simp [setState, hdeleted]

end Engine

/-! ### What the handles are for -/

/-- A callback that is registered; `due` until it is called, if it is called once, and never if
    `event_add` has failed. -/
structure Registration (κ : Type*) where
  callback : κ
  persistent : Bool
  due : Bool
  deriving DecidableEq, Repr

structure Registry (H κ : Type*) where
  entry : H → Option (Registration κ) := fun _ => none
  /-- a callback has not returned -/
  busy : Bool := false
  called : List κ := []

namespace Registry

variable {H κ : Type*} [DecidableEq H]

def register (t : Registry H κ) (h : H) (callback : κ) (persistent due : Bool) : Registry H κ :=
  { t with entry := update t.entry h (some { callback, persistent, due }) }

def unregister (t : Registry H κ) (h : H) : Registry H κ :=
  { t with entry := update t.entry h none }

def call (t : Registry H κ) (h : H) : Option (Registry H κ) :=
  match t.entry h with
  | none => none
  | some r =>
    if r.due ∧ t.busy = false then
      some { t with
        entry := update t.entry h (some { r with due := r.persistent })
        busy := true
        called := t.called ++ [r.callback] }
    else none

/-- A registration replaces the one before it, and only one that is due is called. -/
def step (t : Registry H κ) : EngineOp H κ → Option (Registry H κ)
  | .addIo flags h _ cb accepted => some (t.register h cb (flags &&& EV_PERSIST != 0) accepted)
  | .addTimer h cb accepted | .addSignal h _ cb accepted => some (t.register h cb false accepted)
  | .removeIo h | .removeTimer h | .removeSignal h | .reset h => some (t.unregister h)
  | .fire h _ => t.call h
  | .finish => some { t with busy := false }

abbrev exec : Registry H κ → List (EngineOp H κ) → Option (Registry H κ) := Runs.exec step

theorem call_of_due {t : Registry H κ} {h : H} {r : Registration κ} (hentry : t.entry h = some r)
    (hdue : r.due = true) (hbusy : t.busy = false) :
    t.call h =
      some { t with
        entry := update t.entry h (some { r with due := r.persistent })
        busy := true
        called := t.called ++ [r.callback] } := by
  simp only [call, hentry, hdue, hbusy, and_self, if_true]

end Registry

/-! ### The handles refine the registry -/

/-- What lies in the memory of a handle that is registered. -/
structure Registered {κ : Type*} (own : Bool) (x : EventHandle κ) (added : Bool)
    (r : Registration κ) : Prop where
  alive : x.empty = false
  callback : x.memory.callback = some r.callback
  persists : x.memory.event.persists = r.persistent
  added : added = r.due
  state : x.memory.state ≠ .deleted
  running : x.memory.state = .running → own = true

/-- Only the callback of the handle itself leaves an object there that is no longer registered. -/
def Vacant {κ : Type*} (own : Bool) (x : EventHandle κ) (added : Bool) : Prop :=
  x.empty = true ∧ added = false ∨ own = true ∧ x.empty = false ∧ x.memory.state = .deleted

/-- A handle and its entry; `own` while a callback of this handle has not returned. -/
def Holds {κ : Type*} (own : Bool) (x : EventHandle κ) (added : Bool) :
    Option (Registration κ) → Prop
  | none => Vacant own x added
  | some r => Registered own x added r

namespace Engine

variable {H κ : Type*} [DecidableEq H]

/-- The callback that has not returned is one of this handle. -/
def own (s : Engine H κ) (h : H) : Bool := s.frame.any fun frame => frame.1 = h

structure Refines (s : Engine H κ) (t : Registry H κ) : Prop where
  calls : s.calls.map Call.callback = t.called.map some
  busy : t.busy = s.frame.isSome
  holds : ∀ h, Holds (s.own h) (s.handle h) (s.added h) (t.entry h)

variable {s s' : Engine H κ} {t : Registry H κ} {h : H}

theorem Elsewhere.own (hs : Elsewhere s s' h) (k : H) : s'.own k = s.own k := by
  rw [Engine.own, Engine.own, hs.frame]

theorem Refines.set (hR : Refines s t) (hs : Elsewhere s s' h) {e : Option (Registration κ)}
    (he : Holds (s.own h) (s'.handle h) (s'.added h) e) :
    Refines s' { t with entry := update t.entry h e } where
  calls := (congrArg _ hs.calls).trans hR.calls
  busy := hR.busy.trans (congrArg _ hs.frame.symm)
  holds k := by
    rw [hs.own]
    show Holds _ _ _ (Function.update t.entry h e k)
    by_cases hk : k = h
    · subst hk
      rwa [update_self]
    · rw [hs.handle k hk, hs.added k hk, update_of_ne hk]
      exact hR.holds k

/-- libevent has no event in memory where no object lives. -/
theorem Refines.added (hR : Refines s t) (hempty : (s.handle h).empty = true) : s.added h = false := by
  have hholds := hR.holds h
  cases hentry : t.entry h with
  | none =>
    rw [hentry] at hholds
    rcases hholds with hvacant | ⟨-, halive, -⟩
    · exact hvacant.2
    · simp [hempty] at halive
  | some r =>
    rw [hentry] at hholds
    have halive := hholds.alive
    simp [hempty] at halive

theorem Refines.reset (hR : Refines s t) (h : H) : Refines (s.reset h) (t.unregister h) := by
  refine hR.set (elsewhere_reset s h) (.inl ⟨?_, ?_⟩)
  · rw [handle_reset]
  · rw [added_reset]
    cases hempty : (s.handle h).empty with
    | true => rw [hR.added hempty]; rfl
    | false => exact Bool.and_false _

theorem Refines.add (hR : Refines s t) (h : H) (event : Event) (callback : κ) (accepted : Bool) :
    Refines (s.add h event callback accepted).1 (t.register h callback event.persists accepted) := by
  refine hR.set (elsewhere_add s h event callback accepted) ?_
  have hhandle : ((s.add h event callback accepted).1.handle h) =
      { memory := { event, callback := some callback }, empty := false } := update_self ..
  have hadded : (s.add h event callback accepted).1.added h = accepted := update_self ..
  rw [hhandle, hadded]
  exact ⟨rfl, rfl, rfl, rfl, by simp, by simp⟩

theorem Refines.removeIo (hR : Refines s t) (h : H) : Refines (s.removeIo h).1 (t.unregister h) := by
  unfold Engine.removeIo
  split
  · next hrunning =>
    refine hR.set (elsewhere_setState s h .deleted) ?_
    have hhandle : (s.setState h .deleted).handle h =
        { s.handle h with memory := { (s.handle h).memory with state := .deleted } } := update_self ..
    have hholds := hR.holds h
    rw [hhandle]
    cases hentry : t.entry h with
    | none =>
      rw [hentry] at hholds
      rcases hholds with hvacant | ⟨hown, halive, -⟩
      · exact .inl hvacant
      · exact .inr ⟨hown, halive, rfl⟩
    | some r =>
      rw [hentry] at hholds
      exact .inr ⟨hholds.running hrunning, hholds.alive, rfl⟩
  · exact hR.reset h

/-- An empty handle is not registered. -/
theorem Refines.entry (hR : Refines s t) (hempty : (s.handle h).empty = true) : t.entry h = none := by
  cases hentry : t.entry h with
  | none => rfl
  | some r =>
    have hholds := hR.holds h
    rw [hentry] at hholds
    have halive := hholds.alive
    simp [hempty] at halive

theorem Refines.removeTimer (hR : Refines s t) (h : H) :
    Refines (s.removeTimer h).1 (t.unregister h) := by
  rw [removeTimer_fst]
  split
  · next hempty =>
    have hsame : t.unregister h = t := by
      rw [Registry.unregister, ← hR.entry hempty, update_eq_self]
    rwa [hsame]
  · exact hR.removeIo h

/-- An event that libevent has, while no callback runs, is one that is due. -/
theorem Refines.due (hR : Refines s t) (hframe : s.frame = none) (hadded : s.added h = true) :
    ∃ r, t.entry h = some r ∧ r.due = true ∧ Registered false (s.handle h) true r := by
  have hown : s.own h = false := by rw [own, hframe]; rfl
  have hholds := hR.holds h
  rw [hown, hadded] at hholds
  cases hentry : t.entry h with
  | none =>
    rw [hentry] at hholds
    rcases hholds with ⟨-, hnot⟩ | ⟨hnot, -⟩ <;> cases hnot
  | some r =>
    rw [hentry] at hholds
    exact ⟨r, rfl, hholds.added.symm, hholds⟩

theorem Refines.fire (hR : Refines s t) (hframe : s.frame = none) (hadded : s.added h = true)
    (flags : Nat) : ∃ t', t.call h = some t' ∧ Refines (s.fire h flags) t' := by
  obtain ⟨r, hentry, hdue, hregistered⟩ := hR.due hframe hadded
  have hbusy : t.busy = false := by rw [hR.busy, hframe]; rfl
  have hcall := Registry.call_of_due hentry hdue hbusy
  refine ⟨_, hcall, ?_⟩
  rw [fire_eq]
  refine ⟨?_, rfl, fun k => ?_⟩
  · show (s.calls ++ _).map Call.callback = (t.called ++ _).map some
    rw [List.map_append, List.map_append, hR.calls]
    exact congrArg (_ ++ [·]) hregistered.callback
  · show Holds (decide (h = k)) (Function.update s.handle h _ k) (Function.update s.added h _ k)
      (Function.update t.entry h _ k)
    by_cases hk : k = h
    · subst hk
      rw [update_self, update_self, update_self, decide_eq_true rfl, hadded, Bool.true_and]
      exact ⟨hregistered.alive, hregistered.callback, hregistered.persists, hregistered.persists,
        by simp, fun _ => rfl⟩
    · rw [update_of_ne hk, update_of_ne hk, update_of_ne hk, decide_eq_false (Ne.symm hk)]
      have hholds := hR.holds k
      have hnot : s.own k = false := by rw [Engine.own, hframe]; rfl
      rwa [hnot] at hholds

/-- When the callback has returned, an object that was removed by it is gone. -/
theorem Holds.finish {x : EventHandle κ} {added : Bool} {e : Option (Registration κ)}
    (h : Holds true x added e) :
    Holds false (left x) (added && (x.empty || x.memory.state != .deleted)) e := by
  cases e with
  | none =>
    left
    rcases h with ⟨hempty, hadded⟩ | ⟨-, halive, hdeleted⟩
    · rw [hadded, Bool.false_and]
      refine ⟨?_, rfl⟩
      unfold left
      split
      · rfl
      · exact hempty
    · simp [left, halive, hdeleted]
  | some r =>
    have hstate := h.state
    refine ⟨?_, ?_, ?_, ?_, ?_, ?_⟩ <;> simp [left, hstate, h.alive, h.callback, h.persists, h.added]

theorem Refines.finish {frame : H × Nat} (hR : Refines s t) (hframe : s.frame = some frame) :
    Refines (s.finish frame.1) { t with busy := false } := by
  have hown : ∀ k, s.own k = decide (frame.1 = k) := fun k => by rw [Engine.own, hframe]; rfl
  refine ⟨(congrArg _ (finish_calls ..)).trans hR.calls, by rw [finish_frame]; rfl, fun k => ?_⟩
  have hfree : (s.finish frame.1).own k = false := by rw [Engine.own, finish_frame]; rfl
  have hholds := hR.holds k
  rw [hfree]
  rw [hown k] at hholds
  by_cases hk : k = frame.1
  · subst hk
    rw [decide_eq_true rfl] at hholds
    rw [finish_handle, finish_added]
    exact Holds.finish hholds
  · rw [(finish_other s hk).1, (finish_other s hk).2]
    rwa [decide_eq_false (Ne.symm hk)] at hholds

/-- Every step of the handles is one of the registry. -/
theorem Refines.step (hR : Refines s t) {op : EngineOp H κ} (hstep : s.step op = some s') :
    ∃ t', t.step op = some t' ∧ Refines s' t' := by
  cases op with
  | addIo flags h fd cb accepted =>
    obtain rfl := Option.some.inj hstep
    exact ⟨_, rfl, hR.add h { fd, flags } cb accepted⟩
  | addTimer h cb accepted =>
    obtain rfl := Option.some.inj hstep
    exact ⟨_, rfl, timer_not_persists (-1) ▸ hR.add h { fd := -1, flags := EV_TIMEOUT } cb accepted⟩
  | addSignal h sig cb accepted =>
    obtain rfl := Option.some.inj hstep
    exact ⟨_, rfl, signal_not_persists sig ▸ hR.add h { fd := sig, flags := EV_SIGNAL } cb accepted⟩
  | removeIo h =>
    obtain rfl := Option.some.inj hstep
    exact ⟨_, rfl, hR.removeIo h⟩
  | removeTimer h | removeSignal h =>
    obtain rfl := Option.some.inj hstep
    exact ⟨_, rfl, hR.removeTimer h⟩
  | reset h =>
    obtain rfl := Option.some.inj hstep
    exact ⟨_, rfl, hR.reset h⟩
  | fire h flags =>
    obtain ⟨⟨hframe, hadded⟩, hs⟩ := Option.ite_none_right_eq_some.mp hstep
    obtain rfl := Option.some.inj hs
    exact hR.fire (Option.isNone_iff_eq_none.mp hframe) hadded flags
  | finish =>
    obtain ⟨frame, hframe, rfl⟩ := Option.map_eq_some_iff.mp hstep
    exact ⟨_, rfl, hR.finish hframe⟩

theorem refines_init : Refines ({} : Engine H κ) {} where
  calls := rfl
  busy := rfl
  holds _ := .inl ⟨rfl, rfl⟩

/-- In every run the callbacks that libevent calls are the ones that the registry calls: the last one
    registered in its handle and not removed since, and only one that is due. While no callback runs,
    libevent has exactly the events that are due, and a handle is empty if nothing is registered. A
    registration that `event_add` has refused fills its handle but is never due. -/
theorem refines_registry {ops : List (EngineOp H κ)} (hrun : exec ({} : Engine H κ) ops = some s) :
    ∃ t, Registry.exec {} ops = some t ∧ s.calls.map Call.callback = t.called.map some ∧
      (s.frame = none → ∀ h, (s.handle h).empty = (t.entry h).isNone ∧
        s.added h = (t.entry h).any Registration.due) := by
  obtain ⟨t, ht, hR⟩ := Runs.exec_simulates (R := Refines)
    (fun s op s' t hR (hstep : step s op = some s') => hR.step hstep) ops {} s {} refines_init hrun
  refine ⟨t, ht, hR.calls, fun hframe h => ?_⟩
  have hown : s.own h = false := by rw [own, hframe]; rfl
  have hholds := hR.holds h
  rw [hown] at hholds
  cases hentry : t.entry h with
  | none =>
    rw [hentry] at hholds
    obtain ⟨hempty, hadded⟩ := hholds.resolve_right fun hnot => Bool.false_ne_true hnot.1
    exact ⟨hempty, hadded⟩
  | some r =>
    rw [hentry] at hholds
    exact ⟨hholds.alive, hholds.added⟩

/-- A persistent event is removed from its own callback, which then registers a timer in the handle. The
    timer of the other handle was refused. -/
theorem refines_registry_nested :
    ∃ s t, exec ({} : Engine Bool Nat)
        [.addIo (EV_READ ||| EV_PERSIST) true 5 7 true, .addTimer false 9 false, .fire true EV_READ,
          .removeIo true, .addTimer true 8 true, .finish, .fire true EV_TIMEOUT, .finish] = some s ∧
      Registry.exec ({} : Registry Bool Nat)
        [.addIo (EV_READ ||| EV_PERSIST) true 5 7 true, .addTimer false 9 false, .fire true EV_READ,
          .removeIo true, .addTimer true 8 true, .finish, .fire true EV_TIMEOUT, .finish] = some t ∧
      s.calls.map Call.callback = [some 7, some 8] ∧ s.calls.map Call.callback = t.called.map some := by
  have hrun : ∃ s, exec ({} : Engine Bool Nat)
      [.addIo (EV_READ ||| EV_PERSIST) true 5 7 true, .addTimer false 9 false, .fire true EV_READ,
        .removeIo true, .addTimer true 8 true, .finish, .fire true EV_TIMEOUT, .finish] = some s ∧
      s.calls.map Call.callback = [some 7, some 8] := ⟨_, rfl, rfl⟩
  obtain ⟨s, hrun, hcalls⟩ := hrun
  obtain ⟨t, ht, hcalled, -⟩ := refines_registry hrun
  exact ⟨s, t, hrun, ht, hcalls, hcalled⟩

end Engine

end Jinx.Libevent
