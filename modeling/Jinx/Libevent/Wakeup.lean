import Jinx.Lib.Runs
import Mathlib.Data.Fintype.Basic
import Mathlib.Logic.Function.Iterate

/-! `EventEngineLibevent::poll` and `wakeup` under `Loop::run`, with other threads that schedule tasks.

    The loop's thread pops tasks, runs them and polls; `Loop::schedule` pushes a task and then calls
    `wakeup`, which writes `_additional_flags` and calls `event_base_loopbreak`. What another thread
    does falls anywhere between the steps of the loop's thread. Tasks are counted; a `schedule` that is
    refused does neither of the two.

    libevent is what its documentation says: `event_base_loopbreak` stops a loop that is running and
    does nothing else, and with `EVLOOP_ONCE` a loop returns after the events that were active. -/

namespace Jinx.Libevent
open Function

/-- `int`, as a set of flags. -/
abbrev LoopFlags := BitVec 32

abbrev EVLOOP_ONCE : LoopFlags := 0x01
abbrev EVLOOP_NONBLOCK : LoopFlags := 0x02
abbrev EVLOOP_NO_EXIT_ON_EMPTY : LoopFlags := 0x04

def nonBlock (flags : LoopFlags) : Bool := flags &&& EVLOOP_NONBLOCK != 0

/-- Where the loop's thread is. -/
inductive LoopPc where
  /-- between two tasks -/
  | working
  /-- a task runs -/
  | running
  /-- `_tasks_ready.pop` has returned null, and `poll` is called -/
  | idle
  /-- the flags are read, for a `poll` that follows a yield or not -/
  | polling (flags : LoopFlags) (yielded : Bool)
  /-- in `event_base_loop` -/
  | looping (flags : LoopFlags) (yielded : Bool)
  /-- `event_base_loop` has returned -/
  | leaving (yielded : Bool)
  deriving DecidableEq, Repr

/-- The next `event_base_loop` will block. -/
def LoopPc.willBlock : LoopPc → Bool
  | .polling flags _ => !nonBlock flags
  | _ => false

/-- Where another thread is in `schedule`. -/
inductive ThreadPc where
  | outside
  /-- the task is pushed -/
  | pushed
  /-- `_additional_flags` is written -/
  | flagged
  deriving DecidableEq, Repr

structure Polling (T : Type*) where
  /-- the length of `_tasks_ready` -/
  ready : Nat := 0
  pollFlags : LoopFlags := EVLOOP_ONCE
  additionalFlags : LoopFlags := 0
  /-- the running `event_base_loop` was told to break -/
  broken : Bool := false
  /-- it has processed events -/
  processed : Bool := false
  pc : LoopPc := .working
  thread : T → ThreadPc := fun _ => .outside

inductive PollLabel (T : Type*) where
  /-- `_tasks_ready.pop` -/
  | pop
  /-- the running task schedules one, or one is spawned between two tasks -/
  | schedule
  /-- the running task is suspended or exits -/
  | suspend
  /-- it yields, and `poll` is called -/
  | yield
  | setNonBlocking (enable : Bool)
  | setNoExitOnEmpty (enable : Bool)
  /-- `poll` reads the flags -/
  | readFlags
  /-- `event_base_loop` begins -/
  | begin_
  /-- events are active, and their callbacks schedule so many tasks -/
  | events (scheduled : Nat)
  /-- `event_base_loop` returns -/
  | return_
  /-- `poll` returns; after a yield the task is scheduled again, unless a callback has done that -/
  | leave (again : Bool)
  /-- the three parts of `schedule` in another thread -/
  | push (t : T)
  | flag (t : T)
  | loopbreak (t : T)
  deriving DecidableEq, Repr

namespace Polling

variable {T : Type*}

/-- `wakeup` in the loop's thread. -/
def wakeup (s : Polling T) : Polling T :=
  { s with
    additionalFlags := EVLOOP_NONBLOCK
    broken := match s.pc with | .looping _ _ => true | _ => s.broken }

/-- `Loop::schedule`. -/
def schedule (s : Polling T) : Polling T := { s with ready := s.ready + 1 }.wakeup

/-- The end of `poll`, and what `run` does then. -/
def leave (s : Polling T) (yielded again : Bool) : Polling T :=
  let s := { s with additionalFlags := 0 }
  if yielded then
    if s.ready = 0 then { s with pc := .running }
    else
      -- the next task is popped, and the one that has yielded goes into the list
      let s := { s with ready := s.ready - 1, pc := .running }
      if again then s.schedule else s
  else { s with pc := .working }

variable [DecidableEq T]

def setThread (s : Polling T) (t : T) (pc : ThreadPc) : Polling T :=
  { s with thread := update s.thread t pc }

def step (s : Polling T) : PollLabel T → Option (Polling T)
  | .pop =>
    if s.pc = .working then
      if s.ready = 0 then some { s with pc := .idle }
      else some { s with ready := s.ready - 1, pc := .running }
    else none
  | .schedule => if s.pc = .working ∨ s.pc = .running then some s.schedule else none
  | .suspend => if s.pc = .running then some { s with pc := .working } else none
  | .yield =>
    if s.pc = .running then
      some { s with pc := .polling (s.pollFlags ||| s.additionalFlags) true }
    else none
  | .setNonBlocking enable =>
    if s.pc = .working ∨ s.pc = .running then
      some { s with
        pollFlags :=
          if enable then s.pollFlags ||| EVLOOP_NONBLOCK else s.pollFlags &&& ~~~EVLOOP_NONBLOCK }
    else none
  | .setNoExitOnEmpty enable =>
    if s.pc = .working ∨ s.pc = .running then
      some { s with
        pollFlags :=
          if enable then s.pollFlags ||| EVLOOP_NO_EXIT_ON_EMPTY
          else s.pollFlags &&& ~~~EVLOOP_NO_EXIT_ON_EMPTY }
    else none
  | .readFlags =>
    if s.pc = .idle then
      some { s with pc := .polling (s.pollFlags ||| s.additionalFlags) false }
    else none
  | .begin_ =>
    match s.pc with
    | .polling flags yielded =>
      some { s with pc := .looping flags yielded, broken := false, processed := false }
    | _ => none
  | .events scheduled =>
    match s.pc with
    | .looping _ _ => some (schedule^[scheduled] { s with processed := true })
    | _ => none
  | .return_ =>
    match s.pc with
    | .looping flags yielded =>
      if nonBlock flags ∨ s.broken ∨ s.processed then some { s with pc := .leaving yielded } else none
    | _ => none
  | .leave again =>
    match s.pc with
    | .leaving yielded => some (s.leave yielded again)
    | _ => none
  | .push t =>
    if s.thread t = .outside then some ({ s with ready := s.ready + 1 }.setThread t .pushed) else none
  | .flag t =>
    if s.thread t = .pushed then
      some ({ s with additionalFlags := EVLOOP_NONBLOCK }.setThread t .flagged)
    else none
  | .loopbreak t =>
    if s.thread t = .flagged then
      some ({ s with
        broken := match s.pc with | .looping _ _ => true | _ => s.broken }.setThread t .outside)
    else none

abbrev exec : Polling T → List (PollLabel T) → Option (Polling T) := Runs.exec step

/-- The loop's thread waits for an event that nobody has promised, and a task is ready. -/
def Stranded (s : Polling T) : Prop :=
  0 < s.ready ∧ (∃ flags yielded, s.pc = .looping flags yielded ∧ nonBlock flags = false) ∧
    s.broken = false ∧ s.processed = false ∧ ∀ t, s.thread t = .outside

/-- A thread is on its way to break the loop. -/
def Coming {T : Type*} (s : Polling T) : Prop := ∃ t, s.thread t ≠ .outside

/-- No thread breaks a loop that is about to begin and will block, and a task yields to others that are
    ready only after one was scheduled since the last poll, or while a thread schedules one. -/
def Careful (s : Polling T) : PollLabel T → Prop
  | .loopbreak _ => s.pc.willBlock = false
  | .yield => 0 < s.ready → nonBlock (s.pollFlags ||| s.additionalFlags) = true ∨ s.Coming
  | _ => True

instance {T : Type*} [Fintype T] (s : Polling T) : Decidable s.Coming :=
  inferInstanceAs (Decidable (∃ t, s.thread t ≠ .outside))

instance {T : Type*} [Fintype T] (s : Polling T) : (l : PollLabel T) → Decidable (s.Careful l)
  | .loopbreak _ => inferInstanceAs (Decidable (_ = _))
  | .yield => inferInstanceAs (Decidable (_ → _ ∨ _))
  | .pop | .schedule | .suspend | .setNonBlocking _ | .setNoExitOnEmpty _ | .readFlags | .begin_
  | .events _ | .return_ | .leave _ | .push _ | .flag _ => .isTrue trivial

/-! ### What the loop can count on -/

/-- Where the loop is about to block or blocks, a task that is ready comes with a wake-up. -/
def Inv {T : Type*} (s : Polling T) : Prop :=
  match s.pc with
  | .idle => 0 < s.ready → nonBlock s.additionalFlags = true ∨ ∃ t, s.thread t = .pushed
  | .polling flags _ => nonBlock flags = false → 0 < s.ready → s.Coming
  | .looping flags _ =>
    nonBlock flags = false → 0 < s.ready → s.broken = true ∨ s.processed = true ∨ s.Coming
  | .working | .running | .leaving _ => True

theorem nonBlock_or (a b : LoopFlags) : nonBlock (a ||| b) = (nonBlock a || nonBlock b) := by
  rw [Bool.eq_iff_iff]
  simp only [nonBlock, BitVec.and_or_distrib_right, bne_iff_ne, ne_eq, Bool.or_eq_true]
  rw [show (0 : LoopFlags) = 0#32 from rfl, BitVec.or_eq_zero_iff, not_and_or]

section

variable {T : Type*}

theorem schedules_frame (n : Nat) (s : Polling T) :
    (schedule^[n] s).pc = s.pc ∧ (schedule^[n] s).processed = s.processed := by
  induction n generalizing s with
  | zero => exact ⟨rfl, rfl⟩
  | succ n ih => exact ih s.schedule

theorem inv_leave (s : Polling T) (yielded again : Bool) : Inv (s.leave yielded again) := by
  unfold Polling.leave
  cases yielded with
  | false => trivial
  | true =>
    simp only [if_true]
    split
    · trivial
    · cases again <;> trivial

/-- A thread that comes will break the loop, wherever the loop is. -/
theorem inv_of_coming {s : Polling T} (hcoming : s.Coming)
    (hidle : nonBlock s.additionalFlags = true ∨ ∃ t, s.thread t = .pushed) : Inv s := by
  unfold Inv
  split
  · exact fun _ => hidle
  · exact fun _ _ => hcoming
  · exact fun _ _ => .inr (.inr hcoming)
  all_goals trivial

theorem Inv.not_stranded {s : Polling T} (hs : Inv s) : ¬ s.Stranded := by
  rintro ⟨hready, ⟨flags, yielded, hpc, hblock⟩, hbroken, hprocessed, houtside⟩
  simp only [Inv, hpc] at hs
  rcases hs hblock hready with h | h | ⟨t, ht⟩
  · simp [hbroken] at h
  · simp [hprocessed] at h
  · exact ht (houtside t)

end

variable {s s' : Polling T} {t : T}

theorem inv_push (s : Polling T) (t : T) :
    Inv ({ s with ready := s.ready + 1 }.setThread t .pushed) := by
  have ht : ({ s with ready := s.ready + 1 }.setThread t .pushed).thread t = .pushed := update_self ..
  exact inv_of_coming ⟨t, by simp [ht]⟩ (.inr ⟨t, ht⟩)

theorem inv_flag (s : Polling T) (t : T) :
    Inv ({ s with additionalFlags := EVLOOP_NONBLOCK }.setThread t .flagged) := by
  have ht : ({ s with additionalFlags := EVLOOP_NONBLOCK }.setThread t .flagged).thread t = .flagged :=
    update_self ..
  refine inv_of_coming ⟨t, fun h => by cases ht.symm.trans h⟩ (.inl ?_)
  show nonBlock EVLOOP_NONBLOCK = true
  decide

theorem Inv.loopbreak (hs : Inv s) (ht : s.thread t = .flagged) (hcareful : s.Careful (.loopbreak t)) :
    Inv ({ s with broken := match s.pc with | .looping _ _ => true | _ => s.broken }.setThread t
      .outside) := by
  cases hpc : s.pc with
  | working | running | leaving => simp [Inv, setThread]
  | idle =>
    simp only [Inv, setThread, hpc] at hs ⊢
    intro hready
    refine (hs hready).imp_right ?_
    rintro ⟨u, hu⟩
    have hne : u ≠ t := by
      rintro rfl
      cases ht.symm.trans hu
    exact ⟨u, (update_of_ne hne ..).trans hu⟩
  | polling flags yielded =>
    have hnonblock : nonBlock flags = true := by
      simpa [Careful, hpc, LoopPc.willBlock] using hcareful
    simp [Inv, setThread, hnonblock]
  | looping flags yielded =>
    simp only [Inv, setThread]
    exact fun _ _ => .inl trivial

theorem Inv.step (hs : Inv s) {l : PollLabel T} (hcareful : s.Careful l) (hstep : s.step l = some s') :
    Inv s' := by
  cases l with
  | pop =>
    obtain ⟨-, hstep⟩ := Option.ite_none_right_eq_some.mp hstep
    split at hstep
    · next hready =>
      obtain rfl := Option.some.inj hstep
      exact fun hpos => absurd hpos (by simp [hready])
    · obtain rfl := Option.some.inj hstep
      trivial
  | schedule =>
    obtain ⟨hpc, hstep⟩ := Option.ite_none_right_eq_some.mp hstep
    obtain rfl := Option.some.inj hstep
    rcases hpc with hpc | hpc <;> simp [Inv, schedule, wakeup, hpc]
  | suspend =>
    obtain ⟨-, hstep⟩ := Option.ite_none_right_eq_some.mp hstep
    obtain rfl := Option.some.inj hstep
    trivial
  | yield =>
    obtain ⟨-, hstep⟩ := Option.ite_none_right_eq_some.mp hstep
    obtain rfl := Option.some.inj hstep
    intro hblock hready
    exact (hcareful hready).resolve_left fun hnonblock => by simp [hnonblock] at hblock
  | setNonBlocking enable | setNoExitOnEmpty enable =>
    obtain ⟨hpc, hstep⟩ := Option.ite_none_right_eq_some.mp hstep
    obtain rfl := Option.some.inj hstep
    rcases hpc with hpc | hpc <;> simp [Inv, hpc]
  | readFlags =>
    obtain ⟨hpc, hstep⟩ := Option.ite_none_right_eq_some.mp hstep
    obtain rfl := Option.some.inj hstep
    simp only [Inv, hpc] at hs
    intro hblock hready
    rw [nonBlock_or, Bool.or_eq_false_iff] at hblock
    obtain ⟨t, ht⟩ := (hs hready).resolve_left (by simp [hblock.2])
    exact ⟨t, by simp [ht]⟩
  | begin_ =>
    cases hpc : s.pc with
    | polling flags yielded =>
      simp only [Polling.step, hpc, Option.some.injEq] at hstep
      subst hstep
      simp only [Inv, hpc] at hs
      exact fun hblock hready => .inr (.inr (hs hblock hready))
    | working | running | idle | looping | leaving => simp [Polling.step, hpc] at hstep
  | events scheduled =>
    cases hpc : s.pc with
    | looping flags yielded =>
      simp only [Polling.step, hpc, Option.some.injEq] at hstep
      have hframe := schedules_frame scheduled { s with processed := true }
      simp only [hpc] at hframe
      rw [hstep] at hframe
      simp only [Inv, hframe.1]
      exact fun _ _ => .inr (.inl hframe.2)
    | working | running | idle | polling | leaving => simp [Polling.step, hpc] at hstep
  | return_ =>
    cases hpc : s.pc with
    | looping flags yielded =>
      simp only [Polling.step, hpc] at hstep
      obtain ⟨-, hstep⟩ := Option.ite_none_right_eq_some.mp hstep
      obtain rfl := Option.some.inj hstep
      trivial
    | working | running | idle | polling | leaving => simp [Polling.step, hpc] at hstep
  | leave again =>
    cases hpc : s.pc with
    | leaving yielded =>
      simp only [Polling.step, hpc, Option.some.injEq] at hstep
      subst hstep
      exact inv_leave s yielded again
    | working | running | idle | polling | looping => simp [Polling.step, hpc] at hstep
  | push t =>
    obtain ⟨-, hstep⟩ := Option.ite_none_right_eq_some.mp hstep
    obtain rfl := Option.some.inj hstep
    exact inv_push s t
  | flag t =>
    obtain ⟨-, hstep⟩ := Option.ite_none_right_eq_some.mp hstep
    obtain rfl := Option.some.inj hstep
    exact inv_flag s t
  | loopbreak t =>
    obtain ⟨ht, hstep⟩ := Option.ite_none_right_eq_some.mp hstep
    obtain rfl := Option.some.inj hstep
    exact hs.loopbreak ht hcareful

/-- No wake-up is lost, whatever the threads do: in a careful run the loop's thread never waits in
    `event_base_loop` while a task is ready and nobody is about to wake it. -/
theorem never_stranded {ls : List (PollLabel T)} (hrun : exec {} ls = some s)
    (hcareful : Runs.Meets step Careful ({} : Polling T) ls) : ¬ s.Stranded :=
  (Runs.exec_invariant (fun _ _ _ hs hc hstep => Inv.step hs hc hstep) ls {} s hrun hcareful
    trivial).not_stranded

/-- A thread that schedules while the loop blocks. -/
theorem never_stranded_thread :
    ∃ s, exec ({} : Polling Unit)
        [.pop, .readFlags, .begin_, .push (), .flag (), .loopbreak ()] = some s ∧ ¬ s.Stranded := by
  have hrun : ∃ s, exec ({} : Polling Unit)
      [.pop, .readFlags, .begin_, .push (), .flag (), .loopbreak ()] = some s := ⟨_, rfl⟩
  obtain ⟨s, hrun⟩ := hrun
  exact ⟨s, hrun, never_stranded hrun (by decide)⟩

-- the thread breaks a loop that has not begun
example : ∃ s, exec ({} : Polling Unit)
    [.pop, .readFlags, .push (), .flag (), .loopbreak (), .begin_] = some s ∧ s.Stranded :=
  ⟨_, rfl, by decide, ⟨_, _, rfl, rfl⟩, rfl, rfl, fun _ => rfl⟩

-- two tasks are scheduled by callbacks, and the first one yields
example : ∃ s, exec ({} : Polling Unit)
    [.pop, .readFlags, .begin_, .events 2, .return_, .leave false, .pop, .yield, .begin_] = some s ∧
      s.Stranded :=
  ⟨_, rfl, by decide, ⟨_, _, rfl, rfl⟩, rfl, rfl, fun _ => rfl⟩

end Polling

end Jinx.Libevent
