import Jinx.Sched.TaskQueue
import Jinx.ThreadSafeList

/-! `TaskQueue::schedule` from any number of threads, beside the thread that runs the loop.

    `_state` is atomic and `_tasks_ready` is a `LinkedListThreadSafe`, so a call of `schedule` is cut at
    each of its accesses, and so is `TaskQueue::run` from one `_tasks_ready.pop()` to the next. A call
    that
    a task makes in its body, or a callback in `poll`, is one of a caller here: that the loop waits for it
    only rules out some orders. The tasks are attached; `cancel` and `exit` are not called. The store of
    `Exited` in `Task::async_poll` is one with the store of the state after `task->run()`. -/

namespace Jinx.Sched
open LinkedListThreadSafe

/-- Where a thread is in `schedule`. -/
inductive Scheduling where
  /-- before `_state.exchange(ControlState::Ready)` -/
  | exchange (t : TaskId) (e : Error)
  /-- the state was `Exited`, before it is put back -/
  | restore (t : TaskId)
  | setError (t : TaskId) (e : Error)
  /-- in `_tasks_ready.push` -/
  | push (t : TaskId)
  deriving DecidableEq, Repr

/-- Where the thread of the loop is. -/
inductive LoopPlace where
  /-- outside `run`, or in the idle poll -/
  | outside
  /-- in `_tasks_ready.pop()`, maybe after a task has yielded -/
  | popping (yielded : Option TaskId)
  /-- in `schedule(task, {})` of the task that has yielded; `next` is run then -/
  | passing (next : TaskId)
  /-- in `task->run()`, maybe again because no other task was ready -/
  | running (t : TaskId) (again : Bool)
  /-- in the poll after `t` has yielded -/
  | yieldPoll (t : TaskId)
  deriving DecidableEq, Repr

/-- A call of `schedule` that succeeds, and the begin of a run. -/
inductive Wake where
  | scheduled (t : TaskId) (e : Error)
  | taken (t : TaskId) (e : Error)
  deriving DecidableEq, Repr

/-- The callers `κ`, and `none` for the thread of the loop. -/
structure Threads (κ : Type*) where
  ready : LinkedListThreadSafe (Option κ) TaskId := {}
  state : TaskId → ControlState := fun _ => .suspended
  error : TaskId → Error := fun _ => {}
  calls : Option κ → Option Scheduling := fun _ => none
  loop : LoopPlace := .outside
  log : List Wake := []

namespace Threads

variable {κ : Type*} [DecidableEq κ]

def setCall (s : Threads κ) (c : Option κ) (p : Option Scheduling) : Threads κ :=
  { s with calls := Function.update s.calls c p }

/-- The next access of `schedule`. -/
def schedule (s : Threads κ) (c : Option κ) (spurious : Bool) : Scheduling → Option (Threads κ)
  | .exchange t e =>
    let s' := { s with state := Function.update s.state t .ready }
    if s.state t = .ready then some (s'.setCall c none)
    else if s.state t = .exited then some (s'.setCall c (some (.restore t)))
    else some ({ s' with log := s.log ++ [Wake.scheduled t e] }.setCall c (some (.setError t e)))
  | .restore t => some ({ s with state := Function.update s.state t .exited }.setCall c none)
  | .setError t e =>
    (s.ready.step (.push c t)).map fun r =>
      { s with error := Function.update s.error t e, ready := r }.setCall c (some (.push t))
  | .push _ =>
    (s.ready.step (.access c spurious)).map fun r =>
      if r.place c = .idle then { s with ready := r }.setCall c none else { s with ready := r }

/-- The head of the inner loop's body, up to the call of `task->run()`. -/
def start (s : Threads κ) (u : TaskId) : Threads κ :=
  { s with loop := .running u false, log := s.log ++ [.taken u (s.error u)] }

/-- `_tasks_ready.pop()` has returned. -/
def popped (s : Threads κ) : Option TaskId → Option TaskId → Threads κ
  | none, none => { s with loop := .outside }
  | some t, none => { s with loop := .running t true }
  | none, some u => s.start u
  | some t, some u => { s with loop := .passing u }.setCall none (some (.exchange t {}))

/-- The node that `pop` has taken out and is about to return. -/
def answer : Place TaskId → Option TaskId
  | .popped (some v) | .shrink v _ => some v
  | _ => none

/-- The next access of the thread of the loop. -/
def loopAccess (s : Threads κ) (spurious : Bool) : Option (Threads κ) :=
  match s.loop with
  | .popping yielded =>
    (s.ready.step (.access none spurious)).map fun r =>
      if r.place none = .idle then { s with ready := r }.popped yielded (answer (s.ready.place none))
      else { s with ready := r }
  | .passing next =>
    match s.calls none with
    | none => some (s.start next)
    | some p => s.schedule none spurious p
  | _ => none

/-- `task = _tasks_ready.pop()` is called. -/
def pop (s : Threads κ) (yielded : Option TaskId) : Option (Threads κ) :=
  (s.ready.step (.pop none)).map fun r => { s with ready := r, loop := .popping yielded }

inductive Label (κ : Type*) where
  /-- a caller calls `schedule` -/
  | call (k : κ) (t : TaskId) (e : Error)
  | caller (k : κ) (spurious : Bool)
  /-- `run` is called, or the idle poll returns, or the poll after a yield -/
  | pop
  | loop (spurious : Bool)
  /-- `task->run()` returns; `raised` is the error that reached the task's own frame -/
  | finished (st : ControlState) (raised : Option Error)
  deriving DecidableEq, Repr

def step (s : Threads κ) : Label κ → Option (Threads κ)
  | .call k t e => if s.calls (some k) = none then some (s.setCall (some k)
    (some (.exchange t e))) else none
  | .caller k spurious => (s.calls (some k)).bind (s.schedule (some k) spurious)
  | .pop =>
    match s.loop with
    | .outside => s.pop none
    | .yieldPoll t => s.pop (some t)
    | _ => none
  | .loop spurious => s.loopAccess spurious
  | .finished st raised =>
    match s.loop with
    | .running t _ =>
      if st = .suspended ∨ st = .yield ∨ st = .raise ∨ st = .exited then
        some { s with
          state := Function.update s.state t st
          error := Function.update s.error t (raised.getD (s.error t))
          loop := if st = .yield then .yieldPoll t else .outside }
      else none
    | _ => none

abbrev exec : Threads κ → List (Label κ) → Option (Threads κ) := Runs.exec step

/-! ### Every task is at one place -/

/-- The task that a caller has made ready and not linked in yet. -/
def holding (s : Threads κ) (c : Option κ) : Option TaskId :=
  match s.calls c with
  | some (.setError t _) => some t
  | some (.push _) => (s.ready.place c).pushing
  | _ => none

/-- The task that the thread of the loop has. -/
def inHand (s : Threads κ) : Option TaskId :=
  match s.loop with
  | .outside => none
  | .popping yielded => (answer (s.ready.place none)).or yielded
  | .passing next => some next
  | .running t _ => some t
  | .yieldPoll t => some t

/-- The task that the loop goes on with if no other one is ready, and that runs again then. -/
def yielded (s : Threads κ) : Option TaskId :=
  match s.loop with
  | .popping yielded => if (answer (s.ready.place none)).isSome then none else yielded
  | .running t true => some t
  | .yieldPoll t => some t
  | _ => none

/-- The ready list is one, and a task is in it, or held by one caller, or by the loop. -/
def Apart (s : Threads κ) : Prop :=
  ∃ l, s.ready.contents = some l ∧ LinkedList.Links s.ready.next some none s.ready.head l ∧ l.Nodup ∧
    (∀ c t, s.holding c = some t → t ∉ l ∧ s.inHand ≠ some t ∧ ∀ c', s.holding c' = some t → c' = c) ∧
    ∀ t, s.inHand = some t → t ∉ l

/-- No caller makes a task ready that the loop holds after a yield. -/
def Orderly (s : Threads κ) : Label κ → Prop
  | .caller k _ =>
    match s.calls (some k) with
    | some (.exchange t _) => s.yielded ≠ some t
    | _ => True
  | _ => True

/-- A wake-up of the task is on its way to a run. -/
def Waiting (s : Threads κ) (t : TaskId) (e : Error) : Prop :=
  (∃ c, s.calls c = some (.setError t e)) ∨
  s.error t = e ∧ ((∃ c u, s.calls c = some (.push u) ∧ s.holding c = some t) ∨
    (∃ l, s.ready.contents = some l ∧ t ∈ l) ∨
    (∃ y, s.loop = .popping y ∧ answer (s.ready.place none) = some t) ∨ s.loop = .passing t)

/-- The errors with which a task was scheduled, and those with which it was run. -/
def scheduledWith (log : List Wake) (t : TaskId) : List Error :=
  log.filterMap fun
    | .scheduled u e => if u = t then some e else none
    | _ => none

def takenWith (log : List Wake) (t : TaskId) : List Error :=
  log.filterMap fun
    | .taken u e => if u = t then some e else none
    | _ => none

end Threads
end Jinx.Sched
