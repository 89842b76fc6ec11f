import Jinx.ControlState
import Jinx.Lib.Runs

/-! `TaskQueue` and `Loop` of `async/task.hpp`: the scheduler.

    `TaskQueue::run` is cut at the places where other code gets control: inside `task->run()`
    (`Loc.body`), inside the idle poll of `Loop::run` (`Loc.idlePoll`), inside the poll made after
    a task has yielded (`Loc.yieldPoll`, the run loop holds the task meanwhile), and outside `run`
    (`Loc.outside`, also the user's error handler, after which `run` returns). At each of them the
    public operations may be called; `Op` has one label for each, and one for each way control
    goes back to the run loop.

    A task's call stack is the list of its activations from `_top` along `_caller`, the task
    itself left out. Activations are numbered in the order in which the task pushes them, so an
    awaitable that is used again is a new frame. A task object that `init` prepares anew is a new
    task. `_tasks_ready` is the LIFO list that `LinkedListThreadSafe` is. -/

namespace Jinx.Sched

abbrev TaskId := Nat
abbrev Frame := Nat

/-- The scheduling half of `Task`. A fresh task has its entry, frame `0`, on the stack. -/
structure Task where
  state : ControlState := .suspended
  taskQueue : Bool := false
  error : Error := {}
  stack : List Frame := [0]
  nextFrame : Frame := 1

/-- What the log records: membership of `_tasks_all`, callbacks of frames and their finalizers. -/
inductive Event where
  | pushed (t : TaskId)
  | popped (t : TaskId)
  | callback (t : TaskId) (f : Frame) (handler : Bool)
  | finalized (t : TaskId) (f : Frame)
  deriving DecidableEq, Repr

/-- The two `error::error` calls of the scheduler. -/
inductive Abort where
  | exitFromRunningTask
  | notAttached
  deriving DecidableEq, Repr

/-- Where control is, see above. -/
inductive Loc where
  | outside
  | body
  | idlePoll
  | yieldPoll (t : TaskId)
  | aborted (a : Abort)
  deriving DecidableEq, Repr

/-- `Loop` with its `TaskQueue` base, and every task there is. -/
structure Loop where
  task : TaskId → Task := fun _ => {}
  tasksAll : List TaskId := []
  tasksReady : List TaskId := []
  runningTask : Option TaskId := none
  loc : Loc := .outside
  log : List Event := []

namespace Loop

/-- Change the record of one task. -/
def modify (s : Loop) (u : TaskId) (f : Task → Task) : Loop :=
  { s with task := fun v => if v = u then f (s.task v) else s.task v }

/-! ### The member functions of `TaskQueue` -/

/-- `TaskQueue::schedule` (`Loop::schedule` only adds the wake-up of the event engine). -/
def schedule (s : Loop) (u : TaskId) (e : Error) : Loop × ResultGeneric :=
  let state := (s.task u).state
  if state = .ready then (s, .failed)
  else if state = .exited then (s, .failed)
  else
    let s := s.modify u fun x => { x with state := .ready, error := e }
    ({ s with tasksReady := u :: s.tasksReady }, .successful)

/-- `TaskQueue::push`: the pointer is set before the list can refuse the node. -/
def push (s : Loop) (u : TaskId) : Loop × ResultGeneric :=
  let s := s.modify u fun x => { x with taskQueue := true }
  if u ∈ s.tasksAll then (s, .failed)
  else ({ s with tasksAll := u :: s.tasksAll, log := s.log ++ [.pushed u] }, .successful)

/-- `TaskQueue::pop`. -/
def pop (s : Loop) (u : TaskId) : Loop × ResultGeneric :=
  if u ∈ s.tasksAll then
    let s := s.modify u fun x => { x with taskQueue := false }
    ({ s with tasksAll := s.tasksAll.erase u, log := s.log ++ [.popped u] }, .successful)
  else (s, .failed)

/-- `TaskQueue::spawn`. -/
def spawn (s : Loop) (u : TaskId) : Loop × ResultGeneric :=
  match s.push u with
  | (s, .failed) => (s, .failed)
  | (s, .successful) => s.schedule u {}

/-- `Task::resume`. -/
def resume (s : Loop) (u : TaskId) (e : Error) : Loop × ResultGeneric :=
  if (s.task u).taskQueue then s.schedule u e else (s, .failed)

/-- The `while` loop of `cancel`: every frame is finalized, from the top down. -/
def unwind (s : Loop) (u : TaskId) : Loop :=
  let frames := (s.task u).stack
  let s := s.modify u fun x => { x with stack := [] }
  { s with log := s.log ++ frames.map (.finalized u) }

/-- `TaskQueue::cancel`. -/
def cancel (s : Loop) (u : TaskId) : Loop × ErrorCancel :=
  if s.runningTask = some u then (s, .cancelRunningTask)
  else
    let s := s.unwind u
    if (s.task u).state = .ready then
      (s.modify u fun x => { x with error := {} }, .deferredDequeue)
    else
      let s := s.modify u fun x => { x with state := .exited }
      ((s.pop u).1, .noError)

/-- `TaskQueue::exit`: cancel every task, drain `_tasks_ready`, pop what is still attached. -/
def exit (s : Loop) : Loop :=
  if s.runningTask.isSome then { s with loc := .aborted .exitFromRunningTask }
  else
    let s := s.tasksAll.foldl (fun s u => (s.cancel u).1) s
    let s := { s with tasksReady := [] }
    s.tasksAll.foldl (fun s u => (s.pop u).1) s

/-! ### `TaskQueue::run`, from one interruption to the next -/

/-- The head of the inner loop's body, up to the call of `task->run()`. -/
def startRun (s : Loop) (u : TaskId) : Loop := { s with runningTask := some u, loc := .body }

/-- `task = _tasks_ready.pop()` and the test of the inner loop; without a task `on_idle` polls. -/
def nextTask (s : Loop) : Loop :=
  match s.tasksReady with
  | [] => { s with loc := .idlePoll }
  | u :: rest => { s with tasksReady := rest }.startRun u

/-- The head of the outer loop. -/
def loopHead (s : Loop) : Loop :=
  if s.tasksAll.isEmpty then { s with loc := .outside } else s.nextTask

/-- `on_task_exit` of `Loop::run`. After an error `run` returns, by `return true` or by the
    exception that `unhandled_error` throws; `ExitLoop` then calls `exit`. -/
def onTaskExit (s : Loop) (u : TaskId) : Loop :=
  match s.pop u with
  | (s, .failed) => { s with loc := .aborted .notAttached }
  | (s, .successful) =>
    if (s.task u).error.isSet then
      let s := { s with loc := .outside }
      if (s.task u).error = makeError .exitLoop then s.exit else s
    else s.nextTask

/-- `task->run()` has returned `st`. An error that reached the task's own frame was stored in its
    `_error` by then. -/
def finished (s : Loop) (u : TaskId) (st : ControlState) (raised : Option Error) : Loop :=
  let s := { s with runningTask := none }
  let s := s.modify u fun x => { x with state := st, error := raised.getD x.error }
  if st = .exited then s.onTaskExit u
  else if st = .yield then { s with loc := .yieldPoll u }
  else s.nextTask

/-- The poll made after `u` has yielded returns. Without a ready task the loop goes on with `u`,
    and `u` keeps the state word it has. -/
def afterYield (s : Loop) (u : TaskId) : Loop :=
  match s.tasksReady with
  | [] => s.startRun u
  | next :: rest => (({ s with tasksReady := rest }.schedule u {}).1).startRun next

end Loop

/-- One label for each public operation and for each way control moves. -/
inductive Op where
  | spawn (u : TaskId)
  | resume (u : TaskId) (e : Error)
  | cancel (u : TaskId)
  | exit
  /-- `Loop::run` is called -/
  | run
  /-- the running task awaits a callee, polls its top frame or calls its `handle_error`,
      finalizes its top frame, or moves frames of its stack (pausables) -/
  | call
  | callback (handler : Bool)
  | finalize
  | reorder (frames : List Frame)
  /-- `task->run()` returns; `raised` is the error that reached the task's own frame -/
  | finished (st : ControlState) (raised : Option Error)
  /-- the event engine's `poll()` returns -/
  | polled
  deriving DecidableEq, Repr

namespace Loop

/-- User code has control. A running task whose stack is empty only has its own frame left, and
    that one runs no user code. -/
def userCode (s : Loop) : Bool :=
  match s.loc, s.runningTask with
  | .outside, _ => true
  | .idlePoll, _ => true
  | .yieldPoll _, _ => true
  | .body, some t => !(s.task t).stack.isEmpty
  | _, _ => false

/-- A step of the running task inside its own `run()`. -/
def bodyStep (s : Loop) (t : TaskId) : Op → Option Loop
  | .call =>
    match (s.task t).stack with
    | [] => none
    | stack => some (s.modify t fun x =>
        { x with stack := x.nextFrame :: stack, nextFrame := x.nextFrame + 1 })
  | .callback handler =>
    match (s.task t).stack with
    | [] => none
    | f :: _ => some { s with log := s.log ++ [.callback t f handler] }
  | .finalize =>
    match (s.task t).stack with
    | [] => none
    | f :: rest =>
      let s := s.modify t fun x => { x with stack := rest }
      some { s with log := s.log ++ [.finalized t f] }
  | .reorder frames =>
    if frames ≠ [] ∧ frames.Perm (s.task t).stack
    then some (s.modify t fun x => { x with stack := frames })
    else none
  | .finished st raised =>
    if (st = .exited ↔ (s.task t).stack = []) ∧
        (st = .suspended ∨ st = .yield ∨ st = .raise ∨ st = .exited)
    then some (s.finished t st raised) else none
  | _ => none

/-- One step of the loop; `none` where the label cannot happen. -/
def step (s : Loop) : Op → Option Loop
  | .spawn u => if s.userCode then some (s.spawn u).1 else none
  | .resume u e => if s.userCode then some (s.resume u e).1 else none
  | .cancel u => if s.userCode then some (s.cancel u).1 else none
  | .exit => if s.userCode then some s.exit else none
  | .run => if s.loc = .outside then some s.loopHead else none
  | .polled =>
    match s.loc with
    | .idlePoll => some s.loopHead
    | .yieldPoll u => some (s.afterYield u)
    | _ => none
  | op =>
    match s.loc, s.runningTask with
    | .body, some t => s.bodyStep t op
    | _, _ => none

/-- Runs of the loop. -/
abbrev exec : Loop → List Op → Option Loop := Runs.exec step

/-- A loop that was just constructed, with tasks that were never spawned. -/
def init : Loop := {}

end Loop

end Jinx.Sched
