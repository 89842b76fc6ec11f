import Jinx.Sched.TaskQueue

/-! `Wait` of `async/pausable.hpp`: a queue of branches inside an awaitable.

    The model is one activation of a `Wait`, from its construction to its finalizer, with the
    branches that are attached to it; a task object that `init` prepares anew is a new branch. Its
    `TaskQueue::run` is cut as that of `Loop` is: `WaitLoc.body` is inside `task->run()`,
    `WaitLoc.yieldPoll` inside the poll after a branch has yielded, and `WaitLoc.outside` is
    everywhere else, also in the awaiter. `OwnerAt` says how far the task that awaits the `Wait` is.

    `_tasks_ready` and `_tasks_done` are `LinkedListThreadSafe`s, that is stacks, and both use the
    link `_next` of the task. Of `_tasks_all` only the members and the size are kept; they come
    apart when a branch is cancelled, since `Wait::cancel` leaves it to the parent's
    `TaskQueue::cancel`, which counts the removal for the parent. -/

namespace Jinx.Sched

/-- `enum WaitCondition`. -/
inductive WaitCondition where
  | allCompleted
  | firstCompleted
  | firstException
  deriving DecidableEq, Repr

/-- What `_top` of a branch points to: a frame, the task itself (every frame is finalized), or
    nothing (the task has exited). -/
inductive Top where
  | frame
  | task
  | null
  deriving DecidableEq, Repr

/-- A `Tagged` task; `taskQueue` says that `_task_queue` is the `Wait`. -/
structure Branch (τ : Type*) where
  tag : τ
  state : ControlState := .suspended
  taskQueue : Bool := false
  error : Error := {}
  top : Top := .frame

/-- The task that awaits the `Wait`: not in it, suspended in it, in it and in the ready list of its
    own queue, or done with it. -/
inductive OwnerAt where
  | elsewhere
  | suspended
  | scheduled
  | finalized
  deriving DecidableEq, Repr

inductive WaitLoc where
  | outside
  | body
  | yieldPoll (t : TaskId)
  | aborted (a : Abort)
  /-- a null pointer was followed -/
  | crashed
  deriving DecidableEq, Repr

inductive WaitEvent (τ : Type*) where
  /-- the branch exits while it is attached -/
  | exited (t : TaskId) (tag : τ) (e : Error)
  /-- `for_each` calls its argument -/
  | reported (t : TaskId) (tag : τ) (e : Error)
  /-- the awaiter gets control back, while these branches are attached -/
  | returned (c : WaitCondition) (attached : List TaskId)

/-- A `Wait` and its branches; the log has the latest event first. -/
structure Wait (τ : Type*) where
  branch : TaskId → Branch τ
  condition : WaitCondition
  tasksAll : List TaskId := []
  size : Nat := 0
  next : TaskId → Option TaskId := fun _ => none
  tasksReady : Option TaskId := none
  tasksDone : Option TaskId := none
  doneSize : Nat := 0
  runningTask : Option TaskId := none
  started : Bool := false
  paused : Bool := false
  owner : OwnerAt := .elsewhere
  loc : WaitLoc := .outside
  log : List (WaitEvent τ) := []

namespace Wait

variable {τ : Type*}

/-- Change the record of one branch. -/
def modify (s : Wait τ) (u : TaskId) (f : Branch τ → Branch τ) : Wait τ :=
  { s with branch := Function.update s.branch u (f (s.branch u)) }

def emit (s : Wait τ) (e : WaitEvent τ) : Wait τ := { s with log := e :: s.log }

/-! ### The lists -/

/-- `_tasks_ready.push`. -/
def pushReady (s : Wait τ) (u : TaskId) : Wait τ :=
  { s with next := Function.update s.next u s.tasksReady, tasksReady := some u }

/-- `_tasks_done.push`. -/
def pushDone (s : Wait τ) (u : TaskId) : Wait τ :=
  { s with
    next := Function.update s.next u s.tasksDone
    tasksDone := some u
    doneSize := s.doneSize + 1 }

/-- `TaskQueue::push`: the pointer is set before the list can refuse the node. -/
def push (s : Wait τ) (u : TaskId) : Wait τ × ResultGeneric :=
  let s := s.modify u fun x => { x with taskQueue := true }
  if u ∈ s.tasksAll then (s, .failed)
  else ({ s with tasksAll := u :: s.tasksAll, size := s.size + 1 }, .successful)

/-- `TaskQueue::pop`, of the `Wait` or of its parent: the size that goes down is that of the queue
    it is called on. -/
def pop (s : Wait τ) (u : TaskId) (parent : Bool) : Wait τ × ResultGeneric :=
  if u ∈ s.tasksAll then
    let s := s.modify u fun x => { x with taskQueue := false }
    ({ s with tasksAll := s.tasksAll.erase u, size := if parent then s.size else s.size - 1 },
      .successful)
  else (s, .failed)

/-! ### Scheduling -/

/-- `Task::resume` of the owner, as far as the `Wait` is concerned. -/
def resumeOwner (s : Wait τ) : Wait τ :=
  if s.owner = .suspended then { s with owner := .scheduled } else s

/-- `Wait::schedule`; without an owner `async_resume` fails. -/
def schedule (s : Wait τ) (u : TaskId) (e : Error) : Wait τ :=
  let state := (s.branch u).state
  if state = .ready then s
  else if state = .exited then s
  else
    let s := (s.modify u fun x => { x with state := .ready, error := e }).pushReady u
    if s.started then s.resumeOwner else s

/-- `branch_new` and `branch_create`, that is `TaskQueue::spawn` of the `Wait`. -/
def branchCreate (s : Wait τ) (u : TaskId) : Wait τ :=
  match s.push u with
  | (s, .failed) => s
  | (s, .successful) => s.schedule u {}

/-- `Task::resume` of a branch. -/
def resume (s : Wait τ) (u : TaskId) (e : Error) : Wait τ :=
  if (s.branch u).taskQueue then s.schedule u e else s

/-- `TaskQueue::cancel`, of the `Wait` or of its parent. -/
def cancelAt (s : Wait τ) (u : TaskId) (parent : Bool) : Wait τ :=
  let s := s.modify u fun x => { x with top := if x.top = .frame then .task else x.top }
  if (s.branch u).state = .ready then s.modify u fun x => { x with error := {} }
  else ((s.modify u fun x => { x with state := .exited }).pop u parent).1

/-- `async_cancel` of a branch. `Wait::cancel` follows `_task`, which a `Wait` that was never awaited
    does not have. -/
def cancel (s : Wait τ) (u : TaskId) : Wait τ :=
  if !(s.branch u).taskQueue then s
  else if s.runningTask = some u then s
  else if s.started then s.cancelAt u true
  else { s with loc := .crashed }

/-! ### `for_each` -/

/-- One turn of the loop. -/
def report (s : Wait τ) : Option (Wait τ) :=
  s.tasksDone.map fun u =>
    { s with tasksDone := s.next u, doneSize := s.doneSize - 1 }.emit
      (.reported u (s.branch u).tag (s.branch u).error)

/-- `for_each`, for `n` turns at most. -/
def forEach (s : Wait τ) : Nat → Wait τ
  | 0 => s
  | n + 1 =>
    match s.report with
    | none => s
    | some s => s.forEach n

/-! ### `task_queue_run`, from one interruption to the next -/

/-- `should_suspend` is still set when the loop ends. -/
def suspend (s : Wait τ) : Wait τ := { s with loc := .outside, owner := .suspended }

/-- `async_pause`: the awaiter goes on. -/
def pause (s : Wait τ) : Wait τ :=
  { s with loc := .outside, owner := .elsewhere, paused := true }.emit
    (.returned s.condition s.tasksAll)

/-- The head of the inner loop's body, up to the call of `task->run()`. -/
def startRun (s : Wait τ) (u : TaskId) : Wait τ :=
  let s := { s with runningTask := some u }
  if (s.branch u).top = .null then { s with loc := .crashed } else { s with loc := .body }

/-- `task = _tasks_ready.pop()` and the test of the inner loop; `on_idle` ends the outer loop. -/
def nextTask (s : Wait τ) : Wait τ :=
  match s.tasksReady with
  | none => s.suspend
  | some u => { s with tasksReady := s.next u }.startRun u

/-- The rest of `on_task_exit`: whether `run` returns. -/
def testCondition (s : Wait τ) (u : TaskId) : Wait τ :=
  if s.condition = .firstException ∧ (s.branch u).error.isSet then s.pause
  else if s.condition = .firstCompleted then s.pause
  else if s.size = 0 then s.pause
  else s.nextTask

/-- `on_task_exit` puts the branch it has popped in `_tasks_done`. -/
def onTaskExit (s : Wait τ) (u : TaskId) : Wait τ :=
  match s.pop u false with
  | (s, .failed) => { s with loc := .aborted .notAttached }
  | (s, .successful) => (s.pushDone u).testCondition u

/-- The exit of a branch is seen if it is attached. -/
def noteExit (s : Wait τ) (u : TaskId) : Wait τ :=
  if u ∈ s.tasksAll then s.emit (.exited u (s.branch u).tag (s.branch u).error) else s

/-- `task->run()` has returned `st`; an error that reached the task's own frame was stored in its
    `_error` by then. -/
def finished (s : Wait τ) (u : TaskId) (st : ControlState) (raised : Option Error) : Wait τ :=
  let s := { s with runningTask := none }
  let s := s.modify u fun x =>
    { x with
      state := st
      error := raised.getD x.error
      top := if st = .exited then .null else x.top }
  if st = .exited then (s.noteExit u).onTaskExit u
  else if st = .yield then { s with loc := .yieldPoll u }
  else s.nextTask

/-- The poll made after `u` has yielded returns. -/
def afterYield (s : Wait τ) (u : TaskId) : Wait τ :=
  match s.tasksReady with
  | none => s.startRun u
  | some next => ({ s with tasksReady := s.next next }.schedule u {}).startRun next

/-- `task_queue_run`: `TaskQueue::run` tests `empty` first. -/
def taskQueueRun (s : Wait τ) : Wait τ := if s.size = 0 then s.suspend else s.nextTask

/-- `TaskQueue::exit`. -/
def exit (s : Wait τ) : Wait τ :=
  if s.runningTask.isSome then { s with loc := .aborted .exitFromRunningTask }
  else
    let s := s.tasksAll.foldl (fun s u => s.cancelAt u false) s
    let s := { s with tasksReady := none }
    s.tasksAll.foldl (fun s u => (s.pop u false).1) s

/-- `Wait::async_finalize`. -/
def asyncFinalize (s : Wait τ) : Wait τ :=
  let s := s.exit
  let s := s.forEach s.doneSize
  { s with started := false, owner := .finalized }

/-- `Wait::async_poll`. A paused `Wait` whose `_prev` is its new `_caller` is polled because its
    awaiter is done; it returns, and its own `run` finalizes it. -/
def asyncPoll (s : Wait τ) (reentry : Bool) : Wait τ :=
  if !s.paused then s.taskQueueRun
  else if reentry then { s with paused := false }.taskQueueRun
  else s.asyncFinalize

end Wait

/-- What can happen to a `Wait`. -/
inductive WaitOp where
  | branchCreate (u : TaskId)
  | resume (u : TaskId) (e : Error)
  | cancel (u : TaskId)
  | setCondition (c : WaitCondition)
  | report
  /-- the owner awaits the `Wait` -/
  | await
  /-- the owner is resumed by somebody else -/
  | resumeOwner
  /-- the owner is run while its top frame is the `Wait` -/
  | run
  /-- `task->run()` of the running branch returns -/
  | finished (st : ControlState) (raised : Option Error)
  /-- the event engine's `poll()` returns -/
  | polled
  /-- the awaiter is done while the `Wait` is paused, and the `Wait` is polled for the last time -/
  | awaiterDone
  /-- the owner is cancelled, or an error passes through the `Wait` -/
  | finalize
  deriving DecidableEq, Repr

namespace Wait

variable {τ : Type*}

/-- User code has control: that of a branch, of the owner, of other tasks, or of callbacks. -/
def userCode (s : Wait τ) : Bool :=
  match s.loc with
  | .outside => true
  | .body => true
  | .yieldPoll _ => true
  | _ => false

/-- One step; `none` where the label cannot happen. -/
def step (s : Wait τ) : WaitOp → Option (Wait τ)
  | .branchCreate u => if s.userCode then some (s.branchCreate u) else none
  | .resume u e => if s.userCode then some (s.resume u e) else none
  | .cancel u => if s.userCode then some (s.cancel u) else none
  | .setCondition c => if s.userCode then some { s with condition := c } else none
  | .report => if s.userCode then s.report else none
  | .await =>
    if s.loc = .outside ∧ s.owner = .elsewhere then
      some ({ s with started := true }.asyncPoll true)
    else none
  | .resumeOwner => if s.userCode then some s.resumeOwner else none
  | .run =>
    if s.loc = .outside ∧ s.owner = .scheduled then some (s.asyncPoll true) else none
  | .finished st raised =>
    match s.loc, s.runningTask with
    | .body, some u =>
      if (st = .suspended ∨ st = .yield ∨ st = .raise ∨ st = .exited) ∧
          ((s.branch u).top = .task → st = .exited) then
        some (s.finished u st raised)
      else none
    | _, _ => none
  | .polled =>
    match s.loc with
    | .yieldPoll u => some (s.afterYield u)
    | _ => none
  | .awaiterDone =>
    if s.loc = .outside ∧ s.owner = .elsewhere ∧ s.paused then some (s.asyncPoll false) else none
  | .finalize =>
    if s.loc = .outside ∧ s.owner ≠ .finalized ∧ s.started then some s.asyncFinalize else none

/-- Runs of a `Wait`. -/
abbrev exec : Wait τ → List WaitOp → Option (Wait τ) := Runs.exec step

/-- A `Wait` that was just initialized. -/
def init (c : WaitCondition) (tag : TaskId → τ) : Wait τ :=
  { branch := fun u => { tag := tag u }, condition := c }

end Wait

end Jinx.Sched
