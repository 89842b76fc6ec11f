import Jinx.Nodes
import Jinx.Sched.TaskQueue

/-! The queues of a program: the `Loop`, the `Wait`s, and which task is in which of them.

    A `Wait` is an awaitable of a task that is itself in a queue. Its `spawn`, `schedule` and
    `cancel` go on to that queue, by `_task->_task_queue`; `run`, `exit`, `push`, `pop` and the
    creation of branches are those of `TaskQueue`. The members of `_tasks_all` are kept pointer by
    pointer.

    A member function that calls another leaves a `Call` behind, so `calls` is the C++ stack as far
    as the queues are on it, and `tick` goes on with its top. While a frame is finalized its own
    `async_finalize` has control; those of the library do nothing to the queues but resume tasks.
    `runs` are the nested calls of `TaskQueue::run`. A null pointer that is followed, an `_end` that
    is taken for a task and the `error::error` calls end the run of the model. -/

namespace Jinx.Sched

abbrev WaitId := Nat

inductive QueueId where
  | loop
  | wait (w : WaitId)
  deriving DecidableEq, Repr

/-- What is on the stack of a task. -/
inductive StackFrame where
  | plain
  | wait (w : WaitId)
  deriving DecidableEq, Repr

/-- What the queues know of a `Task`; `frames` are those from `_top` down to its entry. -/
structure Member where
  taskQueue : Option QueueId := none
  state : ControlState := .suspended
  frames : List StackFrame := [.plain]

/-- A call of `TaskQueue::run` with its local `task`; `polling` inside the poll after a yield. -/
structure ActiveRun where
  queue : QueueId
  task : TaskId
  polling : Bool := false

/-- What is left to do of a member function. -/
inductive Call where
  /-- the virtual functions -/
  | spawn (q : QueueId) (t : TaskId)
  | schedule (q : QueueId) (t : TaskId)
  | cancel (q : QueueId) (t : TaskId)
  /-- `TaskQueue::cancel`, and the rest of it from its loop on -/
  | cancelTask (q : QueueId) (t : TaskId)
  | unwind (q : QueueId) (t : TaskId)
  /-- `async_finalize` of a frame, and the end of the one of a `Wait` -/
  | finalize (f : StackFrame)
  | finalized (w : WaitId)
  /-- `TaskQueue::exit`, and its loops from a task on -/
  | exit (q : QueueId)
  | cancelAll (q : QueueId) (p : Link TaskId QueueId)
  | popAll (q : QueueId) (p : Link TaskId QueueId)
  deriving DecidableEq, Repr

/-- All queues and all tasks; `owner` is `_task` of a `Wait`. -/
structure Queues where
  nodes : Nodes TaskId QueueId := {}
  member : TaskId → Member := fun _ => {}
  owner : WaitId → Option TaskId := fun _ => none
  tasksReady : QueueId → List TaskId := fun _ => []
  runningTask : QueueId → Option TaskId := fun _ => none
  runs : List ActiveRun := []
  calls : List Call := []

namespace Queues

/-- Change the record of one task. -/
def modify (s : Queues) (t : TaskId) (f : Member → Member) : Queues :=
  { s with member := Function.update s.member t (f (s.member t)) }

def call (s : Queues) (c : Call) : Queues := { s with calls := c :: s.calls }

/-- `_task->_task_queue` of a `Wait`, where both pointers can be followed. -/
def parent (s : Queues) (w : WaitId) : Option QueueId :=
  (s.owner w).bind fun o => (s.member o).taskQueue

/-! ### The member functions of `TaskQueue` -/

/-- `TaskQueue::push`: the pointer is set before the list can refuse the node. -/
def push (s : Queues) (q : QueueId) (t : TaskId) : Option (Queues × ResultGeneric) :=
  let s := s.modify t fun x => { x with taskQueue := some q }
  (s.nodes.pushFront q t).map fun x => ({ s with nodes := x.1 }, x.2)

/-- `TaskQueue::pop`. -/
def pop (s : Queues) (q : QueueId) (t : TaskId) : Option (Queues × ResultGeneric) :=
  (s.nodes.erase q t).map fun x =>
    let s := { s with nodes := x.1 }
    match x.2 with
    | .failed => (s, .failed)
    | .successful => (s.modify t fun x => { x with taskQueue := none }, .successful)

/-- `TaskQueue::schedule`. -/
def scheduleTask (s : Queues) (q : QueueId) (t : TaskId) : Queues × ResultGeneric :=
  let state := (s.member t).state
  if state = .ready then (s, .failed)
  else if state = .exited then (s, .failed)
  else
    let s := s.modify t fun x => { x with state := .ready }
    ({ s with tasksReady := Function.update s.tasksReady q (t :: s.tasksReady q) }, .successful)

/-- `TaskQueue::spawn`. -/
def spawnTask (s : Queues) (q : QueueId) (t : TaskId) : Option Queues :=
  (s.push q t).map fun x =>
    match x.2 with
    | .failed => x.1
    | .successful => x.1.call (.schedule q t)

/-- `Task::resume`. -/
def resume (s : Queues) (t : TaskId) : Queues :=
  match (s.member t).taskQueue with
  | none => s
  | some q => s.call (.schedule q t)

/-! ### One call -/

/-- `Loop::spawn` is the one of `TaskQueue`, `Wait::spawn` goes on to the parent. -/
def spawn (s : Queues) (t : TaskId) : QueueId → Option Queues
  | .loop => s.spawnTask .loop t
  | .wait w => (s.parent w).map fun q => s.call (.spawn q t)

/-- `Loop::schedule` wakes the event engine, `Wait::schedule` resumes the task that awaits. -/
def schedule (s : Queues) (t : TaskId) (q : QueueId) : Queues :=
  match s.scheduleTask q t, q with
  | (s, .failed), _ => s
  | (s, .successful), .loop => s
  | (s, .successful), .wait w =>
    match s.owner w with
    | none => s
    | some o => s.resume o

/-- `Loop::cancel` is the one of `TaskQueue`, `Wait::cancel` goes on to the parent. -/
def cancel (s : Queues) (t : TaskId) : QueueId → Option Queues
  | .loop => some (s.call (.cancelTask .loop t))
  | .wait w =>
    if s.runningTask (.wait w) = some t then some s
    else (s.parent w).map fun q => s.call (.cancel q t)

/-- The head of `TaskQueue::cancel`. -/
def cancelTask (s : Queues) (q : QueueId) (t : TaskId) : Queues :=
  if s.runningTask q = some t then s else s.call (.unwind q t)

/-- One turn of its loop, and what comes after the loop. -/
def unwind (s : Queues) (q : QueueId) (t : TaskId) : Option Queues :=
  match (s.member t).frames with
  | f :: frames =>
    some (((s.modify t fun x => { x with frames := frames }).call (.unwind q t)).call (.finalize f))
  | [] =>
    if (s.member t).state = .ready then some s
    else ((s.modify t fun x => { x with state := .exited }).pop q t).map Prod.fst

/-- `async_finalize`; that of a `Wait` calls `exit` and then the one of `Awaitable`. -/
def finalize (s : Queues) : StackFrame → Queues
  | .plain => s
  | .wait w => (s.call (.finalized w)).call (.exit (.wait w))

/-- `TaskQueue::exit` up to its first loop. -/
def exit (s : Queues) (q : QueueId) : Option Queues :=
  if (s.runningTask q).isSome then none else some (s.call (.cancelAll q (s.nodes.head q)))

/-- One turn of the first loop of `exit`, or what stands between the loops. -/
def cancelAll (s : Queues) (q : QueueId) : Link TaskId QueueId → Option Queues
  | .null => none
  | .node t => some ((s.call (.cancelAll q (s.nodes.next t))).call (.cancelTask q t))
  | .fin r =>
    if r = q then
      some ({ s with tasksReady := Function.update s.tasksReady q [] }.call (.popAll q (s.nodes.head q)))
    else none

/-- One turn of its second loop. -/
def popAll (s : Queues) (q : QueueId) : Link TaskId QueueId → Option Queues
  | .null => none
  | .node t => (s.pop q t).map fun x => x.1.call (.popAll q (s.nodes.next t))
  | .fin r => if r = q then some s else none

/-- Go on with the top of the stack. -/
def perform (s : Queues) : Call → Option Queues
  | .spawn q t => s.spawn t q
  | .schedule q t => some (s.schedule t q)
  | .cancel q t => s.cancel t q
  | .cancelTask q t => some (s.cancelTask q t)
  | .unwind q t => s.unwind q t
  | .finalize f => some (s.finalize f)
  | .finalized w => some { s with owner := Function.update s.owner w none }
  | .exit q => s.exit q
  | .cancelAll q p => s.cancelAll q p
  | .popAll q p => s.popAll q p

/-! ### `TaskQueue::run` -/

/-- The queue whose `run` can take its next task: the `Loop`, outside all tasks, and the `Wait` on
    top of the task that is run. -/
def canRun (s : Queues) : QueueId → Bool
  | .loop => s.runs.isEmpty
  | .wait w =>
    match s.runs with
    | [] => false
    | r :: _ => !r.polling && (s.member r.task).frames.head? = some (.wait w)

/-- `task = _tasks_ready.pop()` and the head of the inner loop. -/
def start (s : Queues) (q : QueueId) : Option Queues :=
  match s.tasksReady q with
  | [] => none
  | t :: ready =>
    some { s with
      tasksReady := Function.update s.tasksReady q ready
      runningTask := Function.update s.runningTask q (some t)
      runs := { queue := q, task := t } :: s.runs }

/-- `task->run()` has returned `st`. -/
def finished (s : Queues) (r : ActiveRun) (runs : List ActiveRun) (st : ControlState) :
    Option Queues :=
  let s := { s with runningTask := Function.update s.runningTask r.queue none, runs := runs }
  let s := s.modify r.task fun x => { x with state := st }
  if st = .exited then
    match s.pop r.queue r.task with
    | some (s, .successful) => some s
    | _ => none
  else if st = .yield then some { s with runs := { r with polling := true } :: runs }
  else some s

/-- The poll made after a task has yielded returns. -/
def afterYield (s : Queues) (r : ActiveRun) (runs : List ActiveRun) : Queues :=
  match s.tasksReady r.queue with
  | [] =>
    { s with
      runningTask := Function.update s.runningTask r.queue (some r.task)
      runs := { r with polling := false } :: runs }
  | next :: ready =>
    { s with
      tasksReady := Function.update s.tasksReady r.queue ready
      runningTask := Function.update s.runningTask r.queue (some next)
      runs := { queue := r.queue, task := next } :: runs }.call (.schedule r.queue r.task)

end Queues

/-- What can happen. -/
inductive QueueOp where
  /-- the member function on top of the stack goes on -/
  | tick
  /-- a task object is prepared for a new use -/
  | init (t : TaskId)
  /-- `Loop::spawn`; `Loop::task_new` is `init` before it -/
  | spawn (t : TaskId)
  /-- `task_create` in an awaitable of the task `o`; `task_new` is `init` before it -/
  | taskCreate (o t : TaskId)
  /-- `Wait::branch_create`; `branch_new` is `init` before it -/
  | branchCreate (w : WaitId) (t : TaskId)
  | resume (t : TaskId)
  /-- `async_cancel` -/
  | cancel (t : TaskId)
  /-- `exit` of the `Loop` -/
  | exit
  /-- `run` of a queue takes its next task -/
  | start (q : QueueId)
  /-- the innermost task that is run awaits a callee or a `Wait`, finalizes its top frame, or moves
      frames of its stack (pausables) -/
  | call
  | await (w : WaitId)
  | finalize
  | reorder (frames : List StackFrame)
  /-- its `task->run()` returns -/
  | finished (st : ControlState)
  /-- the poll after a yield returns -/
  | polled
  deriving DecidableEq, Repr

namespace Queues

/-- A step of the task that is run, inside its `run()`. -/
def bodyStep (s : Queues) (r : ActiveRun) (runs : List ActiveRun) : QueueOp → Option Queues
  | .call =>
    match (s.member r.task).frames with
    | [] => none
    | frames => some (s.modify r.task fun x => { x with frames := .plain :: frames })
  | .await w =>
    match (s.member r.task).frames with
    | [] => none
    | frames =>
      some ({ s with owner := Function.update s.owner w (some r.task) }.modify r.task fun x =>
        { x with frames := .wait w :: frames })
  | .finalize =>
    match (s.member r.task).frames with
    | [] => none
    | f :: frames => some ((s.modify r.task fun x => { x with frames := frames }).call (.finalize f))
  | .reorder frames =>
    if frames ≠ [] ∧ frames.Perm (s.member r.task).frames then
      some (s.modify r.task fun x => { x with frames := frames })
    else none
  | .finished st =>
    if (st = .exited ↔ (s.member r.task).frames = []) ∧
        (st = .suspended ∨ st = .yield ∨ st = .raise ∨ st = .exited)
    then s.finished r runs st else none
  | _ => none

/-- A step of the innermost `TaskQueue::run`. -/
def runStep (s : Queues) (op : QueueOp) : Option Queues :=
  match s.runs with
  | [] => none
  | r :: runs =>
    if r.polling then
      if op = .polled then some (s.afterYield r runs) else none
    else s.bodyStep r runs op

/-- A step where no member function is on the stack. -/
def userStep (s : Queues) : QueueOp → Option Queues
  | .init t => if (s.member t).taskQueue = none then some (s.modify t fun _ => {}) else none
  | .spawn t => some (s.call (.spawn .loop t))
  | .taskCreate o t => (s.member o).taskQueue.map fun q => s.call (.spawn q t)
  | .branchCreate w t => s.spawnTask (.wait w) t
  | .cancel t =>
    match (s.member t).taskQueue with
    | none => some s
    | some q => some (s.call (.cancel q t))
  | .exit => some (s.call (.exit .loop))
  | .start q => if s.canRun q then s.start q else none
  | op => s.runStep op

/-- One step; `none` where the label cannot happen. -/
def step (s : Queues) : QueueOp → Option Queues
  | .tick =>
    match s.calls with
    | [] => none
    | c :: calls => { s with calls := calls }.perform c
  | .resume t =>
    match s.calls with
    | [] => some (s.resume t)
    | .finalize .plain :: _ => some (s.resume t)
    | _ => none
  | op =>
    match s.calls with
    | [] => s.userStep op
    | _ => none

/-- Runs of a program. -/
abbrev exec : Queues → List QueueOp → Option Queues := Runs.exec step

/-- Tasks that were never spawned, and no queue has a task. -/
def init : Queues := {}

end Queues

end Jinx.Sched
