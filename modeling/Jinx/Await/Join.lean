import Jinx.Await.Machine
import Jinx.Sync.Pending

/-! `AsyncJoin` of `async/awaitable.ipp`, with `Task::add_hook` and `Task::remove_hook`.

    An `AsyncJoin` has a hook in it, an awaitable that is spliced between the target and its entry:
    from then on the entry hands its result to the hook, which wakes the joiner and gives the result
    on. Several hooks lie one below the other; the last one that was added is next to the task.

    Every target is a `Machine`. The hook of an `AsyncJoin` has the number of the `AsyncJoin` among
    the awaitables of the target, where its `_task`, `_caller` and `_error` are; `hook` says which
    numbers are hooks. Hooks are not observed, so they leave no events. Their `async_poll` and
    `handle_error` call no user code, and are run in one step. A target is an activation of a task,
    from `Task::init` to its exit, and a frame an activation of an awaitable: what is initialized
    again gets a new number. -/

namespace Jinx.Await

open Jinx.Sync (Stage)

/-- A task that is joined. -/
abbrev TargetId := Nat

/-- An `AsyncJoin`; `done`, `observer` and `next` belong to its hook, where `observer` says that the
    pointer `_observer` is not null. `target` stays when the finalizer resets `_target`. `wakes`
    counts how often the joiner was scheduled by the hook since it began to wait. -/
structure AsyncJoin where
  target : TargetId := 0
  done : Bool := false
  observer : Bool := false
  next : Ptr := .null
  stage : Stage := .idle
  wakes : Nat := 0
  deriving DecidableEq, Repr

/-- `Task::resume` of the joiner, by its hook. -/
def AsyncJoin.wake (a : AsyncJoin) : AsyncJoin :=
  { a with
    stage := a.stage.resume
    wakes := if a.stage = .suspended then a.wakes + 1 else a.wakes }

/-- The targets, and every `AsyncJoin`. -/
structure Joins where
  machine : TargetId → Machine
  join : ObjId → AsyncJoin := fun _ => {}

/-- What `Task::add_hook` does to the awaitables of the target. -/
def Machine.addHook (m : Machine) (j : ObjId) : Machine :=
  let entry := m.entry
  let m := m.set j fun o => { o with task := true, caller := .task }
  { m.setCaller entry (.obj j) with entry := .obj j }

namespace Joins

/-- Change the record of one `AsyncJoin`. -/
def modify (s : Joins) (j : ObjId) (f : AsyncJoin → AsyncJoin) : Joins :=
  { s with join := Function.update s.join j (f (s.join j)) }

def setMachine (s : Joins) (t : TargetId) (m : Machine) : Joins :=
  { s with machine := Function.update s.machine t m }

/-! ### `Task` -/

/-- `Task::add_hook`. -/
def addHook (s : Joins) (t : TargetId) (j : ObjId) : Joins :=
  (s.setMachine t ((s.machine t).addHook j)).modify j fun a => { a with next := (s.machine t).entry }

/-- `Task::remove_hook`. -/
def removeHook (s : Joins) (t : TargetId) (j : ObjId) : Joins :=
  let next := (s.join j).next
  let m := (s.machine t).setCaller next ((s.machine t).obj j).caller
  let s :=
    match (m.obj j).caller with
    | .null => s.setMachine t m.crash
    | .task => s.setMachine t { m with entry := next }
    | .obj p => (s.setMachine t m).modify p fun a => { a with next := next }
  s.modify j fun a => { a with next := .null }

/-! ### The hook -/

/-- `Join::resume`; a null observer is followed. -/
def resumeHook (s : Joins) (t : TargetId) (j : ObjId) : Joins :=
  let s := (s.modify j fun a => { a with done := true }).removeHook t j
  if (s.join j).observer then s.modify j fun a => { a.wake with observer := false }
  else s.setMachine t (s.machine t).crash

/-- `Join::async_finalize`, and the `_top` that was set before it. -/
def finalizeHook (s : Joins) (t : TargetId) (j : ObjId) (top : Ptr) : Joins :=
  let m := s.machine t
  (s.setMachine t { m.set j fun o => { o with task := false, error := {} } with top := top }).modify j
    fun a => { a with observer := false }

/-- `Awaitable::run` of the hook: `handle_error` raises the error again once it has woken the
    joiner, `async_poll` returns. -/
def runHook (s : Joins) (t : TargetId) (j : ObjId) : Joins :=
  let e := ((s.machine t).obj j).error
  let s := s.resumeHook t j
  let m := s.machine t
  let caller := (m.obj j).caller
  (s.setMachine t (if e.isSet then m.setError caller e else m)).finalizeHook t j caller

/-! ### `AsyncJoin` -/

/-- `AsyncJoin::async_poll`, with what its answer means for the joiner. -/
def asyncPoll (s : Joins) (j : ObjId) : Joins :=
  if (s.join j).done then s.modify j fun a => { a with stage := .returned }
  else
    let s := s.modify j fun a => { a with done := false, observer := true }
    (s.addHook (s.join j).target j).modify j fun a => { a with stage := .suspended }

/-- `AsyncJoin::operator()`, and the first poll. -/
def await (s : Joins) (j : ObjId) (t : TargetId) : Joins :=
  (s.modify j fun a => { a with target := t, wakes := 0 }).asyncPoll j

/-- `Task::resume` of the joiner, by somebody else. -/
def resume (s : Joins) (j : ObjId) : Joins := s.modify j fun a => { a with stage := a.stage.resume }

end Joins

/-- Other tasks have control, or code that the target calls. -/
def Machine.accessible (m : Machine) : Bool := m.userCode || m.ctl = .stopped

/-- The step is one of the target itself: it touches no hook, nor is one its `_top`. -/
def Machine.own (hook : ObjId → Bool) (m : Machine) : Label → Bool
  | .act (.call g) => !hook g
  | .start f => !hook f
  | .spawn r => !hook r
  | .tick =>
    match m.ctl, m.top with
    | .running, .obj j => !hook j
    | .cancelling, .obj j => !hook j
    | _, _ => true
  | _ => true

inductive JoinLabel where
  | target (t : TargetId) (l : Label)
  /-- the hook that is the `_top` of the target is run, or finalized by `TaskQueue::cancel` -/
  | hook (t : TargetId)
  /-- a task awaits an `AsyncJoin` -/
  | await (j : ObjId) (t : TargetId)
  | resume (j : ObjId)
  /-- the joiner is run -/
  | run (j : ObjId)
  /-- the joiner is cancelled -/
  | cancel (j : ObjId)
  deriving DecidableEq, Repr

namespace Joins

def step (hook : ObjId → Bool) (s : Joins) : JoinLabel → Option Joins
  | .target t l =>
    if (s.machine t).own hook l then ((s.machine t).step l).map (s.setMachine t) else none
  | .hook t =>
    match (s.machine t).ctl, (s.machine t).top with
    | .running, .obj j => if hook j then some (s.runHook t j) else none
    | .cancelling, .obj j =>
      if hook j then some (s.finalizeHook t j ((s.machine t).obj j).caller) else none
    | _, _ => none
  | .await j t =>
    if hook j ∧ ((s.join j).stage = .idle ∨ (s.join j).stage = .returned) ∧
        (s.machine t).accessible then
      some (s.await j t)
    else none
  | .resume j => some (s.resume j)
  | .run j =>
    if (s.join j).stage = .scheduled ∧ (s.machine (s.join j).target).accessible then
      some (s.asyncPoll j)
    else none
  | .cancel j =>
    if (s.join j).stage = .suspended ∨ (s.join j).stage = .scheduled then
      some (s.modify j fun a => { a with stage := .idle })
    else none

/-- Runs of the targets and of those who join them. -/
abbrev exec (hook : ObjId → Bool) : Joins → List JoinLabel → Option Joins := Runs.exec (step hook)

/-- Nobody has been joined; `pausable` says which awaitables of a target are pausable. -/
def init (pausable : TargetId → ObjId → Bool) : Joins := { machine := fun t => .init (pausable t) }

end Joins

end Jinx.Await
