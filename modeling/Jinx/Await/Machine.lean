import Jinx.ControlState
import Jinx.Lib.Runs
import Mathlib.Data.List.Infix

/-! `Awaitable::run`, `Task::run` and the pausable awaitables, for one task object.

    An awaitable is an object with a number. The pointers `_caller`, `_prev`, `_top` and the entry
    that `Task` keeps in its own `_caller` are `Ptr`s. The activations of `Awaitable::run` that are
    nested on the C++ stack are `stack`, the innermost first; `Task::run` is at its bottom and is
    left out. `ctl` says where control is: in user code (`polling`, `handling`), outside `Task::run`
    (`stopped`), or at a point inside the library, from which `tick` goes on.

    Every callback ends by one `Act`: awaiting is a tail call, as in `return async_await(...)`. All
    awaitables are `MixinRoutine`s; the pausable ones are `MixinPausable`s, and their finalizer is the
    one of `MixinRoutine` (or of `Wait`), which leaves `_prev` alone. Following a null pointer ends
    in `crashed`. -/

namespace Jinx.Await

abbrev ObjId := Nat

/-- An `Awaitable*`. -/
inductive Ptr where
  | null
  | task
  | obj (i : ObjId)
  deriving DecidableEq, Repr

/-- The callback that `MixinRoutine::_run` is bound to. -/
inductive Routine where
  | start
  | later
  | uninitialized
  deriving DecidableEq, Repr

/-- The data members of an awaitable. There is one task, so `_task` is set or null. -/
structure Obj where
  task : Bool := false
  caller : Ptr := .null
  error : Error := {}
  pausable : Bool := false
  prev : Ptr := .null
  routine : Routine := .start

/-- `AwaitablePausable::is_paused`, false for an awaitable that is not pausable. -/
def Obj.isPaused (o : Obj) : Bool := o.pausable && o.prev != .null

/-- One activation of `Awaitable::run`; `handling` is its local `error` while it is in the branch
    that calls `handle_error`. -/
structure Activation where
  self : ObjId
  handling : Option Error := none

/-- Where control is. -/
inductive Ctl where
  /-- outside `Task::run` -/
  | stopped
  /-- `Task::run` is about to call `_top->run()` -/
  | running
  /-- the head of the loop in the innermost `Awaitable::run` -/
  | entering
  /-- the user's callback of the innermost activation -/
  | polling
  /-- the user's `handle_error` of the innermost activation -/
  | handling
  /-- the loop of `swap_awaitable`, with its local `caller` -/
  | walking (caller : Ptr)
  /-- the callback or `handle_error` of the innermost activation has returned -/
  | returned (st : ControlState)
  /-- the loop of `TaskQueue::cancel` -/
  | cancelling
  /-- a null pointer was followed -/
  | crashed
  deriving DecidableEq, Repr

/-- What is observed of a run. -/
inductive Event where
  /-- `async_call`, or `Task::init` for the entry -/
  | called (caller : Ptr) (callee : ObjId)
  | polled (f : ObjId) (r : Routine)
  | handled (f : ObjId) (e : Error)
  /-- `async_suspend` and `async_yield` -/
  | waited (f : ObjId)
  /-- `handle_error` gave the error on to the caller -/
  | raised (f : ObjId) (e : Error)
  | paused (f : ObjId)
  /-- `swap_awaitable` is done -/
  | reentered (f : ObjId)
  | finalized (f : ObjId)
  /-- the task exits with this `_error` -/
  | exited (e : Error)
  deriving DecidableEq, Repr

/-- The task, its awaitables and the C++ stack. `log` has the latest event first. -/
structure Machine where
  obj : ObjId → Obj
  entry : Ptr := .null
  taskError : Error := {}
  state : ControlState := .suspended
  top : Ptr := .null
  stack : List Activation := []
  ctl : Ctl := .stopped
  log : List Event := []

namespace Machine

/-! ### Members of `Awaitable` -/

def set (s : Machine) (i : ObjId) (g : Obj → Obj) : Machine :=
  { s with obj := fun j => if j = i then g (s.obj j) else s.obj j }

def emit (s : Machine) (e : Event) : Machine := { s with log := e :: s.log }

def crash (s : Machine) : Machine := { s with ctl := .crashed }

/-- `p->_caller`; following a null pointer is checked where it happens. -/
def next (s : Machine) : Ptr → Ptr
  | .null => .null
  | .task => s.entry
  | .obj i => (s.obj i).caller

/-- `p->_caller = q`. -/
def setCaller (s : Machine) (p q : Ptr) : Machine :=
  match p with
  | .null => s.crash
  | .task => { s with entry := q }
  | .obj i => s.set i fun o => { o with caller := q }

/-- `p->_error = e`. -/
def setError (s : Machine) (p : Ptr) (e : Error) : Machine :=
  match p with
  | .null => s.crash
  | .task => { s with taskError := e }
  | .obj i => s.set i fun o => { o with error := e }

/-- `MixinRoutine::async_finalize`, which calls `Awaitable::async_finalize`: neither touches
    `_prev`. -/
def finalize (s : Machine) (f : ObjId) : Machine :=
  (s.set f fun o => { o with task := false, error := {}, routine := .uninitialized }).emit
    (.finalized f)

/-- `Awaitable::async_call`, after `async_await` has bound the next callback of `f`. -/
def asyncCall (s : Machine) (f g : ObjId) : Machine :=
  let s := s.set f fun o => { o with routine := .later }
  let s := s.set g fun o => { o with caller := .obj f, task := (s.obj f).task }
  { s with stack := ⟨g, none⟩ :: s.stack, ctl := .entering }.emit (.called (.obj f) g)

/-- `Awaitable::async_return`. -/
def asyncReturn (s : Machine) (f : ObjId) : Machine :=
  if (s.obj f).task then { s with top := (s.obj f).caller, ctl := .returned .ready } else s.crash

/-- `Awaitable::async_suspend` and `Awaitable::async_yield`. -/
def asyncWait (s : Machine) (f : ObjId) (st : ControlState) : Machine :=
  if (s.obj f).task then { s with top := .obj f, ctl := .returned st }.emit (.waited f)
  else s.crash

/-- `Awaitable::async_throw`. -/
def asyncThrow (s : Machine) (f : ObjId) (e : Error) : Machine :=
  let s := if (s.obj f).task then { s with top := .obj f } else s
  let e := if e.value = 0 then makeError .invalidErrorCode else e
  { s.set f fun o => { o with error := e } with ctl := .returned .raise }

/-- The `catch` block of `Awaitable::run`. -/
def catchException (s : Machine) (f : ObjId) : Machine :=
  if (s.obj f).task then
    { s.set f fun o => { o with error := makeError .cxxException } with ctl := .returned .raise }
  else s.crash

/-- `AwaitablePausable::async_pause`. -/
def asyncPause (s : Machine) (f : ObjId) : Machine :=
  let c := (s.obj f).caller
  let prev := s.next c
  if c = .null then s.crash
  else if (s.obj f).task then
    let s := (s.set f fun o => { o with prev := prev }).setCaller c (.obj f)
    let s := { s with top := c }.set f fun o => { o with caller := prev }
    { s with ctl := .returned .pause }.emit (.paused f)
  else s.crash

/-! ### `async_poll` -/

/-- `MixinRoutine::async_poll`. -/
def callback (s : Machine) (f : ObjId) : Machine :=
  let s := s.emit (.polled f (s.obj f).routine)
  if (s.obj f).routine = .uninitialized then s.asyncThrow f (makeError .uninitialized)
  else { s with ctl := .polling }

/-- The last lines of `swap_awaitable`, and the poll that follows it. -/
def swapDone (s : Machine) (f : ObjId) (caller : Ptr) : Machine :=
  let s := s.setCaller caller (s.obj f).prev
  let s := s.set f fun o => { o with prev := .null }
  (s.emit (.reentered f)).callback f

/-- `MixinPausable::async_poll`. -/
def poll (s : Machine) (f : ObjId) : Machine :=
  let o := s.obj f
  if o.isPaused then
    if o.prev ≠ o.caller then
      if o.caller = .null then s.crash
      else if s.next o.caller = .obj f then s.swapDone f o.caller
      else { s with ctl := .walking (s.next o.caller) }
    else s.asyncReturn f
  else s.callback f

/-- The frame above `f` takes over `_prev`, if it is pausable: it may be paused itself. -/
def repairPrev (s : Machine) (f : ObjId) (caller : Ptr) : Machine :=
  match caller with
  | .obj c => if (s.obj c).pausable then s.set c fun o => { o with prev := (s.obj f).prev } else s
  | _ => s

/-- One turn of the loop in `swap_awaitable`: `caller` was moved on, and its `_caller` is tested. -/
def walk (s : Machine) (f : ObjId) (caller : Ptr) : Machine :=
  if caller = .null then s.crash
  else if s.next caller = .obj f then (s.repairPrev f caller).swapDone f caller
  else { s with ctl := .walking (s.next caller) }

/-! ### `Awaitable::run` and `Task::run` -/

/-- The head of the loop: `handle_error` if the awaitable has an error, else `async_poll`. A paused
    awaitable answers `Passthrough`. -/
def enter (s : Machine) (f : ObjId) (rest : List Activation) : Machine :=
  let o := s.obj f
  if o.error.isSet then
    let s := s.set f fun o => { o with error := .cleared }
    let s := { s with stack := ⟨f, some o.error⟩ :: rest }.emit (.handled f o.error)
    { s with ctl := if o.isPaused then .returned .passthrough else .handling }
  else { s with stack := ⟨f, none⟩ :: rest }.poll f

/-- The innermost `run` returns `st`: to the callback that made the call, or to `Task::run`. -/
def deliver (s : Machine) (st : ControlState) (rest : List Activation) : Machine :=
  match rest with
  | [] =>
    if st = .ready then { s with stack := [], ctl := .running }
    else { s with stack := [], ctl := .stopped, state := st }
  | _ => { s with stack := rest, ctl := .returned st }

/-- The error goes to the caller. -/
def propagate (s : Machine) (f : ObjId) (e : Error) (rest : List Activation) : Machine :=
  let c := (s.obj f).caller
  if (s.obj f).task = false ∨ c = .null then s.crash
  else
    let s := { (s.emit (.raised f e)).setError c e with top := c }
    (s.finalize f).deliver .ready rest

/-- The rest of the loop body, once the callback or `handle_error` has returned `st`. -/
def afterCallback (s : Machine) (a : Activation) (st : ControlState) (rest : List Activation) :
    Machine :=
  match a.handling, st with
  | some e, .raise => s.propagate a.self e rest
  | some e, .passthrough => s.propagate a.self e rest
  | _, _ =>
    if st.stops then s.deliver (if st = .pause then .ready else st) rest
    else if (s.obj a.self).task = false then s.crash
    else if s.top = .obj a.self then { s with ctl := .entering }
    else (s.finalize a.self).deliver st rest

/-- `_top->run()` is called; the task itself exits, with the `_error` it has. -/
def runTop (s : Machine) : Machine :=
  match s.top with
  | .null => s.crash
  | .task =>
    { s with top := .null, state := .exited, ctl := .stopped }.emit (.exited s.taskError)
  | .obj f => { s with stack := [⟨f, none⟩], ctl := .entering }

/-- `Task::init`, and the `spawn` that follows it. -/
def spawn (s : Machine) (r : ObjId) : Machine :=
  let s := s.set r fun o => { o with task := true, caller := .task }
  let s := { s with entry := .obj r, top := .obj r, taskError := {}, state := .ready }
  s.emit (.called .task r)

/-- One turn of the loop in `TaskQueue::cancel`, or what comes after it. -/
def unwind (s : Machine) : Machine :=
  match s.top with
  | .obj f => { s.finalize f with top := (s.obj f).caller }
  | _ =>
    if s.state = .ready then { s with taskError := {}, ctl := .stopped }
    else { s with state := .exited, ctl := .stopped }

end Machine

/-! ### Labels -/

/-- How a callback or `handle_error` ends. -/
inductive Act where
  | call (g : ObjId)
  | ret
  | throw (e : Error)
  | suspend
  | yield
  | pause
  /-- `handle_error` of the base class -/
  | propagate
  /-- `async_poll` throws a C++ exception -/
  | exception
  deriving DecidableEq, Repr

inductive Label where
  /-- the library goes on -/
  | tick
  | act (a : Act)
  /-- the user initializes an awaitable that is not in use -/
  | start (f : ObjId)
  /-- `Task::init` and `spawn` -/
  | spawn (root : ObjId)
  /-- `Task::resume`, called while the task is not run -/
  | resume (e : Error)
  /-- the scheduler calls `Task::run` -/
  | run
  | cancel
  deriving DecidableEq, Repr

namespace Machine

/-- The library goes on by one step. -/
def tick (s : Machine) : Option Machine :=
  match s.ctl, s.stack with
  | .running, _ => some s.runTop
  | .cancelling, _ => some s.unwind
  | .entering, a :: rest => some (s.enter a.self rest)
  | .walking c, a :: _ => some (s.walk a.self c)
  | .returned st, a :: rest => some (s.afterCallback a st rest)
  | _, _ => none

/-- The callback of `f` ends; `propagate` is for `handle_error`, `exception` for `async_poll`. -/
def act (s : Machine) (f : ObjId) : Act → Option Machine
  | .call g => some (s.asyncCall f g)
  | .ret => some (s.asyncReturn f)
  | .throw e => some (s.asyncThrow f e)
  | .suspend => some (s.asyncWait f .suspended)
  | .yield => some (s.asyncWait f .yield)
  | .pause => if (s.obj f).pausable then some (s.asyncPause f) else none
  | .propagate => if s.ctl = .handling then some { s with ctl := .returned .raise } else none
  | .exception => if s.ctl = .polling then some (s.catchException f) else none

/-- User code of the task has control. -/
def userCode (s : Machine) : Bool := s.ctl = .polling || s.ctl = .handling

/-- One step; `none` where the label cannot happen. -/
def step (s : Machine) : Label → Option Machine
  | .tick => s.tick
  | .act a =>
    match s.stack with
    | [] => none
    | b :: _ => if s.userCode then s.act b.self a else none
  | .start f =>
    if (s.userCode ∨ s.ctl = .stopped) ∧ (s.obj f).task = false
    then some (s.set f fun o => { o with routine := .start }) else none
  | .spawn r =>
    if s.ctl = .stopped ∧ s.state ≠ .ready ∧ (s.top = .null ∨ s.top = .task) then
      some (s.spawn r)
    else none
  | .resume e =>
    if s.ctl = .stopped then
      if s.top = .null ∨ s.state = .ready ∨ s.state = .exited then some s
      else some { s with state := .ready, taskError := e }
    else none
  | .run =>
    if s.ctl = .stopped ∧ s.top ≠ .null ∧ (s.state = .ready ∨ s.state = .yield)
    then some { s with ctl := .running } else none
  | .cancel =>
    if s.ctl = .stopped ∧ s.top ≠ .null then some { s with ctl := .cancelling } else none

abbrev exec : Machine → List Label → Option Machine := Runs.exec step

/-- Awaitables that were just constructed, and a task that was not spawned yet. -/
def init (pausable : ObjId → Bool) : Machine := { obj := fun i => { pausable := pausable i } }

/-! ### What the member functions leave alone -/

section Members

variable (s : Machine) (i j f : ObjId) (g : Obj → Obj) (e : Event) (p q : Ptr)

theorem set_obj : (s.set i g).obj j = if j = i then g (s.obj j) else s.obj j := rfl

@[simp] theorem set_obj_self : (s.set i g).obj i = g (s.obj i) := by simp [set_obj]

theorem set_obj_ne {i j : ObjId} (h : j ≠ i) : (s.set i g).obj j = s.obj j := by
  simp [set_obj, h]

@[simp] theorem set_entry : (s.set i g).entry = s.entry := rfl
@[simp] theorem set_taskError : (s.set i g).taskError = s.taskError := rfl
@[simp] theorem set_state : (s.set i g).state = s.state := rfl
@[simp] theorem set_top : (s.set i g).top = s.top := rfl
@[simp] theorem set_stack : (s.set i g).stack = s.stack := rfl
@[simp] theorem set_ctl : (s.set i g).ctl = s.ctl := rfl
@[simp] theorem set_log : (s.set i g).log = s.log := rfl

@[simp] theorem emit_obj : (s.emit e).obj = s.obj := rfl
@[simp] theorem emit_entry : (s.emit e).entry = s.entry := rfl
@[simp] theorem emit_taskError : (s.emit e).taskError = s.taskError := rfl
@[simp] theorem emit_state : (s.emit e).state = s.state := rfl
@[simp] theorem emit_top : (s.emit e).top = s.top := rfl
@[simp] theorem emit_stack : (s.emit e).stack = s.stack := rfl
@[simp] theorem emit_ctl : (s.emit e).ctl = s.ctl := rfl
@[simp] theorem emit_log : (s.emit e).log = e :: s.log := rfl

@[simp] theorem setCaller_log : (s.setCaller p q).log = s.log := by cases p <;> rfl
@[simp] theorem setCaller_stack : (s.setCaller p q).stack = s.stack := by cases p <;> rfl
@[simp] theorem setCaller_top : (s.setCaller p q).top = s.top := by cases p <;> rfl
@[simp] theorem repairPrev_log : (s.repairPrev f p).log = s.log := by
  unfold repairPrev; split
  · split <;> rfl
  · rfl
@[simp] theorem repairPrev_stack : (s.repairPrev f p).stack = s.stack := by
  unfold repairPrev; split
  · split <;> rfl
  · rfl
@[simp] theorem setError_log (e : Error) : (s.setError p e).log = s.log := by cases p <;> rfl

end Members

/-! ### The log only grows -/

section Log

variable (s : Machine) (f g : ObjId) (rest : List Activation)

theorem asyncThrow_log (e : Error) : (s.asyncThrow f e).log = s.log := by
  unfold asyncThrow; simp only; split <;> rfl

theorem callback_log : s.log <:+ (s.callback f).log := by
  unfold callback
  simp only
  split
  · rw [asyncThrow_log]; exact List.suffix_cons _ _
  · exact List.suffix_cons _ _

theorem swapDone_log (c : Ptr) : s.log <:+ (s.swapDone f c).log := by
  refine List.IsSuffix.trans ?_ (callback_log _ f)
  simp

theorem asyncReturn_log : (s.asyncReturn f).log = s.log := by
  unfold asyncReturn; split <;> rfl

theorem poll_log : s.log <:+ (s.poll f).log := by
  unfold poll
  simp only
  split
  · split
    · split
      · exact List.suffix_refl _
      · split
        · exact swapDone_log s f _
        · exact List.suffix_refl _
    · rw [asyncReturn_log]
  · exact callback_log s f

theorem walk_log (c : Ptr) : s.log <:+ (s.walk f c).log := by
  unfold walk
  split
  · exact List.suffix_refl _
  · split
    · have h := swapDone_log (s.repairPrev f c) f c
      rwa [repairPrev_log] at h
    · exact List.suffix_refl _

theorem enter_log : s.log <:+ (s.enter f rest).log := by
  unfold enter
  simp only
  split
  · exact List.suffix_cons _ _
  · exact poll_log { s with stack := ⟨f, none⟩ :: rest } f

theorem deliver_log (st : ControlState) : (s.deliver st rest).log = s.log := by
  unfold deliver
  split
  · split <;> rfl
  · rfl

theorem afterCallback_log (a : Activation) (st : ControlState) :
    s.log <:+ (s.afterCallback a st rest).log := by
  have hprop : ∀ e, s.log <:+ (s.propagate a.self e rest).log := fun e => by
    unfold propagate
    simp only
    split
    · exact List.suffix_refl _
    · rw [deliver_log]
      simpa [finalize] using (List.suffix_cons _ _).trans (List.suffix_cons _ _)
  unfold afterCallback
  split
  · exact hprop _
  · exact hprop _
  · split
    · rw [deliver_log]
    · split
      · exact List.suffix_refl _
      · split
        · exact List.suffix_refl _
        · rw [deliver_log]; exact List.suffix_cons _ _

end Log

variable {s t : Machine}

theorem tick_log (h : s.tick = some t) : s.log <:+ t.log := by
  unfold tick at h
  split at h
  · cases h
    unfold runTop
    split
    · exact List.suffix_refl _
    · exact List.suffix_cons _ _
    · exact List.suffix_refl _
  · cases h
    unfold unwind
    split
    · exact List.suffix_cons _ _
    · split <;> exact List.suffix_refl _
  · cases h; exact enter_log _ _ _
  · cases h; exact walk_log _ _ _
  · cases h; exact afterCallback_log _ _ _ _
  · simp at h

theorem act_log {f : ObjId} {a : Act} (h : s.act f a = some t) : s.log <:+ t.log := by
  cases a with
  | call g => cases h; exact List.suffix_cons _ _
  | ret => cases h; rw [asyncReturn_log]
  | throw e => cases h; rw [asyncThrow_log]
  | suspend | yield =>
    cases h
    unfold asyncWait
    split
    · exact List.suffix_cons _ _
    · exact List.suffix_refl _
  | pause =>
    simp only [act] at h
    split at h
    · cases h
      unfold asyncPause
      simp only
      split
      · exact List.suffix_refl _
      · split
        · simp
        · exact List.suffix_refl _
    · simp at h
  | propagate =>
    simp only [act] at h
    split at h
    · cases h; exact List.suffix_refl _
    · simp at h
  | exception =>
    simp only [act] at h
    split at h
    · cases h
      unfold catchException
      split <;> exact List.suffix_refl _
    · simp at h

theorem step_log {l : Label} (h : s.step l = some t) : s.log <:+ t.log := by
  cases l with
  | tick => exact tick_log h
  | act a =>
    simp only [step] at h
    split at h
    · simp at h
    · split at h
      · exact act_log h
      · simp at h
  | start f =>
    simp only [step] at h
    split at h
    · cases h; exact List.suffix_refl _
    · simp at h
  | spawn r =>
    simp only [step] at h
    split at h
    · cases h; exact List.suffix_cons _ _
    · simp at h
  | resume e =>
    simp only [step] at h
    split at h
    · split at h <;> cases h <;> exact List.suffix_refl _
    · simp at h
  | run | cancel =>
    simp only [step] at h
    split at h
    · cases h; exact List.suffix_refl _
    · simp at h

theorem exec_log (ls : List Label) (s t : Machine) (h : s.exec ls = some t) : s.log <:+ t.log :=
  Runs.exec_relation (I := fun _ => True) (R := fun s t => s.log <:+ t.log)
    (fun _ _ _ _ _ _ => trivial) (fun _ => List.suffix_refl _)
    (fun _ _ _ _ hr _ _ hs => by exact hr.trans (step_log hs))
    ls s t h (Runs.meets_true ls s) trivial

end Machine

end Jinx.Await
