import Jinx.Libevent.CallbackObject
import Jinx.Sync.Pending

/-! Awaitables that wait for an event of `EventEngineLibevent`: `AsyncIOCommon`, `AsyncTLS` and
    `AsyncSleep`, each in a task of its own.

    A task is run while no callback runs. Callbacks of the program may do with the handles of the
    program whatever they like, and may resume and cancel tasks, as tasks may. What `do_io` and `io`
    return is an input; `StreamSend` and the stream over OpenSSL have their insides. Whether `event_add`
    succeeds is one as well, and a task whose event it has refused is suspended all the same. -/

namespace Jinx.Libevent
open Jinx Posix Function
open Jinx.Sync (Stage)

abbrev categoryOpenssl : Category := .other 5

/-- `enum class ErrorCodeOpenSSL`, those that `do_tls_io` looks at. -/
abbrev sslEstablished : Int := 2
abbrev sslWantRead : Int := 7
abbrev sslWantWrite : Int := 8

/-- The class of an awaitable. -/
inductive Kind where
  | io
  | tls
  | sleep
  deriving DecidableEq, Repr

/-- An awaitable and the task that awaits it. -/
structure Operation where
  stage : Stage := .idle
  taskError : Error := {}
  /-- the `Optional` of the result; of `AsyncSleep` only whether it is empty -/
  result : Option Int := none
  ioHandle : Int := -1
  /-- `IOImpl::IOType::Flags` -/
  flags : Nat := 0
  /-- `event_add` has failed for the event that was registered last -/
  refused : Bool := false
  deriving DecidableEq, Repr

/-- The callbacks: `io_callback`, `callback` and `timer_callback` with `this`, and those of the
    program. -/
inductive Code (O : Type*) where
  | operation (o : O)
  | user (n : Nat)
  deriving DecidableEq, Repr

/-- The engine with the handles of awaitables and of the program. -/
structure Waiting (O U : Type*) where
  engine : Engine (O ⊕ U) (Code O) := {}
  operation : O → Operation := fun _ => {}
  /-- a callback was called for an awaitable that nobody awaits, or there was none to call -/
  stray : Bool := false
  /-- `jinx_assert` in `AsyncTLS::callback` has failed -/
  asserted : Bool := false

/-- What the program does with its own handles. -/
inductive UserOp (U : Type*) where
  | addIo (flags : Nat) (u : U) (fd : Int) (n : Nat) (accepted : Bool)
  | addTimer (u : U) (n : Nat) (accepted : Bool)
  | addSignal (u : U) (sig : Int) (n : Nat) (accepted : Bool)
  | removeIo (u : U)
  | removeTimer (u : U)
  | removeSignal (u : U)
  | reset (u : U)
  deriving DecidableEq, Repr

inductive WaitingLabel (O U : Type*) where
  /-- `operator()` and the first `async_poll`, with what `do_io` or `io` returns, and `event_add` -/
  | start (o : O) (ioHandle : Int) (flags : Nat) (r : IOResult) (accepted : Bool)
  /-- the task runs again -/
  | run (o : O) (r : IOResult) (accepted : Bool)
  /-- the task is cancelled -/
  | cancel (o : O)
  /-- the task is resumed by others -/
  | resume (o : O) (e : Error)
  | user (op : UserOp U)
  /-- libevent calls a callback; those of awaitables have returned then -/
  | fire (h : O ⊕ U) (flags : Nat)
  /-- a callback of the program returns -/
  | finish
  deriving DecidableEq, Repr

/-- The same for the engine. -/
def UserOp.lift {O U : Type*} : UserOp U → EngineOp (O ⊕ U) (Code O)
  | .addIo flags u fd n accepted => .addIo flags (.inr u) fd (.user n) accepted
  | .addTimer u n accepted => .addTimer (.inr u) (.user n) accepted
  | .addSignal u sig n accepted => .addSignal (.inr u) sig (.user n) accepted
  | .removeIo u => .removeIo (.inr u)
  | .removeTimer u => .removeTimer (.inr u)
  | .removeSignal u => .removeSignal (.inr u)
  | .reset u => .reset (.inr u)

namespace Waiting

section Functions

variable {O U : Type*} [DecidableEq O] [DecidableEq U] (kind : O → Kind)

def setOperation (s : Waiting O U) (o : O) (x : Operation) : Waiting O U :=
  { s with operation := update s.operation o x }

/-- `Task::resume`. -/
def resume (s : Waiting O U) (o : O) (e : Error) : Waiting O U × ResultGeneric :=
  if (s.operation o).stage = .suspended then
    (s.setOperation o { s.operation o with stage := .scheduled, taskError := e }, .successful)
  else (s, .failed)

/-- `async_finalize` of the three classes. -/
def finalize (s : Waiting O U) (o : O) : Waiting O U :=
  let engine :=
    match kind o with
    | .io | .tls =>
      if (s.engine.handle (.inl o)).empty then s.engine
      else (s.engine.removeIo (.inl o)).1.reset (.inl o)
    | .sleep => (s.engine.removeTimer (.inl o)).1
  { s with engine }.setOperation o
    { s.operation o with stage := .idle, ioHandle := -1, flags := 0 }

/-- What follows the registration of an event: `async_suspend`, or an error that ends the await. -/
def suspend (s : Waiting O U) (o : O) (accepted : Bool) :
    Engine (O ⊕ U) (Code O) × ResultGeneric → Waiting O U
  | (engine, .successful) =>
    { s with engine }.setOperation o
      { s.operation o with stage := .suspended, refused := !accepted }
  | (engine, .failed) => { s with engine }.finalize kind o

def addIo (s : Waiting O U) (o : O) (flags : Nat) (accepted : Bool) : Waiting O U :=
  s.suspend kind o accepted
    (s.engine.addIo flags (.inl o) (s.operation o).ioHandle (.operation o) accepted)

/-- `AsyncIOCommon::async_io`, and the end of the await where it returns or raises an error. -/
def asyncIo (s : Waiting O U) (o : O) (r : IOResult) (accepted : Bool) : Waiting O U :=
  if (s.operation o).result.isSome then s.finalize kind o
  else if r.error.isSet then
    if r.error.category = categoryAgain then s.addIo kind o (s.operation o).flags accepted
    else s.finalize kind o
  else (s.setOperation o { s.operation o with result := some r.int }).finalize kind o

/-- `AsyncTLS::do_tls_io`. -/
def doTlsIo (s : Waiting O U) (o : O) (r : IOResult) (accepted : Bool) : Waiting O U :=
  let s := s.setOperation o { s.operation o with result := some r.int }
  if r.error.category = categoryOpenssl ∧ r.error.value = sslWantRead then
    s.addIo kind o EV_READ accepted
  else if r.error.category = categoryOpenssl ∧ r.error.value = sslWantWrite then
    s.addIo kind o EV_WRITE accepted
  else s.finalize kind o

/-- `AsyncSleep::async_poll`. -/
def pollSleep (s : Waiting O U) (o : O) (accepted : Bool) : Waiting O U :=
  if (s.operation o).result.isSome then s.finalize kind o
  else s.suspend kind o accepted (s.engine.addTimer (.inl o) (.operation o) accepted)

def poll (s : Waiting O U) (o : O) (r : IOResult) (accepted : Bool) : Waiting O U :=
  match kind o with
  | .io => s.asyncIo kind o r accepted
  | .tls => s.doTlsIo kind o r accepted
  | .sleep => s.pollSleep kind o accepted

/-- `io_callback`, `AsyncTLS::callback` and `timer_callback`. -/
def callback (s : Waiting O U) (o : O) (e : Error) : Waiting O U :=
  let s := if (s.operation o).stage = .idle then { s with stray := true } else s
  match kind o with
  | .io => (s.resume o e).1
  | .tls =>
    match s.resume o e with
    | (s, .successful) => s
    | (s, .failed) => { s with asserted := true }
  | .sleep =>
    let s := { s with engine := (s.engine.removeTimer (.inl o)).1 }
    let s := s.setOperation o { s.operation o with result := some 0 }
    (s.resume o {}).1

/-- What the callback that libevent has just called does: a callback of the program has only begun. -/
def dispatch (s : Waiting O U) (h : O ⊕ U) (flags : Nat) : Waiting O U :=
  match (s.engine.handle h).memory.callback with
  | some (.operation o) =>
    let s := s.callback kind o (if flags &&& EV_TIMEOUT ≠ 0 then timedOut else {})
    { s with engine := s.engine.finish h }
  | some (.user _) => s
  | none => { s with stray := true }

def step (s : Waiting O U) : WaitingLabel O U → Option (Waiting O U)
  | .start o ioHandle flags r accepted =>
    if s.engine.frame.isNone ∧ (s.operation o).stage = .idle then
      some ((s.setOperation o { ioHandle, flags, stage := .scheduled }).poll kind o r accepted)
    else none
  | .run o r accepted =>
    if s.engine.frame.isNone ∧ (s.operation o).stage = .scheduled then some (s.poll kind o r accepted)
    else none
  | .cancel o => if (s.operation o).stage = .idle then none else some (s.finalize kind o)
  | .resume o e => some (s.resume o e).1
  | .user op => (s.engine.step op.lift).map fun engine => { s with engine }
  | .fire h flags =>
    (s.engine.step (.fire h flags)).map fun engine => { s with engine }.dispatch kind h flags
  | .finish => (s.engine.step .finish).map fun engine => { s with engine }

abbrev exec : Waiting O U → List (WaitingLabel O U) → Option (Waiting O U) := Runs.exec (step kind)

end Functions

/-! ### Who has an event -/

/-- An awaitable and the handle in it, between two steps. -/
structure Held {O : Type*} (o : O) (x : Operation) (handle : EventHandle (Code O)) (added : Bool) :
    Prop where
  idle : x.stage = .idle → handle.empty = true
  suspended : x.stage = .suspended → added = !x.refused
  alive : added = true → handle.empty = false
  code : handle.empty = false →
    handle.memory.callback = some (.operation o) ∧ handle.memory.state = .pending

/-- A handle of the program. -/
structure Owned {O : Type*} (handle : EventHandle (Code O)) (added : Bool) : Prop where
  alive : added = true → handle.empty = false
  code : handle.empty = false → ∃ n, handle.memory.callback = some (.user n)

structure Inv {O U : Type*} (s : Waiting O U) : Prop where
  held : ∀ o, Held o (s.operation o) (s.engine.handle (.inl o)) (s.engine.added (.inl o))
  owned : ∀ u, Owned (s.engine.handle (.inr u)) (s.engine.added (.inr u))
  frame : ∀ frame, s.engine.frame = some frame → ∃ u, frame.1 = .inr u
  calm : s.stray = false

variable {O U : Type*} {s s' : Waiting O U} {o : O} {u : U} {x : Operation}

/-- What happens in one awaitable and its handle. -/
theorem Inv.confined (hs : Inv s)
    (hhandle : ∀ k ≠ .inl o, s'.engine.handle k = s.engine.handle k)
    (hadded : ∀ k ≠ .inl o, s'.engine.added k = s.engine.added k)
    (hframe : ∀ frame, s'.engine.frame = some frame → ∃ u, frame.1 = .inr u)
    (hop : ∀ p ≠ o, s'.operation p = s.operation p)
    (hheld : Held o (s'.operation o) (s'.engine.handle (.inl o)) (s'.engine.added (.inl o)))
    (hcalm : s'.stray = false) : Inv s' where
  held p := by
    by_cases hp : p = o
    · subst hp
      exact hheld
    · have hne : (Sum.inl p : O ⊕ U) ≠ .inl o := fun heq => hp (Sum.inl.inj heq)
      rw [hop p hp, hhandle _ hne, hadded _ hne]
      exact hs.held p
  owned v := by
    rw [hhandle _ Sum.inr_ne_inl, hadded _ Sum.inr_ne_inl]
    exact hs.owned v
  frame := hframe
  calm := hcalm

theorem Inv.awaitable (hs : Inv s) (he : Engine.Elsewhere s.engine s'.engine (.inl o))
    (hop : ∀ p ≠ o, s'.operation p = s.operation p)
    (hheld : Held o (s'.operation o) (s'.engine.handle (.inl o)) (s'.engine.added (.inl o)))
    (hcalm : s'.stray = s.stray) : Inv s' :=
  hs.confined he.handle he.added (fun frame hframe => hs.frame frame (he.frame ▸ hframe)) hop hheld
    (hcalm.trans hs.calm)

/-- What happens in one handle of the program. -/
theorem Inv.program (hs : Inv s) {engine : Engine (O ⊕ U) (Code O)}
    (hhandle : ∀ k ≠ .inr u, engine.handle k = s.engine.handle k)
    (hadded : ∀ k ≠ .inr u, engine.added k = s.engine.added k)
    (howned : Owned (engine.handle (.inr u)) (engine.added (.inr u)))
    (hframe : ∀ frame, engine.frame = some frame → ∃ u, frame.1 = .inr u) :
    Inv { s with engine } where
  held p := by
    rw [hhandle _ Sum.inl_ne_inr, hadded _ Sum.inl_ne_inr]
    exact hs.held p
  owned v := by
    by_cases hv : v = u
    · subst hv
      exact howned
    · have hne : (Sum.inr v : O ⊕ U) ≠ .inr u := fun heq => hv (Sum.inr.inj heq)
      rw [hhandle _ hne, hadded _ hne]
      exact hs.owned v
  frame := hframe
  calm := hs.calm

/-- What a poll or the end of an await may change, and how it leaves the awaitable. -/
structure Polled {O U : Type*} (kind : O → Kind) (s s' : Waiting O U) (o : O) : Prop where
  engine : Engine.Elsewhere s.engine s'.engine (.inl o)
  operation : ∀ p ≠ o, s'.operation p = s.operation p
  stray : s'.stray = s.stray
  asserted : s'.asserted = s.asserted
  held : Held o (s'.operation o) (s'.engine.handle (.inl o)) (s'.engine.added (.inl o))
  /-- an event that libevent has is one that the task waits for -/
  waits : s'.engine.added (.inl o) = true → (s'.operation o).stage = .suspended ∧
    (kind o = .tls → (s'.engine.handle (.inl o)).memory.event.persists = false)

theorem Polled.inv {kind : O → Kind} (hp : Polled kind s s' o) (hs : Inv s) : Inv s' :=
  hs.awaitable hp.engine hp.operation hp.held hp.stray

/-- What a call of the callback of an awaitable changes. -/
structure Fired {O U : Type*} (kind : O → Kind) (s s' : Waiting O U) (o : O) : Prop where
  handle : ∀ k ≠ .inl o, s'.engine.handle k = s.engine.handle k
  added : ∀ k ≠ .inl o, s'.engine.added k = s.engine.added k
  frame : s'.engine.frame = none
  operation : ∀ p ≠ o, s'.operation p = s.operation p
  stray : s'.stray = s.stray
  asserted : (kind o = .tls → (s.operation o).stage = .suspended) → s'.asserted = s.asserted
  held : Held o (s'.operation o) (s'.engine.handle (.inl o)) (s'.engine.added (.inl o))
  once : (s.engine.handle (.inl o)).memory.event.persists = false → s'.engine.added (.inl o) = false

theorem Fired.inv {kind : O → Kind} (hf : Fired kind s s' o) (hs : Inv s) : Inv s' :=
  hs.confined hf.handle hf.added (fun frame hframe => by simp [hf.frame] at hframe) hf.operation hf.held
    (hf.stray.trans hs.calm)

variable [DecidableEq O]

/-- What is set before does not matter. -/
theorem Polled.of_setOperation {kind : O → Kind} (hp : Polled kind (s.setOperation o x) s' o) :
    Polled kind s s' o where
  engine := hp.engine
  operation p hne := (hp.operation p hne).trans (update_of_ne hne ..)
  stray := hp.stray
  asserted := hp.asserted
  held := hp.held
  waits := hp.waits

theorem Inv.setOperation (hs : Inv s)
    (hidle : x.stage = .idle → (s.engine.handle (.inl o)).empty = true)
    (hsuspended : x.stage = .suspended → s.engine.added (.inl o) = !x.refused) :
    Inv (s.setOperation o x) := by
  refine hs.awaitable (o := o) ⟨fun _ _ => rfl, fun _ _ => rfl, rfl, rfl⟩
    (fun p hp => update_of_ne hp ..) ?_ rfl
  have hheld := hs.held o
  show Held o (update s.operation o x o) _ _
  rw [update_self]
  exact ⟨hidle, hsuspended, hheld.alive, hheld.code⟩

theorem Inv.setResult (hs : Inv s) (o : O) (result : Option Int) :
    Inv (s.setOperation o { s.operation o with result }) :=
  hs.setOperation (hs.held o).idle (hs.held o).suspended

theorem Inv.resume (hs : Inv s) (o : O) (e : Error) : Inv (s.resume o e).1 := by
  unfold Waiting.resume
  split
  · exact hs.setOperation (fun h => by cases h) (fun h => by cases h)
  · exact hs

/-- Nobody but the task of the awaitable is touched by a resume, and its stage is not `suspended`. -/
theorem resume_spec (s : Waiting O U) (o : O) (e : Error) :
    (s.resume o e).1.engine = s.engine ∧ (s.resume o e).1.stray = s.stray ∧
      (∀ p ≠ o, (s.resume o e).1.operation p = s.operation p) ∧
      ((s.resume o e).1.operation o).stage = (s.operation o).stage.resume := by
  unfold Waiting.resume
  split
  · next hsuspended =>
    refine ⟨rfl, rfl, fun p hp => update_of_ne hp .., ?_⟩
    show (update s.operation o _ o).stage = _
    rw [update_self, hsuspended]
    rfl
  · next hsuspended =>
    refine ⟨rfl, rfl, fun _ _ => rfl, ?_⟩
    show (s.operation o).stage = _
    cases hstage : (s.operation o).stage with
    | suspended => exact absurd hstage hsuspended
    | idle | scheduled | returned => rfl

variable [DecidableEq U] {kind : O → Kind}

/-- `Optional::reset` takes the event back with the object. -/
theorem free_reset (hs : Inv s) (o : O) :
    ((s.engine.reset (.inl o)).handle (.inl o)).empty = true ∧
      (s.engine.reset (.inl o)).added (.inl o) = false := by
  rw [Engine.handle_reset, Engine.added_reset]
  refine ⟨rfl, ?_⟩
  cases hadded : s.engine.added (.inl o) with
  | false => rfl
  | true => exact (hs.held o).alive hadded

/-- Where its callback does not run, both ways to remove an event reset the handle. -/
theorem removeIo_reset (hs : Inv s) (hempty : (s.engine.handle (.inl o)).empty = false) :
    (s.engine.removeIo (.inl o)).1 = s.engine.reset (.inl o) := by
  have hpending := ((hs.held o).code hempty).2
  simp [Engine.removeIo, hpending]

theorem removeTimer_reset (hs : Inv s) (o : O) :
    (s.engine.removeTimer (.inl o)).1 = s.engine.reset (.inl o) := by
  rw [Engine.removeTimer_fst]
  split
  · next hempty => rw [Engine.reset, if_pos hempty]
  · next hempty => exact removeIo_reset hs (Bool.eq_false_iff.mpr hempty)

theorem reset_reset (engine : Engine (O ⊕ U) (Code O)) (h : O ⊕ U) :
    (engine.reset h).reset h = engine.reset h := by
  have hempty : ((engine.reset h).handle h).empty = true := by rw [Engine.handle_reset]
  rw [Engine.reset, if_pos hempty]

theorem finalize_engine (hs : Inv s) (o : O) :
    (s.finalize kind o).engine = s.engine.reset (.inl o) := by
  have hio : (if (s.engine.handle (.inl o)).empty then s.engine
      else (s.engine.removeIo (.inl o)).1.reset (.inl o)) = s.engine.reset (.inl o) := by
    split
    · next hempty => rw [Engine.reset, if_pos hempty]
    · next hempty => rw [removeIo_reset hs (Bool.eq_false_iff.mpr hempty), reset_reset]
  unfold finalize setOperation
  cases kind o with
  | io => exact hio
  | tls => exact hio
  | sleep => exact removeTimer_reset hs o

theorem finalize_spec (hs : Inv s) (o : O) : Polled kind s (s.finalize kind o) o := by
  have hfree := free_reset hs o
  have hstage : ((s.finalize kind o).operation o).stage = .idle := by
    show (update s.operation o _ o).stage = .idle
    rw [update_self]
  refine ⟨?_, fun p hp => update_of_ne hp .., rfl, rfl, ?_, ?_⟩ <;> rw [finalize_engine hs]
  · exact Engine.elsewhere_reset ..
  · refine ⟨fun _ => hfree.1, fun h => ?_, fun h => ?_, fun h => ?_⟩
    · cases hstage.symm.trans h
    · exact absurd (hfree.2.symm.trans h) Bool.false_ne_true
    · exact absurd (h.symm.trans hfree.1) Bool.false_ne_true
  · intro h
    exact absurd (hfree.2.symm.trans h) Bool.false_ne_true

theorem suspend_spec (s : Waiting O U) (o : O) (accepted : Bool) {event : Event}
    (honce : kind o = .tls → event.persists = false) :
    Polled kind s (s.suspend kind o accepted (s.engine.add (.inl o) event (.operation o) accepted)) o := by
  have hoperation :
      (s.suspend kind o accepted (s.engine.add (.inl o) event (.operation o) accepted)).operation o =
        { s.operation o with stage := .suspended, refused := !accepted } := update_self ..
  have hhandle : (s.suspend kind o accepted
      (s.engine.add (.inl o) event (.operation o) accepted)).engine.handle (.inl o) =
        { memory := { event, callback := some (.operation o) }, empty := false } := update_self ..
  have hadded : (s.suspend kind o accepted
      (s.engine.add (.inl o) event (.operation o) accepted)).engine.added (.inl o) = accepted :=
    update_self ..
  refine ⟨Engine.elsewhere_add .., fun p hp => update_of_ne hp .., rfl, rfl, ?_, fun _ => ⟨?_, ?_⟩⟩
  · rw [hoperation, hhandle, hadded]
    exact ⟨fun h => (by cases h), fun _ => (Bool.not_not accepted).symm, fun _ => rfl,
      fun _ => ⟨rfl, rfl⟩⟩
  · rw [hoperation]
  · rw [hhandle]
    exact honce

theorem asyncIo_spec (hs : Inv s) (hkind : kind o = .io) (r : IOResult) (accepted : Bool) :
    Polled kind s (s.asyncIo kind o r accepted) o := by
  have hother : kind o ≠ .tls := by simp [hkind]
  unfold Waiting.asyncIo
  split
  · exact finalize_spec hs o
  · split
    · split
      · exact suspend_spec s o accepted fun h => absurd h hother
      · exact finalize_spec hs o
    · exact (finalize_spec (hs.setResult o _) o).of_setOperation

theorem doTlsIo_spec (hs : Inv s) (o : O) (r : IOResult) (accepted : Bool) :
    Polled kind s (s.doTlsIo kind o r accepted) o := by
  have hset := hs.setResult o (some r.int)
  simp only [Waiting.doTlsIo]
  split
  · exact (suspend_spec _ o accepted fun _ => read_not_persists _).of_setOperation
  · split
    · exact (suspend_spec _ o accepted fun _ => write_not_persists _).of_setOperation
    · exact (finalize_spec hset o).of_setOperation

theorem pollSleep_spec (hs : Inv s) (o : O) (accepted : Bool) :
    Polled kind s (s.pollSleep kind o accepted) o := by
  unfold Waiting.pollSleep
  split
  · exact finalize_spec hs o
  · exact suspend_spec s o accepted fun _ => timer_not_persists _

theorem poll_spec (hs : Inv s) (o : O) (r : IOResult) (accepted : Bool) :
    Polled kind s (s.poll kind o r accepted) o := by
  unfold Waiting.poll
  split
  · next hkind => exact asyncIo_spec hs hkind r accepted
  · exact doTlsIo_spec hs o r accepted
  · exact pollSleep_spec hs o accepted

/-! ### Callbacks -/

/-- What a call of the callback leaves of the handle of an awaitable that is not removed by it. -/
theorem fired_handle (engine : Engine (O ⊕ U) (Code O)) (h : O ⊕ U) (flags : Nat) :
    ((engine.fire h flags).finish h).handle h =
      { engine.handle h with memory := { (engine.handle h).memory with state := .pending } } := by
  rw [Engine.finish_handle, Engine.fire_eq]
  show Engine.left (update engine.handle h _ h) = _
  rw [update_self]
  rfl

theorem fired_added (engine : Engine (O ⊕ U) (Code O)) (h : O ⊕ U) (flags : Nat) :
    ((engine.fire h flags).finish h).added h =
      (engine.added h && (engine.handle h).memory.event.persists) := by
  rw [Engine.finish_added, Engine.fire_eq]
  show (update engine.added h _ h && ((update engine.handle h _ h).empty ||
    (update engine.handle h _ h).memory.state != .deleted)) = _
  rw [update_self, update_self]
  simp

theorem fired_other (engine : Engine (O ⊕ U) (Code O)) {h k : O ⊕ U} (flags : Nat) (hk : k ≠ h) :
    (engine.fire h flags).handle k = engine.handle k ∧
      (engine.fire h flags).added k = engine.added k := by
  rw [Engine.fire_eq]
  exact ⟨update_of_ne hk .., update_of_ne hk ..⟩

/-- Where somebody awaits it: what the callback of an awaitable leaves. -/
theorem callback_spec (kind : O → Kind) (hidle : (s.operation o).stage ≠ .idle) (e : Error) :
    ((s.callback kind o e).engine = s.engine ∨
        (s.callback kind o e).engine = (s.engine.removeTimer (.inl o)).1) ∧
      (s.callback kind o e).stray = s.stray ∧
      (∀ p ≠ o, (s.callback kind o e).operation p = s.operation p) ∧
      ((s.callback kind o e).operation o).stage = (s.operation o).stage.resume := by
  simp only [Waiting.callback, if_neg hidle]
  have hresume := resume_spec s o e
  cases kind o with
  | io => exact ⟨.inl hresume.1, hresume.2⟩
  | tls =>
    dsimp only
    split
    · next heq =>
      rw [heq] at hresume
      exact ⟨.inl hresume.1, hresume.2⟩
    · next heq =>
      rw [heq] at hresume
      exact ⟨.inl hresume.1, hresume.2⟩
  | sleep =>
    have hspec := resume_spec ({ s with engine := (s.engine.removeTimer (.inl o)).1 }.setOperation o
      { s.operation o with result := some 0 }) o {}
    refine ⟨.inr hspec.1, hspec.2.1, fun p hp => ?_, ?_⟩
    · exact (hspec.2.2.1 p hp).trans (update_of_ne hp ..)
    · refine hspec.2.2.2.trans ?_
      show (update s.operation o _ o).stage.resume = _
      rw [update_self]

/-- A timer that is removed by its own callback is gone when that has returned. -/
theorem removed_fired (engine : Engine (O ⊕ U) (Code O)) (h : O ⊕ U) (flags : Nat)
    (halive : (engine.handle h).empty = false) :
    ((((engine.fire h flags).removeTimer h).1.finish h).handle h).empty = true ∧
      (((engine.fire h flags).removeTimer h).1.finish h).added h = false := by
  have hrunning : (engine.fire h flags).handle h =
      { engine.handle h with memory := { (engine.handle h).memory with state := .running } } := by
    rw [Engine.fire_eq]
    exact update_self ..
  have hremove : ((engine.fire h flags).removeTimer h).1 = (engine.fire h flags).setState h .deleted := by
    rw [Engine.removeTimer_fst, hrunning]
    simp [halive, Engine.removeIo, hrunning]
  have hdeleted : ((engine.fire h flags).setState h .deleted).handle h =
      { engine.handle h with memory := { (engine.handle h).memory with state := .deleted } } := by
    refine (update_self ..).trans ?_
    rw [hrunning]
  rw [hremove, Engine.finish_handle, Engine.finish_added, hdeleted]
  simp [Engine.left, halive]

/-- The assertion holds where the task is suspended. -/
theorem callback_asserted {kind : O → Kind}
    (hstage : kind o = .tls → (s.operation o).stage = .suspended) (e : Error) :
    (s.callback kind o e).asserted = s.asserted := by
  have hresume : ∀ s : Waiting O U, ∀ e, (s.resume o e).1.asserted = s.asserted := by
    intro s e
    unfold Waiting.resume
    split <;> rfl
  have hstray : (if (s.operation o).stage = .idle then { s with stray := true } else s).asserted =
      s.asserted := by split <;> rfl
  simp only [Waiting.callback]
  cases hkind : kind o with
  | io => exact (hresume _ _).trans hstray
  | tls =>
    have hsuspended := hstage hkind
    simp [Waiting.resume, hsuspended, Waiting.setOperation]
  | sleep => exact (hresume _ _).trans hstray

/-- libevent calls the callback of an awaitable: somebody awaits it, and it is called as it should be. -/
theorem dispatch_spec (hs : Inv s) (hadded : s.engine.added (.inl o) = true) (flags : Nat) :
    Fired kind s ({ s with engine := s.engine.fire (.inl o) flags }.dispatch kind (.inl o) flags) o := by
  have hheld := hs.held o
  have halive := hheld.alive hadded
  have hidle : (s.operation o).stage ≠ .idle := fun h => by simp [hheld.idle h] at halive
  have hcode : ((s.engine.fire (.inl o) flags).handle (.inl o)).memory.callback =
      some (.operation o) := by
    rw [Engine.fire_eq]
    show (update s.engine.handle (.inl o) _ (.inl o)).memory.callback = _
    rw [update_self]
    exact (hheld.code halive).1
  simp only [dispatch, hcode]
  generalize (if flags &&& EV_TIMEOUT ≠ 0 then timedOut else {}) = e
  have hcallback := callback_spec kind (s := { s with engine := s.engine.fire (.inl o) flags }) hidle e
  have hasserted : (kind o = .tls → (s.operation o).stage = .suspended) → _ := fun hstage =>
    callback_asserted (s := { s with engine := s.engine.fire (.inl o) flags }) hstage e
  generalize hs₂ : Waiting.callback kind { s with engine := s.engine.fire (.inl o) flags } o e = s₂
    at hcallback hasserted ⊢
  obtain ⟨hengine, hcalm, hop, hstage⟩ := hcallback
  have hnot : (s₂.operation o).stage ≠ .suspended := by
    rw [hstage]
    exact Stage.resume_ne _
  have hnot' : (s₂.operation o).stage ≠ .idle := by
    rw [hstage]
    exact (Stage.resume_idle _).mpr hidle
  have hother : ∀ k ≠ (Sum.inl o : O ⊕ U), s₂.engine.handle k = s.engine.handle k ∧
      s₂.engine.added k = s.engine.added k := by
    intro k hk
    have hfired := fired_other s.engine flags hk
    rcases hengine with heq | heq
    · rw [heq]
      exact hfired
    · have hremoved := Engine.elsewhere_removeTimer (s.engine.fire (.inl o) flags) (.inl o)
      rw [heq]
      exact ⟨(hremoved.handle k hk).trans hfired.1, (hremoved.added k hk).trans hfired.2⟩
  refine ⟨fun k hk => ?_, fun k hk => ?_, Engine.finish_frame .., hop, hcalm, hasserted,
    ⟨fun h => absurd h hnot', fun h => absurd h hnot, ?_, ?_⟩, ?_⟩
  · exact (Engine.finish_other s₂.engine hk).1.trans (hother k hk).1
  · exact (Engine.finish_other s₂.engine hk).2.trans (hother k hk).2
  · rcases hengine with heq | heq
    · rw [heq, fired_handle]
      exact fun _ => halive
    · rw [heq, (removed_fired s.engine (.inl o) flags halive).2]
      exact fun h => by cases h
  · rcases hengine with heq | heq
    · rw [heq, fired_handle]
      exact fun _ => ⟨(hheld.code halive).1, rfl⟩
    · rw [heq, (removed_fired s.engine (.inl o) flags halive).1]
      exact fun h => by cases h
  · intro honce
    rcases hengine with heq | heq
    · rw [heq, fired_added, honce, Bool.and_false]
    · rw [heq]
      exact (removed_fired s.engine (.inl o) flags halive).2

/-! ### Handles of the program -/

theorem Owned.reset (engine : Engine (O ⊕ U) (Code O)) (h : O ⊕ U)
    (howned : Owned (engine.handle h) (engine.added h)) :
    Owned ((engine.reset h).handle h) ((engine.reset h).added h) := by
  rw [Engine.handle_reset, Engine.added_reset]
  refine ⟨fun hadded => ?_, fun h => by cases h⟩
  rw [Bool.and_eq_true] at hadded
  exact absurd (howned.alive hadded.1) (by simp [hadded.2])

theorem Owned.removeIo (engine : Engine (O ⊕ U) (Code O)) (h : O ⊕ U)
    (howned : Owned (engine.handle h) (engine.added h)) :
    Owned ((engine.removeIo h).1.handle h) ((engine.removeIo h).1.added h) := by
  unfold Engine.removeIo
  split
  · show Owned (update engine.handle h _ h) (engine.added h)
    rw [update_self]
    exact ⟨howned.alive, howned.code⟩
  · exact howned.reset

theorem Owned.removeTimer (engine : Engine (O ⊕ U) (Code O)) (h : O ⊕ U)
    (howned : Owned (engine.handle h) (engine.added h)) :
    Owned ((engine.removeTimer h).1.handle h) ((engine.removeTimer h).1.added h) := by
  rw [Engine.removeTimer_fst]
  split
  · exact howned
  · exact howned.removeIo

theorem Inv.userAdd (hs : Inv s) (u : U) (event : Event) (n : Nat) (accepted : Bool) :
    Inv { s with engine := (s.engine.add (.inr u) event (.user n) accepted).1 } := by
  have he := Engine.elsewhere_add s.engine (.inr u) event (.user n) accepted
  refine hs.program (u := u) he.handle he.added ?_ fun frame hframe => hs.frame frame (he.frame ▸ hframe)
  show Owned (update (s.engine.reset (.inr u)).handle (.inr u) _ (.inr u)) _
  rw [update_self]
  exact ⟨fun _ => rfl, fun _ => ⟨n, rfl⟩⟩

theorem Inv.user (hs : Inv s) (op : UserOp U) {engine : Engine (O ⊕ U) (Code O)}
    (hstep : s.engine.step op.lift = some engine) : Inv { s with engine } := by
  have hprogram : ∀ {u : U} {e : Engine (O ⊕ U) (Code O)}, Engine.Elsewhere s.engine e (.inr u) →
      Owned (e.handle (.inr u)) (e.added (.inr u)) → Inv { s with engine := e } := fun he howned =>
    hs.program he.handle he.added howned fun frame hframe => hs.frame frame (he.frame ▸ hframe)
  cases op with
  | addIo flags u fd n accepted =>
    obtain rfl := Option.some.inj hstep
    exact hs.userAdd u _ n accepted
  | addTimer u n accepted =>
    obtain rfl := Option.some.inj hstep
    exact hs.userAdd u _ n accepted
  | addSignal u sig n accepted =>
    obtain rfl := Option.some.inj hstep
    exact hs.userAdd u _ n accepted
  | removeIo u =>
    obtain rfl := Option.some.inj hstep
    exact hprogram (Engine.elsewhere_removeIo ..) ((hs.owned u).removeIo)
  | removeTimer u | removeSignal u =>
    obtain rfl := Option.some.inj hstep
    exact hprogram (Engine.elsewhere_removeTimer ..) ((hs.owned u).removeTimer)
  | reset u =>
    obtain rfl := Option.some.inj hstep
    exact hprogram (Engine.elsewhere_reset ..) ((hs.owned u).reset)

/-- A callback of the program has begun. -/
theorem dispatch_user (kind : O → Kind) (hs : Inv s) (hadded : s.engine.added (.inr u) = true)
    (flags : Nat) :
    { s with engine := s.engine.fire (.inr u) flags }.dispatch kind (.inr u) flags =
      { s with engine := s.engine.fire (.inr u) flags } := by
  obtain ⟨n, hcode⟩ := (hs.owned u).code ((hs.owned u).alive hadded)
  have hcode' : ((s.engine.fire (.inr u) flags).handle (.inr u)).memory.callback = some (.user n) := by
    rw [Engine.fire_eq]
    show (update s.engine.handle (.inr u) _ (.inr u)).memory.callback = _
    rw [update_self]
    exact hcode
  simp only [dispatch, hcode']

theorem Inv.fireUser (hs : Inv s) (hadded : s.engine.added (.inr u) = true) (flags : Nat) :
    Inv { s with engine := s.engine.fire (.inr u) flags } := by
  have howned := hs.owned u
  refine hs.program (u := u) (fun k hk => (fired_other s.engine flags hk).1)
    (fun k hk => (fired_other s.engine flags hk).2) ?_ fun frame hframe => ?_
  · rw [Engine.fire_eq]
    show Owned (update s.engine.handle (.inr u) _ (.inr u)) _
    rw [update_self]
    exact ⟨fun _ => howned.alive hadded, fun hempty => howned.code hempty⟩
  · rw [Engine.fire_eq] at hframe
    obtain rfl := Option.some.inj hframe
    exact ⟨u, rfl⟩

theorem Inv.finish (hs : Inv s) {engine : Engine (O ⊕ U) (Code O)}
    (hstep : s.engine.step .finish = some engine) : Inv { s with engine } := by
  obtain ⟨frame, hframe, rfl⟩ := Option.map_eq_some_iff.mp hstep
  obtain ⟨u, hu⟩ := hs.frame frame hframe
  rw [hu]
  have howned := hs.owned u
  refine hs.program (u := u) (fun k hk => (Engine.finish_other s.engine hk).1)
    (fun k hk => (Engine.finish_other s.engine hk).2) ?_ fun frame' hframe' => ?_
  · rw [Engine.finish_handle, Engine.finish_added]
    unfold Engine.left
    split
    · next hdeleted =>
      refine ⟨fun hadded => ?_, fun h => by cases h⟩
      rw [Bool.and_eq_true] at hadded
      have halive := howned.alive hadded.1
      simp [halive, hdeleted] at hadded
    · exact ⟨fun hadded => howned.alive (Bool.and_eq_true _ _ ▸ hadded).1, howned.code⟩
  · rw [Engine.finish_frame] at hframe'
    cases hframe'

theorem Inv.step (hs : Inv s) {l : WaitingLabel O U} (hstep : s.step kind l = some s') : Inv s' := by
  cases l with
  | start o ioHandle flags r accepted =>
    obtain ⟨⟨-, hidle⟩, hs'⟩ := Option.ite_none_right_eq_some.mp hstep
    obtain rfl := Option.some.inj hs'
    have hset : Inv (s.setOperation o { ioHandle, flags, stage := .scheduled }) :=
      hs.setOperation (fun h => by cases h) (fun h => by cases h)
    exact (poll_spec hset o r accepted).inv hset
  | run o r accepted =>
    obtain ⟨-, hs'⟩ := Option.ite_none_right_eq_some.mp hstep
    obtain rfl := Option.some.inj hs'
    exact (poll_spec hs o r accepted).inv hs
  | cancel o =>
    obtain ⟨-, hs'⟩ := Option.ite_none_left_eq_some.mp hstep
    obtain rfl := Option.some.inj hs'
    exact (finalize_spec hs o).inv hs
  | resume o e =>
    obtain rfl := Option.some.inj hstep
    exact hs.resume o e
  | user op =>
    obtain ⟨engine, hengine, rfl⟩ := Option.map_eq_some_iff.mp hstep
    exact hs.user op hengine
  | fire h flags =>
    obtain ⟨engine, hengine, rfl⟩ := Option.map_eq_some_iff.mp hstep
    obtain ⟨⟨-, hadded⟩, he⟩ := Option.ite_none_right_eq_some.mp hengine
    obtain rfl := Option.some.inj he
    cases h with
    | inl o => exact (dispatch_spec hs hadded flags).inv hs
    | inr u =>
      rw [dispatch_user kind hs hadded]
      exact hs.fireUser hadded flags
  | finish =>
    obtain ⟨engine, hengine, rfl⟩ := Option.map_eq_some_iff.mp hstep
    exact hs.finish hengine

theorem inv_init {O U : Type*} : Inv ({} : Waiting O U) where
  held _ := ⟨fun _ => rfl, fun h => (by cases h), fun h => (by cases h), fun h => (by cases h)⟩
  owned _ := ⟨fun h => (by cases h), fun h => (by cases h)⟩
  frame _ h := by cases h
  calm := rfl

/-- In every run a callback of an awaitable finds one that is awaited. A task that is suspended in one
    is waited for by an event that libevent has, if and only if `event_add` did not fail for it; and
    where nobody awaits it libevent has none. -/
theorem event_iff_awaited {ls : List (WaitingLabel O U)} (hrun : exec kind {} ls = some s) :
    s.stray = false ∧ ∀ o,
      ((s.operation o).stage = .suspended →
        (s.engine.added (.inl o) = true ↔ (s.operation o).refused = false)) ∧
      ((s.operation o).stage = .idle →
        (s.engine.handle (.inl o)).empty = true ∧ s.engine.added (.inl o) = false) := by
  have hinv : Inv s := Runs.exec_invariant (C := fun _ _ => True)
    (fun s l s' hs _ (hstep : Waiting.step kind s l = some s') => hs.step hstep) ls {} s hrun
    (Runs.meets_true ls _) inv_init
  refine ⟨hinv.calm, fun o => ⟨fun hsuspended => ?_, fun hidle => ?_⟩⟩
  · rw [(hinv.held o).suspended hsuspended, Bool.not_eq_true']
  · have hempty := (hinv.held o).idle hidle
    refine ⟨hempty, Bool.eq_false_iff.mpr fun hadded => ?_⟩
    exact absurd ((hinv.held o).alive hadded) (by simp [hempty])

/-- A callback of the program cancels a task that waits for its socket; another one sleeps on. -/
theorem event_iff_awaited_cancelled :
    ∃ s, exec (fun o => if o then .io else .sleep) ({} : Waiting Bool Unit)
        [.start true 5 EV_READ ⟨⟨EAGAIN, categoryAgain⟩, -1⟩ true, .start false 0 0 ⟨{}, 0⟩ true,
          .user (.addTimer () 1 true), .fire (.inr ()) EV_TIMEOUT, .cancel true, .finish] = some s ∧
      s.stray = false ∧ s.engine.added (.inl false) = true ∧ s.engine.added (.inl true) = false := by
  have hrun : ∃ s, exec (fun o => if o then .io else .sleep) ({} : Waiting Bool Unit)
      [.start true 5 EV_READ ⟨⟨EAGAIN, categoryAgain⟩, -1⟩ true, .start false 0 0 ⟨{}, 0⟩ true,
        .user (.addTimer () 1 true), .fire (.inr ()) EV_TIMEOUT, .cancel true, .finish] = some s ∧
      (s.operation false).stage = .suspended ∧ (s.operation false).refused = false ∧
      (s.operation true).stage = .idle := ⟨_, rfl, rfl, rfl, rfl⟩
  obtain ⟨s, hrun, hsuspended, haccepted, hidle⟩ := hrun
  obtain ⟨hcalm, hevents⟩ := event_iff_awaited hrun
  exact ⟨s, hrun, hcalm, ((hevents false).1 hsuspended).mpr haccepted, ((hevents true).2 hidle).2⟩

-- a sleep whose timer libevent has refused: nothing can happen any more but a cancel or a resume
example : (exec (fun _ => .sleep) ({} : Waiting Unit Unit) [.start () 0 0 ⟨{}, 0⟩ false]).map
    (fun s => ((s.operation ()).stage, s.engine.added (.inl ()))) = some (.suspended, false) := by decide

end Waiting

end Jinx.Libevent
