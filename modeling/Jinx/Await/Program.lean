import Jinx.Await.Machine
import Mathlib.Logic.Relation

/-! Programs of non-pausable awaitables, and what they mean.

    A program is a finite tree: what the next poll of a frame does, and what its `handle_error` does
    when the callee it awaits raises, or when it throws itself. `drive` runs a program on the machine:
    user code follows the tree, the scheduler resumes the task whenever it has stopped, and the
    library ticks. `eval` is the meaning of the tree, with no stack, no `_top` and no scheduler: the
    callee's events come between those of its caller.

    A callback that suspends or yields is polled again later; `visible` leaves such polls out. -/

namespace Jinx.Await

/-- How a callback waits. After a yield the loop goes on with the task, or switches to another one
    and schedules the task again. -/
inductive Wait where
  | suspend
  | yield (switched : Bool)
  deriving DecidableEq, Repr

mutual

/-- What the next polls of a frame do. -/
inductive Code where
  | ret
  | throw (e : Error) (he : e.isSet = true) (h : Handler)
  | await (callee : Code) (next : Code) (h : Error → Handler)
  | wait (w : Wait) (next : Code)

/-- What `handle_error` does, and the polls after it. -/
inductive Handler where
  | propagate
  | ret
  | await (callee : Code) (next : Code) (h : Error → Handler)

end

mutual

/-- The same program, in which every callee finishes inside `async_call`. -/
def Code.inline : Code → Code
  | .ret => .ret
  | .throw e he h => .throw e he h.inline
  | .await callee next h => .await callee.inline next.inline fun e => (h e).inline
  | .wait _ next => next.inline

def Handler.inline : Handler → Handler
  | .propagate => .propagate
  | .ret => .ret
  | .await callee next h => .await callee.inline next.inline fun e => (h e).inline

end

/-! ### The meaning of a program -/

/-- What a frame has done when it is finished: its events, the error it raised, and the number of
    the next awaitable. -/
structure Outcome where
  events : List Event
  error : Option Error
  fresh : ObjId

/-- Events that come before. -/
def Outcome.after (es : List Event) (o : Outcome) : Outcome := { o with events := es ++ o.events }

mutual

/-- The frame `f` is polled. Its callees get the numbers from `n` on. -/
def Code.eval : Code → ObjId → Routine → ObjId → Outcome
  | .ret, f, r, n => ⟨[.polled f r, .finalized f], none, n⟩
  | .throw e _ h, f, r, n => (h.eval e f n).after [.polled f r, .handled f e]
  | .await callee next h, f, r, n =>
    let o := callee.eval n .start (n + 1)
    let rest := match o.error with
      | none => next.eval f .later o.fresh
      | some e => ((h e).eval e f o.fresh).after [.handled f e]
    rest.after (.polled f r :: .called (.obj f) n :: o.events)
  | .wait _ next, f, r, n => (next.eval f r n).after [.polled f r, .waited f]

/-- `handle_error` of the frame `f` is called with `e`. -/
def Handler.eval : Handler → Error → ObjId → ObjId → Outcome
  | .propagate, e, f, n => ⟨[.raised f e, .finalized f], some e, n⟩
  | .ret, _, f, n => ⟨[.finalized f], none, n⟩
  | .await callee next h, _, f, n =>
    let o := callee.eval n .start (n + 1)
    let rest := match o.error with
      | none => next.eval f .later o.fresh
      | some e => ((h e).eval e f o.fresh).after [.handled f e]
    rest.after (.called (.obj f) n :: o.events)

end

/-- What an await of the callee leads to. -/
def awaited (callee next : Code) (h : Error → Handler) (f n : ObjId) : Outcome :=
  let o := callee.eval n .start (n + 1)
  let rest := match o.error with
    | none => next.eval f .later o.fresh
    | some e => ((h e).eval e f o.fresh).after [.handled f e]
  rest.after (.called (.obj f) n :: o.events)

theorem Code.eval_await (callee next : Code) (h : Error → Handler) (f : ObjId) (r : Routine)
    (n : ObjId) : (Code.await callee next h).eval f r n =
      (awaited callee next h f n).after [.polled f r] := by
  simp [Code.eval, awaited, Outcome.after]

theorem Handler.eval_await (callee next : Code) (h : Error → Handler) (e : Error) (f n : ObjId) :
    (Handler.await callee next h).eval e f n = awaited callee next h f n := by
  simp [Handler.eval, awaited]

/-! ### Observations -/

/-- The event is added to a log; a wait takes back the poll it ends. -/
def observe : Event → List Event → List Event
  | .waited _, .polled _ _ :: l => l
  | e, l => e :: l

/-- A log, the latest event first, without the polls that ended by waiting. -/
def visible (log : List Event) : List Event := log.foldr observe []

/-- `o'` is what is visible of `o`. -/
structure Outcome.Visible (o o' : Outcome) : Prop where
  error : o'.error = o.error
  fresh : o'.fresh = o.fresh
  events : ∀ log, visible (o.events.reverse ++ log) = o'.events.reverse ++ visible log
  waits : ∀ f, .waited f ∉ o'.events

theorem Outcome.Visible.after {o o' : Outcome} (h : o.Visible o') (es es' : List Event)
    (hes : ∀ log, visible (es.reverse ++ log) = es'.reverse ++ visible log)
    (hwaits : ∀ f, .waited f ∉ es') : (o.after es).Visible (o'.after es') where
  error := h.error
  fresh := h.fresh
  events log := by simp [Outcome.after, h.events, hes]
  waits f := by simp [Outcome.after, h.waits, hwaits]

theorem awaited_visible {callee next callee' next' : Code} {g g' : Error → Handler} {f n : ObjId}
    (hcallee : ∀ f r n, (callee.eval f r n).Visible (callee'.eval f r n))
    (hnext : ∀ f r n, (next.eval f r n).Visible (next'.eval f r n))
    (hg : ∀ e f n, ((g e).eval e f n).Visible ((g' e).eval e f n)) :
    (awaited callee next g f n).Visible (awaited callee' next' g' f n) := by
  have hc := hcallee n .start (n + 1)
  have hes : ∀ log, visible ((.called (.obj f) n :: (callee.eval n .start (n + 1)).events).reverse ++
      log) = (.called (.obj f) n :: (callee'.eval n .start (n + 1)).events).reverse ++ visible log := by
    intro log
    rw [List.reverse_cons, List.reverse_cons, List.append_assoc, List.append_assoc]
    exact hc.events (.called (.obj f) n :: log)
  have hwaits : ∀ k, .waited k ∉ .called (.obj f) n :: (callee'.eval n .start (n + 1)).events := by
    simp [hc.waits]
  unfold awaited
  dsimp only
  rw [hc.error, hc.fresh]
  cases (callee.eval n .start (n + 1)).error with
  | none => exact (hnext f .later _).after _ _ hes hwaits
  | some e => exact ((hg e f _).after [.handled f e] [.handled f e] (fun _ => rfl) (by simp)).after _ _ hes hwaits

mutual

/-- All that is visible of a program is what its inline version does. -/
theorem Code.eval_visible : ∀ (c : Code) (f : ObjId) (r : Routine) (n : ObjId),
    (c.eval f r n).Visible (c.inline.eval f r n)
  | .ret, f, r, n => ⟨rfl, rfl, fun _ => rfl, by simp [Code.inline, Code.eval]⟩
  | .throw e he h, f, r, n => (Handler.eval_visible h e f n).after _ _ (fun _ => rfl) (by simp)
  | .await callee next h, f, r, n => by
    rw [Code.inline, Code.eval_await, Code.eval_await]
    exact (awaited_visible (Code.eval_visible callee) (Code.eval_visible next)
      fun e => Handler.eval_visible (h e) e).after _ _ (fun _ => rfl) (by simp)
  | .wait w next, f, r, n =>
    (Code.eval_visible next f r n).after _ [] (fun _ => rfl) (by simp)

theorem Handler.eval_visible : ∀ (h : Handler) (e : Error) (f n : ObjId),
    (h.eval e f n).Visible (h.inline.eval e f n)
  | .propagate, e, f, n => ⟨rfl, rfl, fun _ => rfl, by simp [Handler.inline, Handler.eval]⟩
  | .ret, e, f, n => ⟨rfl, rfl, fun _ => rfl, by simp [Handler.inline, Handler.eval]⟩
  | .await callee next h, e, f, n => by
    rw [Handler.inline, Handler.eval_await, Handler.eval_await]
    exact awaited_visible (Code.eval_visible callee) (Code.eval_visible next)
      fun e => Handler.eval_visible (h e) e

end

/-! ### Running a program -/

/-- The machine with the program of each frame: what its next poll and its `handle_error` do. -/
structure Config where
  m : Machine
  code : ObjId → Code
  onError : ObjId → Error → Handler
  fresh : ObjId
  wait : Wait := .suspend

namespace Config

/-- A step of the machine that concerns no program. -/
def take (c : Config) (l : Label) : Option Config := (c.m.step l).map fun m => { c with m := m }

/-- The frame `f` awaits a new awaitable that runs `callee`. -/
def callNew (c : Config) (f : ObjId) (callee next : Code) (h : Error → Handler) : Option Config :=
  (c.take (.act (.call c.fresh))).map fun d =>
    { d with
      code := Function.update (Function.update d.code f next) c.fresh callee
      onError := Function.update d.onError f h
      fresh := c.fresh + 1 }

/-- The scheduler gets the task to run again: a suspended task is resumed by an event, one that has
    yielded is scheduled if the loop switched to another task, and both are run then. -/
def schedule (c : Config) : Option Config :=
  match c.m.state, c.wait with
  | .ready, _ => c.take .run
  | .suspended, _ => c.take (.resume {})
  | .yield, .yield false => c.take .run
  | .yield, _ => c.take (.resume {})
  | _, _ => none

/-- The callback of `f` does what its program says. -/
def driveCode (c : Config) (f : ObjId) : Code → Option Config
  | .ret => c.take (.act .ret)
  | .throw e _ h => (c.take (.act (.throw e))).map fun d =>
      { d with onError := Function.update d.onError f fun _ => h }
  | .await callee next h => c.callNew f callee next h
  | .wait w next => (c.take (.act (if w = .suspend then .suspend else .yield))).map fun d =>
      { d with code := Function.update d.code f next, wait := w }

/-- `handle_error` of `f` does what its program says. -/
def driveHandler (c : Config) (f : ObjId) : Handler → Option Config
  | .propagate => c.take (.act .propagate)
  | .ret => c.take (.act .ret)
  | .await callee next h => c.callNew f callee next h

/-- One step of the program. -/
def drive (c : Config) : Option Config :=
  match c.m.ctl, c.m.stack with
  | .polling, a :: _ => c.driveCode a.self (c.code a.self)
  | .handling, ⟨f, some e⟩ :: _ => c.driveHandler f (c.onError f e)
  | .handling, _ => none
  | .stopped, _ => c.schedule
  | _, _ => c.take .tick

/-- `d` is reached from `c`. -/
def Reaches : Config → Config → Prop := Relation.ReflTransGen fun c d => c.drive = some d

/-- The entry `0` of a task that was spawned just now runs `p`. -/
def init (p : Code) : Config where
  m := (Machine.init fun _ => false).spawn 0
  code := fun _ => p
  onError := fun _ _ => .propagate
  fresh := 1

end Config

end Jinx.Await
