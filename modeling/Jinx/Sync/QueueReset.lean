import Jinx.BackList
import Jinx.Sync.Spurious

/-! `reset` of both queues, on the pointers of their lists.

    `reset` is the only operation that goes through the lists from `_head`, so here the lists are those of
    `linkedlist.hpp`, and a `Get` or a `Put` has the `_error` of its `Awaitable` and the one of its task.
    Everything else does what it does on the lists of `Queue` (`Refines`). -/

namespace Jinx.Sync

variable {α : Type*}

/-- A `Get` with `_error`, and the `_error` of the task that awaits it. -/
structure RawGet (α : Type*) extends Get α where
  error : Error := {}
  taskError : Error := {}

/-- A `Put` with `_error`, and the `_error` of the task that awaits it. -/
structure RawPut (α : Type*) extends Put α where
  error : Error := {}
  taskError : Error := {}

/-- `async_resume(error)`: the error goes to the task, if the task is suspended. -/
def RawGet.asyncResume (x : RawGet α) (e : Error) : RawGet α :=
  { x with stage := x.stage.resume, taskError := if x.stage = .suspended then e else x.taskError }

def RawPut.asyncResume (x : RawPut α) (e : Error) : RawPut α :=
  { x with stage := x.stage.resume, taskError := if x.stage = .suspended then e else x.taskError }

/-- A `Queue` or `Queue2` with every `Get` and `Put` that is used with it; `cancelledGet` and
    `cancelledPut` are those that `reset` has cancelled, one entry for each time. -/
structure RawQueue (α : Type*) extends QueueBase α where
  pendingGet : Nodes Id Unit := {}
  pendingPut : Nodes Id Unit := {}
  get : Id → RawGet α := fun _ => {}
  put : Id → RawPut α := fun _ => {}
  cancelledGet : List Id := []
  cancelledPut : List Id := []

namespace RawQueue

def modifyGet (s : RawQueue α) (i : Id) (f : RawGet α → RawGet α) : RawQueue α :=
  { s with get := Function.update s.get i (f (s.get i)) }

def modifyPut (s : RawQueue α) (i : Id) (f : RawPut α → RawPut α) : RawQueue α :=
  { s with put := Function.update s.put i (f (s.put i)) }

/-- `emplace_result` of a `Get`. -/
def emplaceGet (s : RawQueue α) (g : Id) (v : α) : RawQueue α :=
  s.modifyGet g fun x => { x with result := some v }.asyncResume {}

/-- `emplace_result` of a `Put`. -/
def emplacePut (s : RawQueue α) (p : Id) : RawQueue α :=
  s.modifyPut p fun x => { x with result := true }.asyncResume {}

/-! ### `Get` and `Put` -/

/-- `Get::operator()`. -/
def operatorGet (s : RawQueue α) (i : Id) : RawQueue α := s.modifyGet i fun x => { x with result := none }

/-- `Put::operator()`. -/
def operatorPut (s : RawQueue α) (i : Id) (v : α) : RawQueue α :=
  s.modifyPut i fun x => { x with value := some v, result := false }

/-- `erase`, of a node that is inserted. -/
def unlink (m : Nodes Id Unit) (i : Id) : Option (Nodes Id Unit) :=
  if m.isInserted i then (m.erase () i).map Prod.fst else some m

/-- `Get::async_finalize`. -/
def finalizeGet (s : RawQueue α) (i : Id) : Option (RawQueue α) :=
  (unlink s.pendingGet i).map fun m => { s with pendingGet := m }.modifyGet i fun x => { x with error := {} }

/-- `Put::async_finalize`. -/
def finalizePut (s : RawQueue α) (i : Id) : Option (RawQueue α) :=
  (unlink s.pendingPut i).map fun m =>
    { s with pendingPut := m }.modifyPut i fun x => { x with value := none, error := {} }

/-- `Get::async_poll` and `Queue2::get`, where the container and the pending puts are empty. -/
def starve (s : RawQueue α) (i : Id) : RawQueue α × Async :=
  match s.pendingGet.pushBack () i with
  | (_, .failed) => (s, .thrown ErrorQueue.pendingGetError.error)
  | (m, .successful) => ({ s with pendingGet := m }, .suspended)

/-- `Get::async_poll` of `Queue`; `none` where it follows a null pointer, or reads a `Put` that has no
    value. -/
def pollGet (s : RawQueue α) (i : Id) : Option (RawQueue α × Async) :=
  if (s.get i).result.isSome then some (s, .returned)
  else
    match s.container with
    | v :: rest => some ({ s.emplaceGet i v with container := rest }, .returned)
    | [] =>
      if s.pendingPut.size () = 0 then some (s.starve i)
      else
        match s.pendingPut.back () with
        | .node p =>
          (s.pendingPut.popBack ()).bind fun m => (s.put p).value.map fun v =>
            (({ s with pendingPut := m.1 }.emplaceGet i v).emplacePut p, .returned)
        | _ => none

/-- `Queue2::get`, and `Get::async_poll` around it. -/
def pollGet2 (s : RawQueue α) (i : Id) : Option (RawQueue α × Async) :=
  if (s.get i).result.isSome then some (s, .returned)
  else
    match s.container with
    | v :: rest => some ({ s.emplaceGet i v with container := rest }, .returned)
    | [] =>
      if s.pendingPut.size () = 0 then some (s.starve i)
      else
        match s.pendingPut.back () with
        | .node p =>
          (s.put p).value.bind fun v =>
            let s := (s.emplacePut p).emplaceGet i v
            (s.pendingPut.popBack ()).map fun m => ({ s with pendingPut := m.1 }, .returned)
        | _ => none

/-- The order in which `Queue2::get` completes the `Put` and the `Get` makes no difference. -/
theorem pollGet2_eq (r : RawQueue α) (i : Id) : r.pollGet2 i = r.pollGet i := by
  unfold pollGet2 pollGet
  split
  · rfl
  cases r.container with
  | cons v rest => rfl
  | nil =>
    dsimp only
    split
    · rfl
    cases r.pendingPut.back () with
    | null | fin => rfl
    | node p =>
      dsimp only
      cases hv : (r.put p).value <;> cases hm : r.pendingPut.popBack () <;>
        simp [emplaceGet, emplacePut, modifyGet, modifyPut, hm]

/-- The end of both `put`s: the value is stored, or the `Put` waits. -/
def store (s : RawQueue α) (i : Id) : Option (RawQueue α × Async) :=
  if s.full then
    match s.pendingPut.pushBack () i with
    | (_, .failed) => some (s, .thrown ErrorQueue.pendingPutError.error)
    | (m, .successful) => some ({ s with pendingPut := m }, .suspended)
  else
    (s.put i).value.map fun v => ({ s with container := s.container ++ [v] }.emplacePut i, .returned)

/-- `Put::async_poll` of `Queue`. -/
def pollPut (s : RawQueue α) (i : Id) : Option (RawQueue α × Async) :=
  if (s.put i).result then some (s, .returned)
  else if s.pendingGet.size () = 0 then s.store i
  else
    match s.pendingGet.back () with
    | .node g =>
      (s.pendingGet.popBack ()).bind fun m => (s.put i).value.map fun v =>
        (({ s with pendingGet := m.1 }.emplaceGet g v).emplacePut i, .returned)
    | _ => none

/-- The loop of `Queue2::put`; it gives up after a number of rounds. -/
def serve (i : Id) : Nat → RawQueue α → Option (RawQueue α × Async)
  | 0, s => if s.pendingGet.size () = 0 then s.store i else none
  | fuel + 1, s =>
    if s.pendingGet.size () = 0 then s.store i
    else
      match s.pendingGet.back () with
      | .node g =>
        (s.pendingGet.popBack ()).bind fun m =>
          let s := { s with pendingGet := m.1 }
          match s.container with
          | [] => (s.put i).value.map fun v => ((s.emplacePut i).emplaceGet g v, .returned)
          | v :: rest => serve i fuel { s.emplaceGet g v with container := rest }
      | _ => none

/-- `Queue2::put`, and `Put::async_poll` around it. -/
def pollPut2 (s : RawQueue α) (i : Id) : Option (RawQueue α × Async) :=
  if (s.put i).result then some (s, .returned) else serve i (s.pendingGet.size ()).toNat s

def asyncPollGet : QueueKind → RawQueue α → Id → Option (RawQueue α × Async)
  | .queue => pollGet
  | .queue2 => pollGet2

def asyncPollPut : QueueKind → RawQueue α → Id → Option (RawQueue α × Async)
  | .queue => pollPut
  | .queue2 => pollPut2

/-- `Awaitable::run` of a `Get`: what is in `_error` is raised, else it is polled. -/
def runGet (k : QueueKind) (s : RawQueue α) (i : Id) : Option (RawQueue α × Async) :=
  if (s.get i).error.isSet then some (s, .thrown (s.get i).error) else asyncPollGet k s i

/-- `Awaitable::run` of a `Put`. -/
def runPut (k : QueueKind) (s : RawQueue α) (i : Id) : Option (RawQueue α × Async) :=
  if (s.put i).error.isSet then some (s, .thrown (s.put i).error) else asyncPollPut k s i

/-! ### `reset` -/

/-- `async_resume` with `ErrorAwaitable::Cancelled`, and `queue2_cancel_pending_get`. -/
def cancelGet (s : RawQueue α) (i : Id) : RawQueue α :=
  { s with cancelledGet := i :: s.cancelledGet }.modifyGet i fun x => x.asyncResume (makeError .cancelled)

def cancelPut (s : RawQueue α) (i : Id) : RawQueue α :=
  { s with cancelledPut := i :: s.cancelledPut }.modifyPut i fun x => x.asyncResume (makeError .cancelled)

/-- `_pending_get.for_each`. -/
def cancelGets (s : RawQueue α) : Option (RawQueue α) :=
  Nodes.forEach pendingGet (fun s i => some (cancelGet s i)) () s

def cancelPuts (s : RawQueue α) : Option (RawQueue α) :=
  Nodes.forEach pendingPut (fun s i => some (cancelPut s i)) () s

/-- `_pending_get.clear`. -/
def clearGets (s : RawQueue α) : Option (RawQueue α) :=
  (s.pendingGet.clear ()).map fun m => { s with pendingGet := m }

def clearPuts (s : RawQueue α) : Option (RawQueue α) :=
  (s.pendingPut.clear ()).map fun m => { s with pendingPut := m }

/-- `Queue::reset` and `Queue2::reset`. -/
def reset : QueueKind → RawQueue α → Option (RawQueue α)
  | .queue, s =>
    s.cancelGets.bind fun s => s.cancelPuts.bind fun s => s.clearGets.bind fun s =>
      s.clearPuts.map fun s => { s with container := [] }
  | .queue2, s =>
    s.cancelGets.bind fun s => s.clearGets.bind fun s => s.cancelPuts.bind fun s =>
      s.clearPuts.map fun s => { s with container := [] }

/-! ### Runs -/

/-- What the answer means for the task. -/
def answerGet (i : Id) : RawQueue α × Async → Option (RawQueue α)
  | (s, .returned) => (s.finalizeGet i).map fun s => s.modifyGet i fun x => { x with stage := .returned }
  | (s, .suspended) => some (s.modifyGet i fun x => { x with stage := .suspended })
  | (s, .thrown _) => (s.finalizeGet i).map fun s => s.modifyGet i fun x => { x with stage := .idle }

def answerPut (i : Id) : RawQueue α × Async → Option (RawQueue α)
  | (s, .suspended) => some (s.modifyPut i fun x => { x with stage := .suspended })
  | (s, _) => (s.finalizePut i).map fun s => s.modifyPut i fun x => { x with stage := .idle }

end RawQueue

/-- What can happen: an operation, somebody resumes a task that is in a `Get` or a `Put`, a reset. -/
inductive ResetOp (α : Type*) where
  | op (a : QueueOp α)
  | resume (i : Id ⊕ Id) (e : Error)
  | reset
  deriving DecidableEq, Repr

namespace RawQueue

def stepOp (k : QueueKind) (s : RawQueue α) : QueueOp α → Option (RawQueue α)
  | .put i v =>
    if (s.put i).stage = .idle then (runPut k (s.operatorPut i v) i).bind (answerPut i) else none
  | .get i => if (s.get i).stage = .idle then (runGet k (s.operatorGet i) i).bind (answerGet i) else none
  | .runPut i => if (s.put i).stage = .scheduled then (runPut k s i).bind (answerPut i) else none
  | .runGet i => if (s.get i).stage = .scheduled then (runGet k s i).bind (answerGet i) else none
  | .read i =>
    if (s.get i).stage = .returned then
      (s.get i).result.map fun _ => s.modifyGet i fun x => { x with stage := .idle }
    else none
  | .cancelPut i =>
    if (s.put i).stage = .suspended ∨ (s.put i).stage = .scheduled then
      (s.finalizePut i).map fun s => s.modifyPut i fun x => { x with stage := .idle }
    else none
  | .cancelGet i =>
    if (s.get i).stage = .suspended ∨ (s.get i).stage = .scheduled then
      (s.finalizeGet i).map fun s => s.modifyGet i fun x => { x with stage := .idle }
    else none

def step (k : QueueKind) (s : RawQueue α) : ResetOp α → Option (RawQueue α)
  | .op a => s.stepOp k a
  | .resume (.inl i) e => some (s.modifyGet i fun x => x.asyncResume e)
  | .resume (.inr i) e => some (s.modifyPut i fun x => x.asyncResume e)
  | .reset => s.reset k

abbrev exec (k : QueueKind) : RawQueue α → List (ResetOp α) → Option (RawQueue α) := Runs.exec (step k)

/-- A queue that was just constructed. -/
def init (maxSize : Int) : RawQueue α := { maxSize }

end RawQueue

/-! ### The queue on lists -/

/-- A task is in the `Get` or `Put`: suspended, or in the ready list. -/
def Stage.Waits (st : Stage) : Prop := st = .suspended ∨ st = .scheduled

theorem Stage.Waits.resume_eq {st : Stage} (h : st.Waits) : st.resume = .scheduled := by
  rcases h with rfl | rfl <;> rfl

theorem Stage.Waits.resume {st : Stage} (h : st.Waits) : st.resume.Waits := .inr h.resume_eq

namespace Queue

variable {k : QueueKind} {s t u : Queue α} {i j g : Id} {v : α} {a : Async}

/-- What waits in a list is awaited by a task that is suspended, or in the ready list. -/
structure Parked (s : Queue α) : Prop where
  get : ∀ i ∈ s.pendingGet, (s.get i).stage.Waits
  put : ∀ i ∈ s.pendingPut, (s.put i).stage.Waits

/-- Nothing is added to the lists, and every `Get` and `Put` that is awaited goes on to be. -/
structure Keeps (s t : Queue α) : Prop where
  pendingGet : t.pendingGet.Sublist s.pendingGet
  pendingPut : t.pendingPut.Sublist s.pendingPut
  get : ∀ i, (s.get i).stage.Waits → (t.get i).stage.Waits
  put : ∀ i, (s.put i).stage.Waits → (t.put i).stage.Waits

theorem Keeps.refl (s : Queue α) : Keeps s s := ⟨.refl _, .refl _, fun _ => id, fun _ => id⟩

theorem Keeps.trans (h : Keeps s t) (h' : Keeps t u) : Keeps s u :=
  ⟨h'.pendingGet.trans h.pendingGet, h'.pendingPut.trans h.pendingPut,
    fun i hi => h'.get i (h.get i hi), fun i hi => h'.put i (h.put i hi)⟩

theorem Keeps.parked (h : Keeps s t) (hs : s.Parked) : t.Parked where
  get i hi := h.get i (hs.get i (h.pendingGet.subset hi))
  put i hi := h.put i (hs.put i (h.pendingPut.subset hi))

/-- A resume, and what else is written into a record. -/
theorem Keeps.modifyGet {f : Get α → Get α} (hf : ∀ x, x.stage.Waits → (f x).stage.Waits) (i : Id) :
    Keeps s (s.modifyGet i f) := by
  refine ⟨.refl _, .refl _, fun j hj => ?_, fun _ => id⟩
  by_cases hji : j = i
  · subst hji
    simpa [Queue.modifyGet] using hf _ hj
  · simpa [Queue.modifyGet, hji] using hj

theorem Keeps.modifyPut {f : Put α → Put α} (hf : ∀ x, x.stage.Waits → (f x).stage.Waits) (i : Id) :
    Keeps s (s.modifyPut i f) := by
  refine ⟨.refl _, .refl _, fun _ => id, fun j hj => ?_⟩
  by_cases hji : j = i
  · subst hji
    simpa [Queue.modifyPut] using hf _ hj
  · simpa [Queue.modifyPut, hji] using hj

theorem Keeps.emplaceGet (s : Queue α) (g : Id) (v : α) : Keeps s (s.emplaceGet g v) := by
  have h : Keeps s (s.modifyGet g fun x => { x with result := some v, stage := x.stage.resume }) :=
    .modifyGet (fun _ => Stage.Waits.resume) g
  exact ⟨h.pendingGet, h.pendingPut, h.get, h.put⟩

theorem Keeps.emplacePut (s : Queue α) (p : Id) (v : α) : Keeps s (s.emplacePut p v) := by
  have h : Keeps s (s.modifyPut p fun x => { x with result := true, stage := x.stage.resume }) :=
    .modifyPut (fun _ => Stage.Waits.resume) p
  exact ⟨h.pendingGet, h.pendingPut, h.get, h.put⟩

/-- A poll suspends a `Get` that it has added to the list, or adds nothing. -/
theorem pollGet_keeps (h : s.pollGet i = some (t, a)) :
    a ≠ .suspended ∧ Keeps s t ∨
      a = .suspended ∧ i ∉ s.pendingGet ∧ t = { s with pendingGet := s.pendingGet ++ [i] } := by
  unfold pollGet at h
  split at h
  · obtain ⟨rfl, rfl⟩ := Prod.mk.inj (Option.some.inj h)
    exact .inl ⟨by simp, .refl s⟩
  split at h
  · next v rest _ =>
    obtain ⟨rfl, rfl⟩ := Prod.mk.inj (Option.some.inj h)
    have hk := Keeps.emplaceGet s i v
    exact .inl ⟨by simp, hk.pendingGet, hk.pendingPut, hk.get, hk.put⟩
  split at h
  · next p _ =>
    obtain ⟨v, -, hv⟩ := Option.map_eq_some_iff.mp h
    obtain ⟨rfl, rfl⟩ := Prod.mk.inj hv
    have hdrop : Keeps s { s with pendingPut := s.pendingPut.dropLast } :=
      ⟨.refl _, List.dropLast_sublist _, fun _ => id, fun _ => id⟩
    exact .inl ⟨by simp, (hdrop.trans (.emplaceGet _ i v)).trans (.emplacePut _ p v)⟩
  by_cases hmem : i ∈ s.pendingGet
  · rw [LinkedList.pushBack_of_mem hmem] at h
    obtain ⟨rfl, rfl⟩ := Prod.mk.inj (Option.some.inj h)
    exact .inl ⟨by simp, .refl s⟩
  · rw [LinkedList.pushBack_of_not_mem hmem] at h
    obtain ⟨rfl, rfl⟩ := Prod.mk.inj (Option.some.inj h)
    exact .inr ⟨rfl, hmem, rfl⟩

/-- What `store` and the loop before it do: the `Put` is suspended in the list, or nothing is added. -/
def PutKeeps (s : Queue α) (i : Id) (r : Queue α × Async) : Prop :=
  r.2 ≠ .suspended ∧ Keeps s r.1 ∨
    r.2 = .suspended ∧ ∃ u, Keeps s u ∧ i ∉ u.pendingPut ∧ r.1 = { u with pendingPut := u.pendingPut ++ [i] }

theorem PutKeeps.of_keeps {r : Queue α × Async} (h : PutKeeps t i r) (hk : Keeps s t) : PutKeeps s i r :=
  h.imp (fun ⟨ha, ht⟩ => ⟨ha, hk.trans ht⟩) fun ⟨ha, u, hu, hi, hr⟩ => ⟨ha, u, hk.trans hu, hi, hr⟩

theorem store_keeps {r : Queue α × Async} (h : s.store i = some r) : PutKeeps s i r := by
  unfold store at h
  split at h
  · by_cases hmem : i ∈ s.pendingPut
    · rw [LinkedList.pushBack_of_mem hmem] at h
      obtain rfl := Option.some.inj h
      exact .inl ⟨by simp, .refl s⟩
    · rw [LinkedList.pushBack_of_not_mem hmem] at h
      obtain rfl := Option.some.inj h
      exact .inr ⟨rfl, s, .refl s, hmem, rfl⟩
  · obtain ⟨v, -, rfl⟩ := Option.map_eq_some_iff.mp h
    have hadd : Keeps s { s with container := s.container ++ [v] } := ⟨.refl _, .refl _, fun _ => id, fun _ => id⟩
    exact .inl ⟨by simp, hadd.trans (.emplacePut _ i v)⟩

theorem Keeps.dropGet (s : Queue α) : Keeps s { s with pendingGet := s.pendingGet.dropLast } :=
  ⟨List.dropLast_sublist _, .refl _, fun _ => id, fun _ => id⟩

theorem pollPut_keeps {r : Queue α × Async} (h : s.pollPut i = some r) : PutKeeps s i r := by
  unfold pollPut at h
  split at h
  · obtain rfl := Option.some.inj h
    exact .inl ⟨by simp, .refl s⟩
  split at h
  · next g _ =>
    obtain ⟨v, -, rfl⟩ := Option.map_eq_some_iff.mp h
    exact .inl ⟨by simp, ((Keeps.dropGet s).trans (.emplaceGet _ g v)).trans (.emplacePut _ i v)⟩
  · exact store_keeps h

theorem serve_keeps {r : Queue α × Async} (gs : List Id) (h : s.serve i gs = some r) :
    PutKeeps s i r := by
  induction gs generalizing s with
  | nil => exact store_keeps h
  | cons g gs ih =>
    unfold serve at h
    cases hc : s.container with
    | nil =>
      simp only [hc] at h
      obtain ⟨v, -, rfl⟩ := Option.map_eq_some_iff.mp h
      exact .inl ⟨by simp, ((Keeps.dropGet s).trans (.emplacePut _ i v)).trans (.emplaceGet _ g v)⟩
    | cons v rest =>
      simp only [hc] at h
      have hk := (Keeps.dropGet s).trans (.emplaceGet _ g v)
      exact (ih h).of_keeps ⟨hk.pendingGet, hk.pendingPut, hk.get, hk.put⟩

theorem asyncPollPut_keeps {r : Queue α × Async} (h : asyncPollPut k s i = some r) : PutKeeps s i r := by
  cases k with
  | queue => exact pollPut_keeps h
  | queue2 =>
    change pollPut2 s i = some r at h
    unfold pollPut2 at h
    split at h
    · obtain rfl := Option.some.inj h
      exact .inl ⟨by simp, .refl s⟩
    · exact serve_keeps _ h

theorem Parked.leaveGet (h : s.Parked) (hnodup : s.pendingGet.Nodup) (f : Get α → Get α) :
    ((s.finalizeGet i).modifyGet i f).Parked := by
  refine ⟨fun j hj => ?_, h.put⟩
  have hj : j ≠ i ∧ j ∈ s.pendingGet := by
    simpa [modifyGet, finalizeGet, hnodup.mem_erase_iff] using hj
  simpa [modifyGet, finalizeGet, hj.1] using h.get j hj.2

theorem Parked.leavePut (h : s.Parked) (hnodup : s.pendingPut.Nodup) (f : Put α → Put α) :
    ((s.finalizePut i).modifyPut i f).Parked := by
  refine ⟨h.get, fun j hj => ?_⟩
  have hj : j ≠ i ∧ j ∈ s.pendingPut := by
    simpa [modifyPut, finalizePut, hnodup.mem_erase_iff] using hj
  simpa [modifyPut, finalizePut, hj.1] using h.put j hj.2

theorem Parked.answerGet (h : s.Parked) (hnodup : s.pendingGet.Nodup)
    (hpoll : asyncPollGet k s i = some (t, a)) : (answerGet i (t, a)).Parked := by
  rw [asyncPollGet_eq] at hpoll
  rcases pollGet_keeps hpoll with ⟨ha, hk⟩ | ⟨rfl, hi, rfl⟩
  · have hleave := (hk.parked h).leaveGet (i := i) (hnodup.sublist hk.pendingGet)
    cases a with
    | suspended => exact absurd rfl ha
    | returned => exact hleave fun x => { x with stage := .returned }
    | thrown => exact hleave fun x => { x with stage := .idle }
  · refine ⟨fun j hj => ?_, h.put⟩
    by_cases hji : j = i
    · simp [Queue.answerGet, modifyGet, hji, Stage.Waits]
    · have hmem : j ∈ s.pendingGet := by simpa [Queue.answerGet, modifyGet, hji] using hj
      simpa [Queue.answerGet, modifyGet, hji] using h.get j hmem

theorem Parked.answerPut (h : s.Parked) (hnodup : s.pendingPut.Nodup)
    (hpoll : asyncPollPut k s i = some (t, a)) : (answerPut i (t, a)).Parked := by
  rcases asyncPollPut_keeps hpoll with ⟨ha, hk⟩ | ⟨rfl, u, hk, hi, rfl⟩
  · have hleave := (hk.parked h).leavePut (i := i) (hnodup.sublist hk.pendingPut)
    cases a with
    | suspended => exact absurd rfl ha
    | returned | thrown => exact hleave fun x => { x with stage := .idle }
  · have hu := hk.parked h
    refine ⟨hu.get, fun j hj => ?_⟩
    by_cases hji : j = i
    · simp [Queue.answerPut, modifyPut, hji, Stage.Waits]
    · have hmem : j ∈ u.pendingPut := by simpa [Queue.answerPut, modifyPut, hji] using hj
      simpa [Queue.answerPut, modifyPut, hji] using hu.put j hmem

theorem Parked.step {op : QueueOp α} (h : s.Parked) (hg : s.pendingGet.Nodup) (hp : s.pendingPut.Nodup)
    (ht : step k s op = some t) : t.Parked := by
  have hcases := step_cases ht
  cases op with
  | put i v =>
    obtain ⟨-, ⟨u, a⟩, hpoll, rfl⟩ := hcases
    have hk : Keeps s ((s.operatorPut i v).emit (.polled i v)) := by
      have hm : Keeps s (s.operatorPut i v) :=
        .modifyPut (f := fun x => { x with value := some v, result := false }) (fun _ => id) i
      exact ⟨hm.pendingGet, hm.pendingPut, hm.get, hm.put⟩
    exact (hk.parked h).answerPut hp hpoll
  | get i =>
    obtain ⟨-, ⟨u, a⟩, hpoll, rfl⟩ := hcases
    have hk : Keeps s (s.operatorGet i) :=
      .modifyGet (f := fun x => { x with result := none }) (fun _ => id) i
    exact (hk.parked h).answerGet hg hpoll
  | runPut i =>
    obtain ⟨-, ⟨u, a⟩, hpoll, rfl⟩ := hcases
    exact h.answerPut hp hpoll
  | runGet i =>
    obtain ⟨-, ⟨u, a⟩, hpoll, rfl⟩ := hcases
    exact h.answerGet hg hpoll
  | read i =>
    obtain ⟨hi, v, -, rfl⟩ := hcases
    refine ⟨fun j hj => ?_, h.put⟩
    have hji : j ≠ i := by
      rintro rfl
      have hw := h.get j hj
      simp [Stage.Waits, hi] at hw
    simpa [modifyGet, emit, hji] using h.get j hj
  | cancelPut i =>
    obtain ⟨-, rfl⟩ := hcases
    exact h.leavePut hp fun x => { x with stage := .idle }
  | cancelGet i =>
    obtain ⟨-, rfl⟩ := hcases
    exact h.leaveGet hg fun x => { x with stage := .idle }

end Queue

/-! ### What the pointers stand for -/

/-- The queue on pointers does what the one on lists does, and no `Get` or `Put` has an `_error`. -/
structure Refines (r : RawQueue α) (s : Queue α) : Prop where
  base : r.toQueueBase = s.toQueueBase
  pendingGet : r.pendingGet.Back s.pendingGet
  pendingPut : r.pendingPut.Back s.pendingPut
  get : ∀ i, (r.get i).toGet = s.get i
  put : ∀ i, (r.put i).toPut = s.put i
  getError : ∀ i, (r.get i).error.isSet = false
  putError : ∀ i, (r.put i).error.isSet = false

namespace Refines

variable {r r' : RawQueue α} {s s' t : Queue α} {k : QueueKind} {i j g p : Id} {v : α} {c : List α}
  {m : Nodes Id Unit} {l : List Id}

theorem init (n : Int) : Refines (RawQueue.init n : RawQueue α) (Queue.init n) :=
  ⟨rfl, Nodes.back_empty, Nodes.back_empty, fun _ => rfl, fun _ => rfl, fun _ => rfl, fun _ => rfl⟩

theorem modifyGet (h : Refines r s) (f : RawGet α → RawGet α) (g : Get α → Get α)
    (hfg : ∀ x, (f x).toGet = g x.toGet) (hf : ∀ x, x.error.isSet = false → (f x).error.isSet = false)
    (i : Id) : Refines (r.modifyGet i f) (s.modifyGet i g) := by
  refine ⟨h.base, h.pendingGet, h.pendingPut, fun j => ?_, h.put, fun j => ?_, h.putError⟩
  all_goals
    by_cases hji : j = i
    · subst hji
      simp [RawQueue.modifyGet, Queue.modifyGet, hfg, h.get, hf _ (h.getError j)]
    · simp [RawQueue.modifyGet, Queue.modifyGet, hji, h.get, h.getError]

theorem modifyPut (h : Refines r s) (f : RawPut α → RawPut α) (g : Put α → Put α)
    (hfg : ∀ x, (f x).toPut = g x.toPut) (hf : ∀ x, x.error.isSet = false → (f x).error.isSet = false)
    (i : Id) : Refines (r.modifyPut i f) (s.modifyPut i g) := by
  refine ⟨h.base, h.pendingGet, h.pendingPut, h.get, fun j => ?_, h.getError, fun j => ?_⟩
  all_goals
    by_cases hji : j = i
    · subst hji
      simp [RawQueue.modifyPut, Queue.modifyPut, hfg, h.put, hf _ (h.putError j)]
    · simp [RawQueue.modifyPut, Queue.modifyPut, hji, h.put, h.putError]

/-- The log of the queue on lists is not one of the queue on pointers. -/
theorem log (h : Refines r s) (log : List (QueueEvent α)) : Refines r { s with log := log } :=
  ⟨h.base, h.pendingGet, h.pendingPut, h.get, h.put, h.getError, h.putError⟩

theorem container (h : Refines r s) (c : List α) :
    Refines { r with container := c } { s with container := c } :=
  ⟨congrArg (fun q => { q with container := c }) h.base, h.pendingGet, h.pendingPut, h.get, h.put,
    h.getError, h.putError⟩

theorem withGets (h : Refines r s) (hm : m.Back l) :
    Refines { r with pendingGet := m } { s with pendingGet := l } :=
  ⟨h.base, hm, h.pendingPut, h.get, h.put, h.getError, h.putError⟩

theorem withPuts (h : Refines r s) (hm : m.Back l) :
    Refines { r with pendingPut := m } { s with pendingPut := l } :=
  ⟨h.base, h.pendingGet, hm, h.get, h.put, h.getError, h.putError⟩

theorem emplaceGet (h : Refines r s) (g : Id) (v : α) : Refines (r.emplaceGet g v) (s.emplaceGet g v) := by
  have hm := h.modifyGet (fun x => RawGet.asyncResume { x with result := some v } {})
    (fun x => { x with result := some v, stage := x.stage.resume }) (fun _ => rfl) (fun _ hx => hx) g
  exact hm.log _

theorem emplacePut (h : Refines r s) (p : Id) (v : α) : Refines (r.emplacePut p) (s.emplacePut p v) := by
  have hm := h.modifyPut (fun x => RawPut.asyncResume { x with result := true } {})
    (fun x => { x with result := true, stage := x.stage.resume }) (fun _ => rfl) (fun _ hx => hx) p
  exact ⟨hm.base, hm.pendingGet, hm.pendingPut, hm.get, hm.put, hm.getError, hm.putError⟩

theorem container_eq (h : Refines r s) : r.container = s.container := congrArg QueueBase.container h.base

theorem value_eq (h : Refines r s) (i : Id) : (r.put i).value = (s.put i).value :=
  congrArg Put.value (h.put i)

/-- The two polls end in related states, with the same answer. -/
def Same (x : RawQueue α × Async) (y : Queue α × Async) : Prop := Refines x.1 y.1 ∧ x.2 = y.2

theorem starve (h : Refines r s) (i : Id) :
    ∃ y, (match LinkedList.pushBack s.pendingGet i with
      | (_, .failed) => some (s, .thrown ErrorQueue.pendingGetError.error)
      | (l, .successful) => some ({ s with pendingGet := l }, .suspended)) = some y ∧
      Same (r.starve i) y := by
  unfold RawQueue.starve
  by_cases hmem : i ∈ s.pendingGet
  · rw [h.pendingGet.pushBack_failed hmem, LinkedList.pushBack_of_mem hmem]
    exact ⟨_, rfl, h, rfl⟩
  · rw [LinkedList.pushBack_of_not_mem hmem]
    obtain ⟨hok, hback⟩ := h.pendingGet.pushBack hmem
    cases hpush : r.pendingGet.pushBack () i with
    | mk m res =>
      rw [hpush] at hok hback
      obtain rfl := hok
      exact ⟨_, rfl, h.withGets hback, rfl⟩

theorem store (h : Refines r s) {x : RawQueue α × Async} (hx : r.store i = some x) :
    ∃ y, s.store i = some y ∧ Same x y := by
  have hfull : r.full = s.full := by rw [QueueBase.full, h.base]; rfl
  unfold RawQueue.store at hx
  unfold Queue.store
  rw [← hfull]
  split at hx
  · next hf =>
    rw [if_pos hf]
    by_cases hmem : i ∈ s.pendingPut
    · rw [h.pendingPut.pushBack_failed hmem] at hx
      obtain rfl := Option.some.inj hx
      rw [LinkedList.pushBack_of_mem hmem]
      exact ⟨_, rfl, h, rfl⟩
    · rw [LinkedList.pushBack_of_not_mem hmem]
      obtain ⟨hok, hback⟩ := h.pendingPut.pushBack hmem
      cases hpush : r.pendingPut.pushBack () i with
      | mk m res =>
        rw [hpush] at hok hback
        obtain rfl := hok
        rw [hpush] at hx
        obtain rfl := Option.some.inj hx
        exact ⟨_, rfl, h.withPuts hback, rfl⟩
  · next hf =>
    rw [if_neg hf]
    obtain ⟨v, hv, rfl⟩ := Option.map_eq_some_iff.mp hx
    rw [h.value_eq] at hv
    rw [hv, h.container_eq]
    exact ⟨_, rfl, (h.container _).emplacePut i v, rfl⟩

theorem pollGet (h : Refines r s) {x : RawQueue α × Async} (hx : r.pollGet i = some x) :
    ∃ y, s.pollGet i = some y ∧ Same x y := by
  have hresult : (r.get i).result = (s.get i).result := congrArg Get.result (h.get i)
  unfold RawQueue.pollGet at hx
  unfold Queue.pollGet
  rw [← hresult]
  split at hx
  · next hr =>
    obtain rfl := Option.some.inj hx
    rw [if_pos hr]
    exact ⟨_, rfl, h, rfl⟩
  · next hr =>
    rw [if_neg hr, ← h.container_eq]
    cases hc : r.container with
    | cons v rest =>
      rw [hc] at hx
      obtain rfl := Option.some.inj hx
      exact ⟨_, rfl, (h.emplaceGet i v).container rest, rfl⟩
    | nil =>
      rw [hc] at hx
      by_cases hsize : r.pendingPut.size () = 0
      · simp only [hsize, if_true] at hx
        obtain rfl := Option.some.inj hx
        have hlast : s.pendingPut.getLast? = none := by rw [h.pendingPut.size_eq_zero.mp hsize]; rfl
        rw [hlast]
        exact h.starve i
      · simp only [hsize, if_false] at hx
        obtain ⟨l, p, m, hl, hback, hpop, hm⟩ := h.pendingPut.popBack hsize
        rw [hback, hpop] at hx
        obtain ⟨v, hv, rfl⟩ := Option.map_eq_some_iff.mp hx
        rw [h.value_eq] at hv
        refine ⟨(({ s with pendingPut := l }.emplaceGet i v).emplacePut p v, .returned), by simp [hl, hv], ?_⟩
        exact ⟨((h.withPuts hm).emplaceGet i v).emplacePut p v, rfl⟩

theorem asyncPollGet (h : Refines r s) {x : RawQueue α × Async}
    (hx : RawQueue.asyncPollGet k r i = some x) : ∃ y, Queue.asyncPollGet k s i = some y ∧ Same x y := by
  rw [Queue.asyncPollGet_eq]
  cases k with
  | queue => exact h.pollGet hx
  | queue2 => exact h.pollGet (by rw [← RawQueue.pollGet2_eq]; exact hx)

theorem pollPut (h : Refines r s) {x : RawQueue α × Async} (hx : r.pollPut i = some x) :
    ∃ y, s.pollPut i = some y ∧ Same x y := by
  have hresult : (r.put i).result = (s.put i).result := congrArg Put.result (h.put i)
  unfold RawQueue.pollPut at hx
  unfold Queue.pollPut
  rw [← hresult]
  split at hx
  · next hr =>
    obtain rfl := Option.some.inj hx
    rw [if_pos hr]
    exact ⟨_, rfl, h, rfl⟩
  next hr =>
  rw [if_neg hr]
  split at hx
  · next hsize =>
    have hlast : s.pendingGet.getLast? = none := by rw [h.pendingGet.size_eq_zero.mp hsize]; rfl
    rw [hlast]
    exact h.store hx
  · next hsize =>
    obtain ⟨l, g, m, hl, hback, hpop, hm⟩ := h.pendingGet.popBack hsize
    rw [hback, hpop] at hx
    obtain ⟨v, hv, rfl⟩ := Option.map_eq_some_iff.mp hx
    rw [h.value_eq] at hv
    refine ⟨(({ s with pendingGet := l }.emplaceGet g v).emplacePut i v, .returned), by simp [hl, hv], ?_⟩
    exact ⟨((h.withGets hm).emplaceGet g v).emplacePut i v, rfl⟩

/-- The loop has as many rounds as there are waiting `Get`s. -/
theorem serve (h : Refines r s) {x : RawQueue α × Async} {fuel : Nat} (hx : r.serve i fuel = some x) :
    ∃ y, s.serve i s.pendingGet.reverse = some y ∧ Same x y := by
  induction fuel generalizing r s with
  | zero =>
    obtain ⟨hsize, hx⟩ := Option.ite_none_right_eq_some.mp hx
    rw [h.pendingGet.size_eq_zero.mp hsize]
    exact h.store hx
  | succ fuel ih =>
    unfold RawQueue.serve at hx
    split at hx
    · next hsize =>
      rw [h.pendingGet.size_eq_zero.mp hsize]
      exact h.store hx
    · next hsize =>
      obtain ⟨l, g, m, hl, hback, hpop, hm⟩ := h.pendingGet.popBack hsize
      rw [hback, hpop] at hx
      have hserve : s.serve i s.pendingGet.reverse = s.serve i (g :: l.reverse) := by simp [hl]
      have hdrop : s.pendingGet.dropLast = l := by simp [hl]
      rw [hserve, Queue.serve, hdrop]
      have hgets := h.withGets hm
      have hc : r.container = s.container := h.container_eq
      cases hs : s.container with
      | nil =>
        rw [hs] at hc
        simp only [Option.bind_some, hc] at hx
        obtain ⟨v, hv, rfl⟩ := Option.map_eq_some_iff.mp hx
        rw [h.value_eq] at hv
        refine ⟨(({ s with pendingGet := l }.emplacePut i v).emplaceGet g v, .returned), by simp [hv], ?_⟩
        exact ⟨(hgets.emplacePut i v).emplaceGet g v, rfl⟩
      | cons v rest =>
        rw [hs] at hc
        simp only [Option.bind_some, hc] at hx
        exact ih ((hgets.emplaceGet g v).container rest) hx

theorem asyncPollPut (h : Refines r s) {x : RawQueue α × Async}
    (hx : RawQueue.asyncPollPut k r i = some x) : ∃ y, Queue.asyncPollPut k s i = some y ∧ Same x y := by
  cases k with
  | queue => exact h.pollPut hx
  | queue2 =>
    have hresult : (r.put i).result = (s.put i).result := congrArg Put.result (h.put i)
    change r.pollPut2 i = some x at hx
    change ∃ y, s.pollPut2 i = some y ∧ Same x y
    unfold RawQueue.pollPut2 at hx
    unfold Queue.pollPut2
    rw [← hresult]
    split at hx
    · next hr =>
      obtain rfl := Option.some.inj hx
      rw [if_pos hr]
      exact ⟨_, rfl, h, rfl⟩
    · next hr =>
      rw [if_neg hr]
      exact h.serve hx

/-- `erase` of a node that may be in no list. -/
theorem unlink (hm : m.Back l) (i : Id) :
    ∃ n, RawQueue.unlink m i = some n ∧ n.Back (LinkedList.erase l i).1 := by
  unfold RawQueue.unlink LinkedList.erase
  by_cases hi : i ∈ l
  · obtain ⟨n, hn, hback⟩ := hm.erase hi
    rw [if_pos (hm.isInserted_iff.mpr hi), if_pos hi, hn]
    exact ⟨n, rfl, hback⟩
  · rw [if_neg (fun hc => hi (hm.isInserted_iff.mp hc)), if_neg hi]
    exact ⟨m, rfl, hm⟩

theorem finalizeGet (h : Refines r s) (i : Id) :
    ∃ t, r.finalizeGet i = some t ∧ Refines t (s.finalizeGet i) := by
  obtain ⟨m, hm, hback⟩ := unlink h.pendingGet i
  refine ⟨_, by rw [RawQueue.finalizeGet, hm]; rfl, ?_⟩
  have hmod := (h.withGets hback).modifyGet (fun x => { x with error := {} }) id (fun _ => rfl)
    (fun _ _ => rfl) i
  have hid : (s.finalizeGet i).modifyGet i id = s.finalizeGet i := by simp [Queue.modifyGet]
  rw [← hid]
  exact hmod

theorem finalizePut (h : Refines r s) (i : Id) :
    ∃ t, r.finalizePut i = some t ∧ Refines t (s.finalizePut i) := by
  obtain ⟨m, hm, hback⟩ := unlink h.pendingPut i
  refine ⟨_, by rw [RawQueue.finalizePut, hm]; rfl, ?_⟩
  exact (h.withPuts hback).modifyPut (fun x => { x with value := none, error := {} })
    (fun x => { x with value := none }) (fun _ => rfl) (fun _ _ => rfl) i

theorem stageGet (h : Refines r s) (i : Id) (st : Stage) :
    Refines (r.modifyGet i fun x => { x with stage := st })
      (s.modifyGet i fun x => { x with stage := st }) :=
  h.modifyGet (fun x => { x with stage := st }) (fun x => { x with stage := st }) (fun _ => rfl)
    (fun _ hx => hx) i

theorem stagePut (h : Refines r s) (i : Id) (st : Stage) :
    Refines (r.modifyPut i fun x => { x with stage := st })
      (s.modifyPut i fun x => { x with stage := st }) :=
  h.modifyPut (fun x => { x with stage := st }) (fun x => { x with stage := st }) (fun _ => rfl)
    (fun _ hx => hx) i

/-- An awaitable that is finalized, and left in a stage. -/
theorem leaveGet (h : Refines r s) (i : Id) (st : Stage) :
    ∃ t, ((r.finalizeGet i).map fun r => r.modifyGet i fun x => { x with stage := st }) = some t ∧
      Refines t ((s.finalizeGet i).modifyGet i fun x => { x with stage := st }) := by
  obtain ⟨t, ht, href⟩ := h.finalizeGet i
  rw [ht]
  exact ⟨_, rfl, href.stageGet i st⟩

theorem leavePut (h : Refines r s) (i : Id) (st : Stage) :
    ∃ t, ((r.finalizePut i).map fun r => r.modifyPut i fun x => { x with stage := st }) = some t ∧
      Refines t ((s.finalizePut i).modifyPut i fun x => { x with stage := st }) := by
  obtain ⟨t, ht, href⟩ := h.finalizePut i
  rw [ht]
  exact ⟨_, rfl, href.stagePut i st⟩

theorem answerGet {x : RawQueue α × Async} {y : Queue α × Async} (h : Same x y) (i : Id) :
    ∃ t, RawQueue.answerGet i x = some t ∧ Refines t (Queue.answerGet i y) := by
  obtain ⟨r, a⟩ := x
  obtain ⟨s, b⟩ := y
  obtain ⟨h, hab⟩ := h
  obtain rfl : a = b := hab
  cases a with
  | returned => exact h.leaveGet i .returned
  | suspended => exact ⟨_, rfl, h.stageGet i .suspended⟩
  | thrown => exact h.leaveGet i .idle

theorem answerPut {x : RawQueue α × Async} {y : Queue α × Async} (h : Same x y) (i : Id) :
    ∃ t, RawQueue.answerPut i x = some t ∧ Refines t (Queue.answerPut i y) := by
  obtain ⟨r, a⟩ := x
  obtain ⟨s, b⟩ := y
  obtain ⟨h, hab⟩ := h
  obtain rfl : a = b := hab
  cases a with
  | suspended => exact ⟨_, rfl, h.stagePut i .suspended⟩
  | returned | thrown => exact h.leavePut i .idle

/-- No `_error` is set, so a `Get` that runs is polled. -/
theorem runGet_eq (h : Refines r s) (i : Id) : RawQueue.runGet k r i = RawQueue.asyncPollGet k r i := by
  simp [RawQueue.runGet, h.getError]

theorem runPut_eq (h : Refines r s) (i : Id) : RawQueue.runPut k r i = RawQueue.asyncPollPut k r i := by
  simp [RawQueue.runPut, h.putError]

theorem runGet (h : Refines r s) (hr : (RawQueue.runGet k r i).bind (RawQueue.answerGet i) = some r') :
    ∃ t, (Queue.asyncPollGet k s i).map (Queue.answerGet i) = some t ∧ Refines r' t := by
  rw [h.runGet_eq] at hr
  obtain ⟨x, hx, hans⟩ := Option.bind_eq_some_iff.mp hr
  obtain ⟨y, hy, hsame⟩ := h.asyncPollGet hx
  obtain ⟨t, ht, href⟩ := answerGet hsame i
  obtain rfl : t = r' := Option.some.inj (ht.symm.trans hans)
  exact ⟨_, by rw [hy]; rfl, href⟩

theorem runPut (h : Refines r s) (hr : (RawQueue.runPut k r i).bind (RawQueue.answerPut i) = some r') :
    ∃ t, (Queue.asyncPollPut k s i).map (Queue.answerPut i) = some t ∧ Refines r' t := by
  rw [h.runPut_eq] at hr
  obtain ⟨x, hx, hans⟩ := Option.bind_eq_some_iff.mp hr
  obtain ⟨y, hy, hsame⟩ := h.asyncPollPut hx
  obtain ⟨t, ht, href⟩ := answerPut hsame i
  obtain rfl : t = r' := Option.some.inj (ht.symm.trans hans)
  exact ⟨_, by rw [hy]; rfl, href⟩

theorem stage_get (h : Refines r s) (i : Id) : (r.get i).stage = (s.get i).stage :=
  congrArg Get.stage (h.get i)

theorem stage_put (h : Refines r s) (i : Id) : (r.put i).stage = (s.put i).stage :=
  congrArg Put.stage (h.put i)

/-- Every operation of the queue on pointers is one of the queue on lists. -/
theorem stepOp (h : Refines r s) {op : QueueOp α} (hr : r.stepOp k op = some r') :
    ∃ t, Queue.step k s op = some t ∧ Refines r' t := by
  cases op with
  | put i v =>
    obtain ⟨hi, hr⟩ := Option.ite_none_right_eq_some.mp hr
    rw [Queue.step, if_pos (h.stage_put i ▸ hi)]
    have hop := h.modifyPut (fun x => { x with value := some v, result := false })
      (fun x => { x with value := some v, result := false }) (fun _ => rfl) (fun _ hx => hx) i
    exact (hop.log _).runPut hr
  | get i =>
    obtain ⟨hi, hr⟩ := Option.ite_none_right_eq_some.mp hr
    rw [Queue.step, if_pos (h.stage_get i ▸ hi)]
    have hop := h.modifyGet (fun x => { x with result := none }) (fun x => { x with result := none })
      (fun _ => rfl) (fun _ hx => hx) i
    exact hop.runGet hr
  | runPut i =>
    obtain ⟨hi, hr⟩ := Option.ite_none_right_eq_some.mp hr
    rw [Queue.step, if_pos (h.stage_put i ▸ hi)]
    exact h.runPut hr
  | runGet i =>
    obtain ⟨hi, hr⟩ := Option.ite_none_right_eq_some.mp hr
    rw [Queue.step, if_pos (h.stage_get i ▸ hi)]
    exact h.runGet hr
  | read i =>
    obtain ⟨hi, hr⟩ := Option.ite_none_right_eq_some.mp hr
    rw [Queue.step, if_pos (h.stage_get i ▸ hi)]
    obtain ⟨v, hv, rfl⟩ := Option.map_eq_some_iff.mp hr
    have hv : (s.get i).result = some v := by rw [← h.get]; exact hv
    rw [hv]
    exact ⟨_, rfl, (h.stageGet i .idle).log _⟩
  | cancelPut i =>
    obtain ⟨hi, hr⟩ := Option.ite_none_right_eq_some.mp hr
    rw [Queue.step, if_pos (h.stage_put i ▸ hi)]
    obtain ⟨t, ht, href⟩ := h.leavePut i .idle
    obtain rfl : t = r' := Option.some.inj (ht.symm.trans hr)
    exact ⟨_, rfl, href⟩
  | cancelGet i =>
    obtain ⟨hi, hr⟩ := Option.ite_none_right_eq_some.mp hr
    rw [Queue.step, if_pos (h.stage_get i ▸ hi)]
    obtain ⟨t, ht, href⟩ := h.leaveGet i .idle
    obtain rfl : t = r' := Option.some.inj (ht.symm.trans hr)
    exact ⟨_, rfl, href⟩

end Refines

/-! ### What `reset` does -/

namespace RawQueue

variable {r r' t : RawQueue α} {s : Queue α} {k : QueueKind} {gs ps : List Id} {i : Id}

/-- Every `Get` of a list is cancelled. -/
def cancelAllGet (r : RawQueue α) (gs : List Id) : RawQueue α :=
  { r with
    get := fun i => if i ∈ gs then (r.get i).asyncResume (makeError .cancelled) else r.get i
    cancelledGet := gs.reverse ++ r.cancelledGet }

def cancelAllPut (r : RawQueue α) (ps : List Id) : RawQueue α :=
  { r with
    put := fun i => if i ∈ ps then (r.put i).asyncResume (makeError .cancelled) else r.put i
    cancelledPut := ps.reverse ++ r.cancelledPut }

theorem foldl_cancelGet (r : RawQueue α) (hgs : gs.Nodup) : gs.foldl cancelGet r = r.cancelAllGet gs := by
  induction gs generalizing r with
  | nil => simp [cancelAllGet]
  | cons g gs ih =>
    obtain ⟨hg, hgs⟩ := List.nodup_cons.mp hgs
    rw [List.foldl_cons, ih _ hgs]
    have hget : ∀ i, (if i ∈ gs then ((r.cancelGet g).get i).asyncResume (makeError .cancelled)
        else (r.cancelGet g).get i) =
        if i ∈ g :: gs then (r.get i).asyncResume (makeError .cancelled) else r.get i := by
      intro i
      by_cases hig : i = g
      · subst hig
        simp [cancelGet, modifyGet, hg]
      · simp [cancelGet, modifyGet, hig]
    simp only [cancelAllGet, hget, List.reverse_cons, List.append_assoc, List.singleton_append]
    rfl

theorem foldl_cancelPut (r : RawQueue α) (hps : ps.Nodup) : ps.foldl cancelPut r = r.cancelAllPut ps := by
  induction ps generalizing r with
  | nil => simp [cancelAllPut]
  | cons p ps ih =>
    obtain ⟨hp, hps⟩ := List.nodup_cons.mp hps
    rw [List.foldl_cons, ih _ hps]
    have hput : ∀ i, (if i ∈ ps then ((r.cancelPut p).put i).asyncResume (makeError .cancelled)
        else (r.cancelPut p).put i) =
        if i ∈ p :: ps then (r.put i).asyncResume (makeError .cancelled) else r.put i := by
      intro i
      by_cases hip : i = p
      · subst hip
        simp [cancelPut, modifyPut, hp]
      · simp [cancelPut, modifyPut, hip]
    simp only [cancelAllPut, hput, List.reverse_cons, List.append_assoc, List.singleton_append]
    rfl

theorem cancelGets_eq (hg : r.pendingGet.Back gs) :
    r.cancelGets = some (r.cancelAllGet (r.pendingGet.visited gs)) := by
  rw [← foldl_cancelGet r (hg.nodup.sublist (Nodes.visited_sublist _ _))]
  unfold cancelGets
  exact Nodes.Back.forEach (f := cancelGet) (fun _ _ => rfl) r hg

theorem cancelPuts_eq (hp : r.pendingPut.Back ps) :
    r.cancelPuts = some (r.cancelAllPut (r.pendingPut.visited ps)) := by
  rw [← foldl_cancelPut r (hp.nodup.sublist (Nodes.visited_sublist _ _))]
  unfold cancelPuts
  exact Nodes.Back.forEach (f := cancelPut) (fun _ _ => rfl) r hp

theorem clearGets_eq {m : Nodes Id Unit} (hm : r.pendingGet.clear () = some m) :
    r.clearGets = some { r with pendingGet := m } := by
  rw [clearGets, hm]
  rfl

theorem clearPuts_eq {m : Nodes Id Unit} (hm : r.pendingPut.clear () = some m) :
    r.clearPuts = some { r with pendingPut := m } := by
  rw [clearPuts, hm]
  rfl

/-- Both `reset`s: what is visited is cancelled, and taken out of its list. -/
theorem reset_eq (hg : r.pendingGet.Back gs) (hp : r.pendingPut.Back ps) :
    ∃ m n, reset k r = some
        { (r.cancelAllGet (r.pendingGet.visited gs)).cancelAllPut (r.pendingPut.visited ps) with
          pendingGet := m, pendingPut := n, container := [] } ∧
      m.Back (r.pendingGet.remaining gs) ∧ n.Back (r.pendingPut.remaining ps) := by
  obtain ⟨m, hm, hmback⟩ := hg.clear
  obtain ⟨n, hn, hnback⟩ := hp.clear
  refine ⟨m, n, ?_, hmback, hnback⟩
  cases k with
  | queue =>
    rw [reset, cancelGets_eq hg, Option.bind_some, cancelPuts_eq (r := cancelAllGet r _) hp,
      Option.bind_some, clearGets_eq (r := cancelAllPut (cancelAllGet r _) _) hm, Option.bind_some,
      clearPuts_eq (r := { cancelAllPut (cancelAllGet r _) _ with pendingGet := m }) hn]
    rfl
  | queue2 =>
    rw [reset, cancelGets_eq hg, Option.bind_some, clearGets_eq (r := cancelAllGet r _) hm,
      Option.bind_some, cancelPuts_eq (r := { cancelAllGet r _ with pendingGet := m }) hp,
      Option.bind_some, clearPuts_eq (r := cancelAllPut { cancelAllGet r _ with pendingGet := m } _) hn]
    rfl

/-- What the pointers stand for, with the `Get`s and `Put`s as they are. -/
def lists (r : RawQueue α) (gs ps : List Id) : Queue α :=
  { toQueueBase := r.toQueueBase, pendingGet := gs, pendingPut := ps,
    get := fun i => (r.get i).toGet, put := fun i => (r.put i).toPut }

/-- What a run keeps: the pointers stand for lists, and the tasks of what is in them are parked. -/
def Listed (r : RawQueue α) : Prop := ∃ s, Refines r s ∧ s.Parked

theorem init_listed (n : Int) : (init n : RawQueue α).Listed :=
  ⟨Queue.init n, .init n, by simp [Queue.init], by simp [Queue.init]⟩

theorem cancelAllGet_waits (h : (r.get i).stage.Waits) : ((r.cancelAllGet gs).get i).stage.Waits := by
  unfold cancelAllGet
  dsimp only
  split
  · exact h.resume
  · exact h

theorem cancelAllPut_waits (h : (r.put i).stage.Waits) : ((r.cancelAllPut ps).put i).stage.Waits := by
  unfold cancelAllPut
  dsimp only
  split
  · exact h.resume
  · exact h

theorem cancelAllGet_scheduled (hi : i ∈ gs) (h : (r.get i).stage.Waits) :
    ((r.cancelAllGet gs).get i).stage = .scheduled := by
  simp [cancelAllGet, hi, RawGet.asyncResume, h.resume_eq]

theorem cancelAllPut_scheduled (hi : i ∈ ps) (h : (r.put i).stage.Waits) :
    ((r.cancelAllPut ps).put i).stage = .scheduled := by
  simp [cancelAllPut, hi, RawPut.asyncResume, h.resume_eq]

theorem cancelAllGet_error (r : RawQueue α) (gs : List Id) (i : Id) :
    ((r.cancelAllGet gs).get i).error = (r.get i).error := by
  unfold cancelAllGet
  dsimp only
  split <;> rfl

theorem cancelAllPut_error (r : RawQueue α) (ps : List Id) (i : Id) :
    ((r.cancelAllPut ps).put i).error = (r.put i).error := by
  unfold cancelAllPut
  dsimp only
  split <;> rfl

theorem Listed.reset (h : r.Listed) (ht : reset k r = some t) : t.Listed := by
  obtain ⟨s, href, hs⟩ := h
  obtain ⟨m, n, heq, hm, hn⟩ := reset_eq (k := k) href.pendingGet href.pendingPut
  obtain rfl := Option.some.inj (heq.symm.trans ht)
  refine ⟨lists _ _ _, ⟨rfl, hm, hn, fun _ => rfl, fun _ => rfl, fun i => ?_, fun i => ?_⟩,
    fun i hi => ?_, fun i hi => ?_⟩
  · exact (congrArg Error.isSet (cancelAllGet_error r _ i)).trans (href.getError i)
  · exact (congrArg Error.isSet (cancelAllPut_error _ _ i)).trans (href.putError i)
  · have hmem : i ∈ s.pendingGet := (Nodes.remaining_sublist _ _).subset hi
    exact cancelAllGet_waits (href.stage_get i ▸ hs.get i hmem)
  · have hmem : i ∈ s.pendingPut := (Nodes.remaining_sublist _ _).subset hi
    exact cancelAllPut_waits (r := r.cancelAllGet _) (href.stage_put i ▸ hs.put i hmem)

theorem Listed.step {a : ResetOp α} (h : r.Listed) (ht : RawQueue.step k r a = some t) : t.Listed := by
  cases a with
  | op a =>
    obtain ⟨s, href, hs⟩ := h
    obtain ⟨u, hu, hrefu⟩ := href.stepOp ht
    exact ⟨u, hrefu, hs.step href.pendingGet.nodup href.pendingPut.nodup hu⟩
  | resume i e =>
    obtain ⟨s, href, hs⟩ := h
    cases i with
    | inl i =>
      obtain rfl := Option.some.inj ht
      exact ⟨s.resumeGet i, href.modifyGet (fun x => x.asyncResume e) _ (fun _ => rfl) (fun _ hx => hx) i,
        (Queue.Keeps.modifyGet (fun _ => Stage.Waits.resume) i).parked hs⟩
    | inr i =>
      obtain rfl := Option.some.inj ht
      exact ⟨s.resumePut i, href.modifyPut (fun x => x.asyncResume e) _ (fun _ => rfl) (fun _ hx => hx) i,
        (Queue.Keeps.modifyPut (fun _ => Stage.Waits.resume) i).parked hs⟩
  | reset => exact h.reset ht

theorem Listed.exec {ops : List (ResetOp α)} (h : r.Listed) (ht : RawQueue.exec k r ops = some t) :
    t.Listed :=
  Runs.exec_invariant (C := fun _ _ => True) (fun _ _ _ hi _ hs => hi.step hs) ops r t ht
    (Runs.meets_true ops r) h

/-! ### What is released -/

/-- The queue is empty, and what was in its lists was cancelled once. -/
structure Released (s t : RawQueue α) : Prop where
  container : t.container = []
  pendingGet : t.pendingGet.size () = 0
  pendingPut : t.pendingPut.size () = 0
  cancelledGet : ∀ i, s.pendingGet.isInserted i → t.cancelledGet.count i = s.cancelledGet.count i + 1
  cancelledPut : ∀ i, s.pendingPut.isInserted i → t.cancelledPut.count i = s.cancelledPut.count i + 1

/-- Whatever happens until the task runs: it leaves the `Get` with `ErrorAwaitable::Cancelled`. -/
def LeavesGet (k : QueueKind) (t : RawQueue α) (i : Id) : Prop :=
  ∀ ops u, exec k t ops = some u → (∀ op ∈ ops, op ≠ .op (.runGet i) ∧ op ≠ .op (.cancelGet i)) →
    (u.get i).stage = .scheduled → (runGet k u i).map Prod.snd = some (.thrown (makeError .cancelled))

/-- Whatever happens until the task runs: it leaves the `Put` with `ErrorAwaitable::Cancelled`. -/
def LeavesPut (k : QueueKind) (t : RawQueue α) (i : Id) : Prop :=
  ∀ ops u, exec k t ops = some u → (∀ op ∈ ops, op ≠ .op (.runPut i) ∧ op ≠ .op (.cancelPut i)) →
    (u.put i).stage = .scheduled → (runPut k u i).map Prod.snd = some (.thrown (makeError .cancelled))

/-- `reset` releases everyone who waits. -/
def ResetReleases (k : QueueKind) (s : RawQueue α) : Prop :=
  ∃ t, reset k s = some t ∧ Released s t ∧
    (∀ i, s.pendingGet.isInserted i → LeavesGet k t i) ∧ ∀ i, s.pendingPut.isInserted i → LeavesPut k t i

/-- The lists are emptied, and what was in them is cancelled, where the loops visit them. -/
theorem released_iff_visited (hg : r.pendingGet.Back gs) (hp : r.pendingPut.Back ps) :
    (∃ t, reset k r = some t ∧ Released r t) ↔
      r.pendingGet.visited gs = gs ∧ r.pendingPut.visited ps = ps := by
  obtain ⟨m, n, heq, hm, hn⟩ := reset_eq (k := k) hg hp
  constructor
  · rintro ⟨t, ht, hrel⟩
    obtain rfl := Option.some.inj (heq.symm.trans ht)
    exact ⟨Nodes.visited_eq_iff.mpr (hm.size_eq_zero.mp hrel.pendingGet),
      Nodes.visited_eq_iff.mpr (hn.size_eq_zero.mp hrel.pendingPut)⟩
  · rintro ⟨hgs, hps⟩
    refine ⟨_, heq, rfl, ?_, ?_, fun i hi => ?_, fun i hi => ?_⟩
    · exact hm.size_eq_zero.mpr (Nodes.visited_eq_iff.mp hgs)
    · exact hn.size_eq_zero.mpr (Nodes.visited_eq_iff.mp hps)
    · have hone : gs.count i = 1 := List.count_eq_one_of_mem hg.nodup (hg.isInserted_iff.mp hi)
      simp [cancelAllGet, cancelAllPut, hgs, hone, Nat.add_comm]
    · have hone : ps.count i = 1 := List.count_eq_one_of_mem hp.nodup (hp.isInserted_iff.mp hi)
      simp [cancelAllGet, cancelAllPut, hps, hone, Nat.add_comm]

/-- In every run, `reset` empties the lists and cancels what is in them as long as the `_head` of a list
    that is not empty does not point to its `_end`. -/
theorem released_iff_head {n : Int} {ops : List (ResetOp α)} (hrun : RawQueue.exec k (init n) ops = some r) :
    (∃ t, reset k r = some t ∧ Released r t) ↔
      (r.pendingGet.size () ≠ 0 → r.pendingGet.head () ≠ .fin ()) ∧
        (r.pendingPut.size () ≠ 0 → r.pendingPut.head () ≠ .fin ()) := by
  obtain ⟨s, href, -⟩ := (init_listed n).exec hrun
  have hg := href.pendingGet
  have hp := href.pendingPut
  rw [released_iff_visited hg hp, hg.visited_eq_iff_head, hp.visited_eq_iff_head]
  simp only [ne_eq, hg.size_eq_zero, hp.size_eq_zero]

/-- An answer that throws nothing but `e`. -/
def Throws (e : Error) (a : Async) : Prop := ∀ e', a = .thrown e' → e' = e

theorem starve_throws (r : RawQueue α) (i : Id) : Throws ErrorQueue.pendingGetError.error (r.starve i).2 := by
  unfold starve
  split <;> simp [Throws]

theorem asyncPollGet_throws {x : RawQueue α × Async} (hx : asyncPollGet k r i = some x) :
    Throws ErrorQueue.pendingGetError.error x.2 := by
  have hx : r.pollGet i = some x := by
    cases k with
    | queue => exact hx
    | queue2 =>
      rw [← pollGet2_eq]
      exact hx
  unfold pollGet at hx
  split at hx
  · obtain rfl := Option.some.inj hx
    simp [Throws]
  split at hx
  · obtain rfl := Option.some.inj hx
    simp [Throws]
  split at hx
  · obtain rfl := Option.some.inj hx
    exact starve_throws r i
  split at hx
  · obtain ⟨m, -, hm⟩ := Option.bind_eq_some_iff.mp hx
    obtain ⟨v, -, rfl⟩ := Option.map_eq_some_iff.mp hm
    simp [Throws]
  · cases hx

theorem store_throws {x : RawQueue α × Async} (hx : r.store i = some x) :
    Throws ErrorQueue.pendingPutError.error x.2 := by
  unfold store at hx
  split at hx
  · split at hx <;>
      · obtain rfl := Option.some.inj hx
        simp [Throws]
  · obtain ⟨v, -, rfl⟩ := Option.map_eq_some_iff.mp hx
    simp [Throws]

theorem pollPut_throws {x : RawQueue α × Async} (hx : r.pollPut i = some x) :
    Throws ErrorQueue.pendingPutError.error x.2 := by
  unfold pollPut at hx
  split at hx
  · obtain rfl := Option.some.inj hx
    simp [Throws]
  split at hx
  · exact store_throws hx
  split at hx
  · obtain ⟨m, -, hm⟩ := Option.bind_eq_some_iff.mp hx
    obtain ⟨v, -, rfl⟩ := Option.map_eq_some_iff.mp hm
    simp [Throws]
  · cases hx

theorem serve_throws {x : RawQueue α × Async} {fuel : Nat} (hx : r.serve i fuel = some x) :
    Throws ErrorQueue.pendingPutError.error x.2 := by
  induction fuel generalizing r with
  | zero => exact store_throws (Option.ite_none_right_eq_some.mp hx).2
  | succ fuel ih =>
    unfold serve at hx
    split at hx
    · exact store_throws hx
    split at hx
    · obtain ⟨m, -, hm⟩ := Option.bind_eq_some_iff.mp hx
      dsimp only at hm
      split at hm
      · obtain ⟨v, -, rfl⟩ := Option.map_eq_some_iff.mp hm
        simp [Throws]
      · exact ih hm
    · cases hx

theorem asyncPollPut_throws {x : RawQueue α × Async} (hx : asyncPollPut k r i = some x) :
    Throws ErrorQueue.pendingPutError.error x.2 := by
  cases k with
  | queue => exact pollPut_throws hx
  | queue2 =>
    change r.pollPut2 i = some x at hx
    unfold pollPut2 at hx
    split at hx
    · obtain rfl := Option.some.inj hx
      simp [Throws]
    · exact serve_throws hx

/-- What was cancelled is ready to run, and its poll does not throw the error it was resumed with. -/
theorem not_leavesGet (hi : (r.get i).stage = .scheduled) (he : (r.get i).error.isSet = false) :
    ¬ LeavesGet k r i := by
  intro h
  have hrun := h [] r rfl (by simp) hi
  have hpoll : runGet k r i = asyncPollGet k r i := by simp [runGet, he]
  rw [hpoll] at hrun
  obtain ⟨x, hx, hthrown⟩ := Option.map_eq_some_iff.mp hrun
  exact absurd (asyncPollGet_throws hx _ hthrown) (by decide)

theorem not_leavesPut (hi : (r.put i).stage = .scheduled) (he : (r.put i).error.isSet = false) :
    ¬ LeavesPut k r i := by
  intro h
  have hrun := h [] r rfl (by simp) hi
  have hpoll : runPut k r i = asyncPollPut k r i := by simp [runPut, he]
  rw [hpoll] at hrun
  obtain ⟨x, hx, hthrown⟩ := Option.map_eq_some_iff.mp hrun
  exact absurd (asyncPollPut_throws hx _ hthrown) (by decide)

/-- In every run: `reset` releases all that wait only where nothing waits. -/
theorem resetReleases_iff {n : Int} {ops : List (ResetOp α)} (hrun : RawQueue.exec k (init n) ops = some r) :
    ResetReleases k r ↔
      (∀ i, r.pendingGet.isInserted i = false) ∧ ∀ i, r.pendingPut.isInserted i = false := by
  obtain ⟨s, href, hs⟩ := (init_listed n).exec hrun
  have hg := href.pendingGet
  have hp := href.pendingPut
  rw [hg.isInserted_eq_false_iff, hp.isInserted_eq_false_iff]
  constructor
  · rintro ⟨t, ht, hrel, hget, hput⟩
    obtain ⟨hgs, hps⟩ := (released_iff_visited hg hp).mp ⟨t, ht, hrel⟩
    obtain ⟨m, m', heq, -⟩ := reset_eq (k := k) hg hp
    obtain rfl := Option.some.inj (heq.symm.trans ht)
    rw [hgs, hps] at hget hput
    constructor <;> refine List.eq_nil_iff_forall_not_mem.mpr fun i hi => ?_
    · refine not_leavesGet ?_ ?_ (hget i (hg.isInserted_iff.mpr hi))
      · exact cancelAllGet_scheduled hi (href.stage_get i ▸ hs.get i hi)
      · exact (congrArg Error.isSet (cancelAllGet_error r _ i)).trans (href.getError i)
    · refine not_leavesPut ?_ ?_ (hput i (hp.isInserted_iff.mpr hi))
      · exact cancelAllPut_scheduled (r := r.cancelAllGet _) hi (href.stage_put i ▸ hs.put i hi)
      · exact (congrArg Error.isSet (cancelAllPut_error (r.cancelAllGet _) _ i)).trans (href.putError i)
  · rintro ⟨hgs, hps⟩
    have hvisited : r.pendingGet.visited s.pendingGet = s.pendingGet ∧
        r.pendingPut.visited s.pendingPut = s.pendingPut := by
      simp [hgs, hps, Nodes.visited]
    obtain ⟨t, ht, hrel⟩ := (released_iff_visited (k := k) hg hp).mpr hvisited
    refine ⟨t, ht, hrel, fun i hi => ?_, fun i hi => ?_⟩
    · exact absurd (hg.isInserted_iff.mp hi) (by simp [hgs])
    · exact absurd (hp.isInserted_iff.mp hi) (by simp [hps])

/-- A value is in the container, and nobody waits. -/
theorem resetReleases_stored :
    ∃ s : RawQueue Nat, exec .queue2 (init 0) [.op (.put 1 5)] = some s ∧ s.container = [5] ∧
      ResetReleases .queue2 s :=
  have hrun : RawQueue.exec .queue2 (init 0) [.op (.put 1 5)] = some _ := rfl
  ⟨_, hrun, rfl, (resetReleases_iff hrun).mpr ⟨fun _ => rfl, fun _ => rfl⟩⟩

/-- A `Get` that waits stays in its list. Where one in front of it was cancelled before, `reset` cancels
    it; it is polled when it runs next, and blocks again. -/
theorem reset_leaves_waiting :
    (∃ s t : RawQueue Nat, exec .queue (init 0) [.op (.get 1)] = some s ∧ reset .queue s = some t ∧
      t.pendingGet.size () = 1 ∧ t.cancelledGet = [] ∧ ¬ ResetReleases .queue s) ∧
    ∃ s t : RawQueue Nat,
      exec .queue (init 0) [.op (.get 1), .op (.get 2), .op (.cancelGet 1)] = some s ∧
      reset .queue s = some t ∧ t.pendingGet.size () = 0 ∧ t.cancelledGet = [2] ∧
      (runGet .queue t 2).map Prod.snd = some .suspended ∧ ¬ ResetReleases .queue s := by
  refine ⟨⟨_, _, rfl, rfl, rfl, rfl, ?_⟩, _, _, rfl, rfl, rfl, rfl, rfl, ?_⟩
  · rintro ⟨t, ht, hrel, -⟩
    obtain rfl := Option.some.inj ht
    exact absurd hrel.pendingGet (by decide)
  · rintro ⟨t, ht, -, hget, -⟩
    obtain rfl := Option.some.inj ht
    exact not_leavesGet rfl rfl (hget 2 rfl)

end RawQueue

end Jinx.Sync
