import Jinx.Lib.Runs
import Jinx.Sync.Pending

/-! `Queue` of `queue.hpp` and `Queue2` of `queue2.hpp`, with their awaitables `Get` and `Put`.

    A value goes one of three ways: through the container, out of a `Put` that waits because the
    queue is full, or directly to a `Get` that waits because it is empty. Both queues take the
    waiting party from the back of its list, that is the one that came last. `Queue2` leaves the
    choice to two callbacks of the queue, and its `put` serves waiting `Get`s in a loop; its
    `Get` and `Put` implement the callbacks as those of `Queue` do the same thing inline.

    The log records the first poll of every `Put`, what is handed to which `Get`, and what a caller reads
    out of its `Get`; the `Put`s that have completed are kept apart, since `Queue2` completes the `Put`
    before the `Get`, and `Queue` behind it. -/

namespace Jinx.Sync

def categoryQueue : Category := .other 2

/-- `enum class ErrorQueue`, with `make_error`. -/
inductive ErrorQueue where
  | noError
  | pendingPutError
  | pendingGetError
  deriving DecidableEq, Repr

def ErrorQueue.toInt : ErrorQueue → Int
  | .noError => 0
  | .pendingPutError => 1
  | .pendingGetError => 2

def ErrorQueue.error (e : ErrorQueue) : Error := ⟨e.toInt, categoryQueue⟩

variable {α : Type*}

/-- `Queue::Get`; `result` is the value of its `AsyncFuture`. -/
structure Get (α : Type*) where
  result : Option α := none
  stage : Stage := .idle

/-- `Queue::Put`, an `AsyncFuture<void>`. -/
structure Put (α : Type*) where
  value : Option α := none
  result : Bool := false
  stage : Stage := .idle

inductive QueueEvent (α : Type*) where
  | polled (put : Id) (v : α)
  | handed (get : Id) (v : α)
  | read (get : Id) (v : α)
  deriving DecidableEq, Repr

/-- `detail::QueueBase` over a container that is first in, first out. -/
structure QueueBase (α : Type*) where
  maxSize : Int
  container : List α := []

/-- `QueueBase::full`. -/
def QueueBase.full (q : QueueBase α) : Bool := 0 < q.maxSize && q.maxSize ≤ q.container.length

/-- A `Queue` (or `Queue2`) and every `Get` and `Put` that is used with it. -/
structure Queue (α : Type*) extends QueueBase α where
  pendingGet : List Id := []
  pendingPut : List Id := []
  get : Id → Get α := fun _ => {}
  put : Id → Put α := fun _ => {}
  log : List (QueueEvent α) := []
  done : List (Id × α) := []

namespace Queue

/-- Change the record of one `Get`. -/
def modifyGet (s : Queue α) (i : Id) (f : Get α → Get α) : Queue α :=
  { s with get := Function.update s.get i (f (s.get i)) }

/-- Change the record of one `Put`. -/
def modifyPut (s : Queue α) (i : Id) (f : Put α → Put α) : Queue α :=
  { s with put := Function.update s.put i (f (s.put i)) }

def emit (s : Queue α) (e : QueueEvent α) : Queue α := { s with log := s.log ++ [e] }

/-- `emplace_result` of a `Get`, which resumes its task. -/
def emplaceGet (s : Queue α) (g : Id) (v : α) : Queue α :=
  (s.modifyGet g fun x => { x with result := some v, stage := x.stage.resume }).emit (.handed g v)

/-- `emplace_result` of a `Put` that has given its value away. -/
def emplacePut (s : Queue α) (p : Id) (v : α) : Queue α :=
  { s.modifyPut p fun x => { x with result := true, stage := x.stage.resume } with
    done := s.done ++ [(p, v)] }

/-! ### `Queue::Get` and `Queue::Put` -/

/-- `Get::operator()`. -/
def operatorGet (s : Queue α) (i : Id) : Queue α := s.modifyGet i fun x => { x with result := none }

/-- `Put::operator()`. -/
def operatorPut (s : Queue α) (i : Id) (v : α) : Queue α :=
  s.modifyPut i fun x => { x with value := some v, result := false }

/-- `Get::async_finalize`. -/
def finalizeGet (s : Queue α) (i : Id) : Queue α :=
  { s with pendingGet := (LinkedList.erase s.pendingGet i).1 }

/-- `Put::async_finalize`. -/
def finalizePut (s : Queue α) (i : Id) : Queue α :=
  { s with pendingPut := (LinkedList.erase s.pendingPut i).1 }.modifyPut i
    fun x => { x with value := none }

/-- `Get::async_poll` of `Queue`; `none` where it reads a `Put` that has no value. -/
def pollGet (s : Queue α) (i : Id) : Option (Queue α × Async) :=
  if (s.get i).result.isSome then some (s, .returned)
  else
    match s.container with
    | v :: rest => some ({ s.emplaceGet i v with container := rest }, .returned)
    | [] =>
      match s.pendingPut.getLast? with
      | some p =>
        (s.put p).value.map fun v =>
          (({ s with pendingPut := s.pendingPut.dropLast }.emplaceGet i v).emplacePut p v, .returned)
      | none =>
        match LinkedList.pushBack s.pendingGet i with
        | (_, .failed) => some (s, .thrown ErrorQueue.pendingGetError.error)
        | (l, .successful) => some ({ s with pendingGet := l }, .suspended)

/-- The end of both `put`s: the value is stored, or the `Put` waits. -/
def store (s : Queue α) (i : Id) : Option (Queue α × Async) :=
  if s.full then
    match LinkedList.pushBack s.pendingPut i with
    | (_, .failed) => some (s, .thrown ErrorQueue.pendingPutError.error)
    | (l, .successful) => some ({ s with pendingPut := l }, .suspended)
  else
    (s.put i).value.map fun v =>
      ({ s with container := s.container ++ [v] }.emplacePut i v, .returned)

/-- `Put::async_poll` of `Queue`. The assertion that the container is empty while a `Get` waits is
    `Rep.starving`. -/
def pollPut (s : Queue α) (i : Id) : Option (Queue α × Async) :=
  if (s.put i).result then some (s, .returned)
  else
    match s.pendingGet.getLast? with
    | some g =>
      (s.put i).value.map fun v =>
        (({ s with pendingGet := s.pendingGet.dropLast }.emplaceGet g v).emplacePut i v, .returned)
    | none => s.store i

/-! ### `Queue2` -/

/-- `Queue2::get`, and `Get::async_poll` around it. -/
def pollGet2 (s : Queue α) (i : Id) : Option (Queue α × Async) :=
  if (s.get i).result.isSome then some (s, .returned)
  else
    match s.container with
    | v :: rest => some ({ s.emplaceGet i v with container := rest }, .returned)
    | [] =>
      match s.pendingPut.getLast? with
      | some p =>
        (s.put p).value.map fun v =>
          let s := (s.emplacePut p v).emplaceGet i v
          ({ s with pendingPut := s.pendingPut.dropLast }, .returned)
      | none =>
        match LinkedList.pushBack s.pendingGet i with
        | (_, .failed) => some (s, .thrown ErrorQueue.pendingGetError.error)
        | (l, .successful) => some ({ s with pendingGet := l }, .suspended)

/-- The loop of `Queue2::put` over the waiting `Get`s, from the back of the list. -/
def serve (s : Queue α) (i : Id) : List Id → Option (Queue α × Async)
  | [] => s.store i
  | g :: gs =>
    let s := { s with pendingGet := s.pendingGet.dropLast }
    match s.container with
    | [] => (s.put i).value.map fun v => ((s.emplacePut i v).emplaceGet g v, .returned)
    | v :: rest => serve { s.emplaceGet g v with container := rest } i gs

/-- `Queue2::put`, and `Put::async_poll` around it. -/
def pollPut2 (s : Queue α) (i : Id) : Option (Queue α × Async) :=
  if (s.put i).result then some (s, .returned) else s.serve i s.pendingGet.reverse

/-! ### Runs -/

/-- What the answer means for the task: an awaitable that has returned or thrown is finalized. The
    caller of a `Get` reads the value afterwards. -/
def answerGet (i : Id) : Queue α × Async → Queue α
  | (s, .returned) => (s.finalizeGet i).modifyGet i fun x => { x with stage := .returned }
  | (s, .suspended) => s.modifyGet i fun x => { x with stage := .suspended }
  | (s, .thrown _) => (s.finalizeGet i).modifyGet i fun x => { x with stage := .idle }

def answerPut (i : Id) : Queue α × Async → Queue α
  | (s, .suspended) => s.modifyPut i fun x => { x with stage := .suspended }
  | (s, _) => (s.finalizePut i).modifyPut i fun x => { x with stage := .idle }

end Queue

/-- The two queues. -/
inductive QueueKind where
  | queue
  | queue2
  deriving DecidableEq, Repr

/-- What can happen: a `Put` or a `Get` is awaited, one that was woken runs, a caller reads the
    result of its `Get`, a task is cancelled while it is in one. -/
inductive QueueOp (α : Type*) where
  | put (i : Id) (v : α)
  | get (i : Id)
  | runPut (i : Id)
  | runGet (i : Id)
  | read (i : Id)
  | cancelPut (i : Id)
  | cancelGet (i : Id)
  deriving DecidableEq, Repr

namespace Queue

def asyncPollGet : QueueKind → Queue α → Id → Option (Queue α × Async)
  | .queue => pollGet
  | .queue2 => pollGet2

def asyncPollPut : QueueKind → Queue α → Id → Option (Queue α × Async)
  | .queue => pollPut
  | .queue2 => pollPut2

def step (k : QueueKind) (s : Queue α) : QueueOp α → Option (Queue α)
  | .put i v =>
    if (s.put i).stage = .idle then
      (asyncPollPut k ((s.operatorPut i v).emit (.polled i v)) i).map (answerPut i)
    else none
  | .get i =>
    if (s.get i).stage = .idle then (asyncPollGet k (s.operatorGet i) i).map (answerGet i) else none
  | .runPut i =>
    if (s.put i).stage = .scheduled then (asyncPollPut k s i).map (answerPut i) else none
  | .runGet i =>
    if (s.get i).stage = .scheduled then (asyncPollGet k s i).map (answerGet i) else none
  | .read i =>
    if (s.get i).stage = .returned then
      (s.get i).result.map fun v =>
        (s.modifyGet i fun x => { x with stage := .idle }).emit (.read i v)
    else none
  | .cancelPut i =>
    if (s.put i).stage = .suspended ∨ (s.put i).stage = .scheduled then
      some ((s.finalizePut i).modifyPut i fun x => { x with stage := .idle })
    else none
  | .cancelGet i =>
    if (s.get i).stage = .suspended ∨ (s.get i).stage = .scheduled then
      some ((s.finalizeGet i).modifyGet i fun x => { x with stage := .idle })
    else none

/-- Runs of a queue. -/
abbrev exec (k : QueueKind) : Queue α → List (QueueOp α) → Option (Queue α) := Runs.exec (step k)

/-- A queue that was just constructed. -/
def init (maxSize : Int) : Queue α := { maxSize }

/-- The values in the order in which their `Put`s were first polled. -/
def polled (s : Queue α) : List α :=
  s.log.filterMap fun | .polled _ v => some v | _ => none

/-- The values in the order in which they were handed to `Get`s. -/
def handed (s : Queue α) : List α :=
  s.log.filterMap fun | .handed _ v => some v | _ => none

/-- The values whose `Put` has completed. -/
def completed (s : Queue α) : List α := s.done.map Prod.snd

/-- The values that callers have read. -/
def read (s : Queue α) : List α :=
  s.log.filterMap fun | .read _ v => some v | _ => none

end Queue

/-! ### Representation

    What holds of the lists and of every `Get` and `Put`, in every run. -/

/-- A `Get` that is in the list (`queued`) has no result yet; one whose task was woken has one. -/
structure Get.Ok (queued : Prop) (x : Get α) : Prop where
  queued : queued ↔ x.stage = .suspended
  waiting : x.stage = .suspended → x.result = none
  served : x.stage = .scheduled ∨ x.stage = .returned → x.result.isSome

/-- A `Put` that is in the list still has its value; one whose task was woken has given it away. -/
structure Put.Ok (queued : Prop) (x : Put α) : Prop where
  queued : queued ↔ x.stage = .suspended
  waiting : x.stage = .suspended → x.value.isSome ∧ x.result = false
  served : x.stage = .scheduled → x.result = true

/-- A `Get` whose task may also be resumed by someone else: being in the list does not tell whether it
    was. -/
structure Get.Loose (queued : Prop) (x : Get α) : Prop where
  waiting : queued → (x.stage = .suspended ∨ x.stage = .scheduled) ∧ x.result = none
  suspended : x.stage = .suspended → queued
  scheduled : x.stage = .scheduled → queued ∨ x.result.isSome

/-- A `Put` whose task may also be resumed by someone else. -/
structure Put.Loose (queued : Prop) (x : Put α) : Prop where
  waiting : queued → (x.stage = .suspended ∨ x.stage = .scheduled) ∧ x.value.isSome ∧ x.result = false
  suspended : x.stage = .suspended → queued
  scheduled : x.stage = .scheduled → queued ∨ x.result = true

theorem Get.Ok.loose {q : Prop} {x : Get α} (h : x.Ok q) : x.Loose q where
  waiting hq := ⟨.inl (h.queued.mp hq), h.waiting (h.queued.mp hq)⟩
  suspended := h.queued.mpr
  scheduled hs := .inr (h.served (.inl hs))

theorem Put.Ok.loose {q : Prop} {x : Put α} (h : x.Ok q) : x.Loose q where
  waiting hq := ⟨.inl (h.queued.mp hq), h.waiting (h.queued.mp hq)⟩
  suspended := h.queued.mpr
  scheduled hs := .inr (h.served hs)

/-- One that is in the list is in the ready list after it was resumed. -/
theorem Get.Loose.resume {q : Prop} {x : Get α} (h : x.Loose q) (hq : q) :
    x.stage.resume = .scheduled := by
  obtain hs | hs := (h.waiting hq).1 <;> rw [hs] <;> rfl

theorem Put.Loose.resume {q : Prop} {x : Put α} (h : x.Loose q) (hq : q) :
    x.stage.resume = .scheduled := by
  obtain hs | hs := (h.waiting hq).1 <;> rw [hs] <;> rfl

theorem Get.Loose.congr {q q' : Prop} {x : Get α} (h : x.Loose q) (hq : q' ↔ q) : x.Loose q' :=
  ⟨fun h' => h.waiting (hq.mp h'), fun hs => hq.mpr (h.suspended hs),
    fun hs => (h.scheduled hs).imp hq.mpr id⟩

theorem Put.Loose.congr {q q' : Prop} {x : Put α} (h : x.Loose q) (hq : q' ↔ q) : x.Loose q' :=
  ⟨fun h' => h.waiting (hq.mp h'), fun hs => hq.mpr (h.suspended hs),
    fun hs => (h.scheduled hs).imp hq.mpr id⟩

theorem Get.Ok.congr {q q' : Prop} {x : Get α} (h : x.Ok q) (hq : q' ↔ q) : x.Ok q' :=
  ⟨hq.trans h.queued, h.waiting, h.served⟩

theorem Put.Ok.congr {q q' : Prop} {x : Put α} (h : x.Ok q) (hq : q' ↔ q) : x.Ok q' :=
  ⟨hq.trans h.queued, h.waiting, h.served⟩

namespace Queue

structure Rep (s : Queue α) : Prop where
  get : ∀ i, (s.get i).Ok (i ∈ s.pendingGet)
  put : ∀ i, (s.put i).Ok (i ∈ s.pendingPut)
  getNodup : s.pendingGet.Nodup
  putNodup : s.pendingPut.Nodup
  starving : s.pendingGet ≠ [] → s.container = [] ∧ s.pendingPut = []

/-- The representation where tasks may also be resumed by someone else. -/
structure Loose (s : Queue α) : Prop where
  get : ∀ i, (s.get i).Loose (i ∈ s.pendingGet)
  put : ∀ i, (s.put i).Loose (i ∈ s.pendingPut)
  getNodup : s.pendingGet.Nodup
  putNodup : s.pendingPut.Nodup
  starving : s.pendingGet ≠ [] → s.container = [] ∧ s.pendingPut = []

theorem Rep.loose {s : Queue α} (h : s.Rep) : s.Loose :=
  ⟨fun i => (h.get i).loose, fun i => (h.put i).loose, h.getNodup, h.putNodup, h.starving⟩

variable {s t : Queue α} {k : QueueKind} {i j g p : Id} {gs ps : List Id} {v : α} {rest : List α}

theorem init_rep (n : Int) : (init n : Queue α).Rep := by
  constructor
  · exact fun i => ⟨by simp [init], by simp [init], by simp [init]⟩
  · exact fun i => ⟨by simp [init], by simp [init], by simp [init]⟩
  · exact List.nodup_nil
  · exact List.nodup_nil
  · simp [init]

/-! ### What one step does -/

/-- It does not matter which of the two gets its result first. -/
theorem emplaceGet_emplacePut : (s.emplacePut p v).emplaceGet g v = (s.emplaceGet g v).emplacePut p v := rfl

theorem pollGet2_eq : pollGet2 s i = pollGet s i := by
  unfold pollGet2 pollGet
  split
  · rfl
  · cases s.container with
    | cons v rest => rfl
    | nil => cases hp : s.pendingPut.getLast? <;> rfl

/-- Where the container is empty while a `Get` waits, both `put`s do the same. -/
theorem pollPut2_eq (h : s.pendingGet ≠ [] → s.container = []) : pollPut2 s i = pollPut s i := by
  unfold pollPut2 pollPut
  split
  · rfl
  · rcases List.eq_nil_or_concat s.pendingGet with hg | ⟨gs, g, hg⟩
    · simp [hg, serve]
    · have hc : s.container = [] := h (by simp [hg])
      simp [hg, serve, hc, emplaceGet_emplacePut]

theorem asyncPollGet_eq : asyncPollGet k s i = pollGet s i := by
  cases k with
  | queue => rfl
  | queue2 => exact pollGet2_eq

theorem asyncPollPut_eq (h : s.pendingGet ≠ [] → s.container = []) :
    asyncPollPut k s i = pollPut s i := by
  cases k with
  | queue => rfl
  | queue2 => exact pollPut2_eq h

/-- A `Put` meets a waiting `Get`. -/
def afterHandover (s : Queue α) (i : Id) (v : α) (gs : List Id) (g : Id) : Queue α :=
  { s with
    pendingGet := gs
    get := Function.update s.get g ⟨some v, .scheduled⟩
    put := Function.update s.put i ⟨none, true, .idle⟩
    log := s.log ++ [.polled i v, .handed g v]
    done := s.done ++ [(i, v)] }

/-- A `Put` waits. -/
def afterWait (s : Queue α) (i : Id) (v : α) : Queue α :=
  { s with
    pendingPut := s.pendingPut ++ [i]
    put := Function.update s.put i ⟨some v, false, .suspended⟩
    log := s.log ++ [.polled i v] }

/-- A `Put` leaves its value in the container. -/
def afterStore (s : Queue α) (i : Id) (v : α) : Queue α :=
  { s with
    container := s.container ++ [v]
    put := Function.update s.put i ⟨none, true, .idle⟩
    log := s.log ++ [.polled i v]
    done := s.done ++ [(i, v)] }

/-- A `Get` takes from the container. -/
def afterTake (s : Queue α) (i : Id) (v : α) (rest : List α) : Queue α :=
  { s with
    container := rest
    get := Function.update s.get i ⟨some v, .returned⟩
    log := s.log ++ [.handed i v] }

/-- A `Get` meets a waiting `Put`. -/
def afterMeet (s : Queue α) (i : Id) (v : α) (ps : List Id) (p : Id) : Queue α :=
  { s with
    pendingPut := ps
    get := Function.update s.get i ⟨some v, .returned⟩
    put := Function.update s.put p { s.put p with result := true, stage := .scheduled }
    log := s.log ++ [.handed i v]
    done := s.done ++ [(p, v)] }

/-- A `Get` waits. -/
def afterStarve (s : Queue α) (i : Id) : Queue α :=
  { s with
    pendingGet := s.pendingGet ++ [i]
    get := Function.update s.get i ⟨none, .suspended⟩ }

/-- Where the task of a `Get` is neither in it nor woken, the `Get` is in no list. -/
theorem Loose.get_not_mem (h : s.Loose) (hi : (s.get i).stage = .idle ∨ (s.get i).stage = .returned) :
    i ∉ s.pendingGet := by
  intro hmem
  have hstage := ((h.get i).waiting hmem).1
  rcases hi with hi | hi <;> simp [hi] at hstage

theorem Loose.put_not_mem (h : s.Loose) (hi : (s.put i).stage = .idle) : i ∉ s.pendingPut := by
  intro hmem
  have hstage := ((h.put i).waiting hmem).1
  simp [hi] at hstage

theorem Rep.get_not_mem (h : s.Rep) (hi : (s.get i).stage ≠ .suspended) : i ∉ s.pendingGet :=
  fun hmem => hi ((h.get i).queued.mp hmem)

theorem Rep.put_not_mem (h : s.Rep) (hi : (s.put i).stage ≠ .suspended) : i ∉ s.pendingPut :=
  fun hmem => hi ((h.put i).queued.mp hmem)

theorem step_put (h : s.Loose) (hi : (s.put i).stage = .idle) :
    step k s (.put i v) =
      some (match s.pendingGet.getLast? with
        | some g => s.afterHandover i v s.pendingGet.dropLast g
        | none => if s.full then s.afterWait i v else s.afterStore i v) := by
  have hmem : i ∉ s.pendingPut := h.put_not_mem hi
  have hstarve : s.pendingGet ≠ [] → s.container = [] := fun hne => (h.starving hne).1
  rw [step, if_pos hi, asyncPollPut_eq (by simpa [operatorPut, modifyPut, emit] using hstarve)]
  rcases List.eq_nil_or_concat s.pendingGet with hg | ⟨gs, g, hg⟩
  · by_cases hf : s.full
    · simp [pollPut, operatorPut, modifyPut, emit, hg, store, hf, answerPut, afterWait,
        LinkedList.pushBack_of_not_mem hmem]
    · simp [pollPut, operatorPut, modifyPut, emit, hg, store, hf, answerPut, afterStore,
        emplacePut, finalizePut, List.erase_of_not_mem hmem]
  · have hgs : (s.get g).stage.resume = .scheduled := (h.get g).resume (by simp [hg])
    simp [pollPut, operatorPut, modifyPut, modifyGet, emit, hg, answerPut, afterHandover,
        emplacePut, emplaceGet, finalizePut, List.erase_of_not_mem hmem, hgs]

theorem step_get (h : s.Loose) (hi : (s.get i).stage = .idle) :
    step k s (.get i) =
      match s.container with
      | v :: rest => some (s.afterTake i v rest)
      | [] =>
        match s.pendingPut.getLast? with
        | some p => (s.put p).value.map fun v => s.afterMeet i v s.pendingPut.dropLast p
        | none => some (s.afterStarve i) := by
  have hmem : i ∉ s.pendingGet := h.get_not_mem (.inl hi)
  rw [step, if_pos hi, asyncPollGet_eq]
  cases hc : s.container with
  | cons v rest =>
    simp [pollGet, operatorGet, modifyGet, emit, hc, answerGet, afterTake, emplaceGet, finalizeGet,
      List.erase_of_not_mem hmem]
  | nil =>
    rcases List.eq_nil_or_concat s.pendingPut with hp | ⟨ps, p, hp⟩
    · simp [pollGet, operatorGet, modifyGet, hc, hp, answerGet, afterStarve,
        LinkedList.pushBack_of_not_mem hmem]
    · have hp' : p ∈ s.pendingPut := by simp [hp]
      have hps : (s.put p).stage.resume = .scheduled := (h.put p).resume hp'
      obtain ⟨v, hv⟩ := Option.isSome_iff_exists.mp ((h.put p).waiting hp').2.1
      simp [pollGet, operatorGet, modifyGet, modifyPut, emit, hc, hp, hv, answerGet, afterMeet,
        emplaceGet, emplacePut, finalizeGet, List.erase_of_not_mem hmem, hps]

theorem step_runPut (h : s.Rep) (hi : (s.put i).stage = .scheduled) :
    step k s (.runPut i) = some { s with put := Function.update s.put i ⟨none, true, .idle⟩ } := by
  have hmem : i ∉ s.pendingPut := h.put_not_mem (by simp [hi])
  rw [step, if_pos hi, asyncPollPut_eq fun hne => (h.starving hne).1]
  simp [pollPut, (h.put i).served hi, answerPut, finalizePut, modifyPut,
    List.erase_of_not_mem hmem]

theorem step_runGet (h : s.Rep) (hi : (s.get i).stage = .scheduled) :
    step k s (.runGet i) =
      some { s with get := Function.update s.get i { s.get i with stage := .returned } } := by
  have hmem : i ∉ s.pendingGet := h.get_not_mem (by simp [hi])
  rw [step, if_pos hi, asyncPollGet_eq]
  simp [pollGet, (h.get i).served (.inl hi), answerGet, finalizeGet, modifyGet,
    List.erase_of_not_mem hmem]

theorem step_read (hi : (s.get i).stage = .returned) (hv : (s.get i).result = some v) :
    step k s (.read i) =
      some { s with get := Function.update s.get i ⟨some v, .idle⟩, log := s.log ++ [.read i v] } := by
  simp [step, hi, hv, modifyGet, emit]

theorem step_cancelPut (hi : (s.put i).stage = .suspended ∨ (s.put i).stage = .scheduled) :
    step k s (.cancelPut i) =
      some { s with
        pendingPut := s.pendingPut.erase i
        put := Function.update s.put i ⟨none, (s.put i).result, .idle⟩ } := by
  simp [step, hi, finalizePut, modifyPut]

theorem step_cancelGet (hi : (s.get i).stage = .suspended ∨ (s.get i).stage = .scheduled) :
    step k s (.cancelGet i) =
      some { s with
        pendingGet := s.pendingGet.erase i
        get := Function.update s.get i ⟨(s.get i).result, .idle⟩ } := by
  simp [step, hi, finalizeGet, modifyGet]

/-- What the operation does, where it can happen. -/
def Steps (k : QueueKind) (s t : Queue α) : QueueOp α → Prop
  | .put i v =>
    (s.put i).stage = .idle ∧
      ∃ r, asyncPollPut k ((s.operatorPut i v).emit (.polled i v)) i = some r ∧ t = answerPut i r
  | .get i => (s.get i).stage = .idle ∧ ∃ r, asyncPollGet k (s.operatorGet i) i = some r ∧ t = answerGet i r
  | .runPut i => (s.put i).stage = .scheduled ∧ ∃ r, asyncPollPut k s i = some r ∧ t = answerPut i r
  | .runGet i => (s.get i).stage = .scheduled ∧ ∃ r, asyncPollGet k s i = some r ∧ t = answerGet i r
  | .read i =>
    (s.get i).stage = .returned ∧ ∃ v, (s.get i).result = some v ∧
      t = (s.modifyGet i fun x => { x with stage := .idle }).emit (.read i v)
  | .cancelPut i =>
    ((s.put i).stage = .suspended ∨ (s.put i).stage = .scheduled) ∧
      t = (s.finalizePut i).modifyPut i fun x => { x with stage := .idle }
  | .cancelGet i =>
    ((s.get i).stage = .suspended ∨ (s.get i).stage = .scheduled) ∧
      t = (s.finalizeGet i).modifyGet i fun x => { x with stage := .idle }

/-- The one inversion of `step`; what it keeps is shown operation by operation. -/
theorem step_cases {a : QueueOp α} (ht : step k s a = some t) : Steps k s t a := by
  cases a with
  | put i v | get i | runPut i | runGet i | read i =>
    obtain ⟨hs, ht⟩ := Option.ite_none_right_eq_some.mp ht
    obtain ⟨r, hr, rfl⟩ := Option.map_eq_some_iff.mp ht
    exact ⟨hs, r, hr, rfl⟩
  | cancelPut i | cancelGet i =>
    obtain ⟨hs, ht⟩ := Option.ite_none_right_eq_some.mp ht
    exact ⟨hs, (Option.some.inj ht).symm⟩

/-- The state of the task a label needs. -/
theorem step_stage {a : QueueOp α} (ht : step k s a = some t) :
    match a with
    | .put i _ => (s.put i).stage = .idle
    | .get i => (s.get i).stage = .idle
    | .runPut i => (s.put i).stage = .scheduled
    | .runGet i => (s.get i).stage = .scheduled
    | .read i => (s.get i).stage = .returned
    | .cancelPut i => (s.put i).stage = .suspended ∨ (s.put i).stage = .scheduled
    | .cancelGet i => (s.get i).stage = .suspended ∨ (s.get i).stage = .scheduled := by
  have hcases := step_cases ht
  cases a with
  | put i v | get i | runPut i | runGet i | read i | cancelPut i | cancelGet i => exact hcases.1

theorem put_cases (h : s.Loose) (ht : step k s (.put i v) = some t) :
    (∃ gs g, s.pendingGet = gs ++ [g] ∧ t = s.afterHandover i v gs g) ∨
    (s.pendingGet = [] ∧ s.full ∧ t = s.afterWait i v) ∨
    (s.pendingGet = [] ∧ ¬ s.full ∧ t = s.afterStore i v) := by
  rw [Queue.step_put h (step_stage ht)] at ht
  rcases List.eq_nil_or_concat s.pendingGet with hg | ⟨gs, g, hg⟩
  · right
    by_cases hf : s.full
    · exact .inl ⟨hg, hf, by simpa [hg, hf] using ht.symm⟩
    · exact .inr ⟨hg, hf, by simpa [hg, hf] using ht.symm⟩
  · have hg : s.pendingGet = gs ++ [g] := by simpa using hg
    exact .inl ⟨gs, g, hg, by simpa [hg] using ht.symm⟩

theorem get_cases (h : s.Loose) (ht : step k s (.get i) = some t) :
    (∃ v rest, s.container = v :: rest ∧ t = s.afterTake i v rest) ∨
    (∃ ps p v, s.container = [] ∧ s.pendingPut = ps ++ [p] ∧ (s.put p).value = some v ∧
      t = s.afterMeet i v ps p) ∨
    (s.container = [] ∧ s.pendingPut = [] ∧ t = s.afterStarve i) := by
  rw [Queue.step_get h (step_stage ht)] at ht
  cases hc : s.container with
  | cons v rest => exact .inl ⟨v, rest, rfl, by simpa [hc] using ht.symm⟩
  | nil =>
    right
    rcases List.eq_nil_or_concat s.pendingPut with hp | ⟨ps, p, hp⟩
    · exact .inr ⟨rfl, hp, by simpa [hc, hp] using ht.symm⟩
    · have hp : s.pendingPut = ps ++ [p] := by simpa using hp
      obtain ⟨v, hv, hmeet⟩ : ∃ v, (s.put p).value = some v ∧ s.afterMeet i v ps p = t := by
        simpa [hc, hp] using ht
      exact .inl ⟨ps, p, v, rfl, hp, hv, hmeet.symm⟩

/-! ### The representation is kept -/

theorem Rep.afterHandover (h : s.Rep) (hg : s.pendingGet = gs ++ [g]) : (s.afterHandover i v gs g).Rep := by
  have hnd := hg ▸ h.getNodup
  have hgn : g ∉ gs := by
    simp only [List.nodup_append] at hnd
    intro hmem
    exact hnd.2.2 g hmem g (by simp) rfl
  have hstarve := h.starving (by simp [hg])
  refine ⟨?_, ?_, hnd.sublist (List.sublist_append_left gs [g]), h.putNodup, fun _ => hstarve⟩
  · refine (Function.forall_update_iff s.get fun j x => x.Ok (j ∈ gs)).mpr ⟨?_, fun j hj => ?_⟩
    · exact ⟨by simp [hgn], by simp, by simp⟩
    · refine (h.get j).congr ?_
      simp [hg, hj]
  · refine (Function.forall_update_iff s.put fun j x => x.Ok (j ∈ s.pendingPut)).mpr
      ⟨?_, fun j _ => h.put j⟩
    exact ⟨by simp [hstarve.2], by simp, by simp⟩

theorem Rep.afterWait (h : s.Rep) (hi : (s.put i).stage = .idle) (hg : s.pendingGet = []) :
    (s.afterWait i v).Rep := by
  have hmem : i ∉ s.pendingPut := h.put_not_mem (by simp [hi])
  refine ⟨h.get, ?_, h.getNodup, ?_, fun hne => absurd hg hne⟩
  · refine (Function.forall_update_iff s.put fun j x => x.Ok (j ∈ s.pendingPut ++ [i])).mpr
      ⟨⟨by simp, by simp, by simp⟩, fun j hj => (h.put j).congr ?_⟩
    simp [hj]
  · exact List.nodup_append.mpr ⟨h.putNodup, by simp, by grind⟩

theorem Rep.afterStore (h : s.Rep) (hi : (s.put i).stage = .idle) (hg : s.pendingGet = []) :
    (s.afterStore i v).Rep := by
  have hmem : i ∉ s.pendingPut := h.put_not_mem (by simp [hi])
  refine ⟨h.get, ?_, h.getNodup, h.putNodup, fun hne => absurd hg hne⟩
  exact (Function.forall_update_iff s.put fun j x => x.Ok (j ∈ s.pendingPut)).mpr
    ⟨⟨by simp [hmem], by simp, by simp⟩, fun j _ => h.put j⟩

theorem Rep.afterTake (h : s.Rep) (hi : (s.get i).stage = .idle) (hc : s.container = v :: rest) :
    (s.afterTake i v rest).Rep := by
  have hmem : i ∉ s.pendingGet := h.get_not_mem (by simp [hi])
  refine ⟨?_, h.put, h.getNodup, h.putNodup, fun hne => ?_⟩
  · exact (Function.forall_update_iff s.get fun j x => x.Ok (j ∈ s.pendingGet)).mpr
      ⟨⟨by simp [hmem], by simp, by simp⟩, fun j _ => h.get j⟩
  · have := (h.starving hne).1
    simp [hc] at this

theorem Rep.afterMeet (h : s.Rep) (hi : (s.get i).stage = .idle)
    (hp : s.pendingPut = ps ++ [p]) : (s.afterMeet i v ps p).Rep := by
  have hmem : i ∉ s.pendingGet := h.get_not_mem (by simp [hi])
  have hnd := hp ▸ h.putNodup
  have hpn : p ∉ ps := by
    simp only [List.nodup_append] at hnd
    intro hmem
    exact hnd.2.2 p hmem p (by simp) rfl
  refine ⟨?_, ?_, h.getNodup, hnd.sublist (List.sublist_append_left ps [p]), fun hne => ?_⟩
  · exact (Function.forall_update_iff s.get fun j x => x.Ok (j ∈ s.pendingGet)).mpr
      ⟨⟨by simp [hmem], by simp, by simp⟩, fun j _ => h.get j⟩
  · refine (Function.forall_update_iff s.put fun j x => x.Ok (j ∈ ps)).mpr
      ⟨⟨by simp [hpn], by simp, by simp⟩, fun j hj => (h.put j).congr ?_⟩
    simp [hp, hj]
  · have := (h.starving hne).2
    simp [hp] at this

theorem Rep.afterStarve (h : s.Rep) (hi : (s.get i).stage = .idle) (hc : s.container = [])
    (hp : s.pendingPut = []) : (s.afterStarve i).Rep := by
  have hmem : i ∉ s.pendingGet := h.get_not_mem (by simp [hi])
  refine ⟨?_, h.put, ?_, h.putNodup, fun _ => ⟨hc, hp⟩⟩
  · refine (Function.forall_update_iff s.get fun j x => x.Ok (j ∈ s.pendingGet ++ [i])).mpr
      ⟨⟨by simp, by simp, by simp⟩, fun j hj => (h.get j).congr ?_⟩
    simp [hj]
  · exact List.nodup_append.mpr ⟨h.getNodup, by simp, by grind⟩

theorem Rep.step_put (h : s.Rep) (ht : step k s (.put i v) = some t) : t.Rep := by
  have hi := step_stage ht
  rcases put_cases h.loose ht with ⟨gs, g, hg, rfl⟩ | ⟨hg, -, rfl⟩ | ⟨hg, -, rfl⟩
  · exact h.afterHandover hg
  · exact h.afterWait hi hg
  · exact h.afterStore hi hg

theorem Rep.step_get (h : s.Rep) (ht : step k s (.get i) = some t) : t.Rep := by
  have hi := step_stage ht
  rcases get_cases h.loose ht with ⟨v, rest, hc, rfl⟩ | ⟨ps, p, v, -, hp, -, rfl⟩ | ⟨hc, hp, rfl⟩
  · exact h.afterTake hi hc
  · exact h.afterMeet hi hp
  · exact h.afterStarve hi hc hp

theorem Rep.step_run (h : s.Rep) (ht : step k s (.runPut i) = some t) : t.Rep := by
  have hi := step_stage ht
  rw [step_runPut h hi] at ht
  obtain rfl := Option.some.inj ht
  have hmem : i ∉ s.pendingPut := h.put_not_mem (by simp [hi])
  refine ⟨h.get, ?_, h.getNodup, h.putNodup, h.starving⟩
  exact (Function.forall_update_iff s.put fun j x => x.Ok (j ∈ s.pendingPut)).mpr
    ⟨⟨by simp [hmem], by simp, by simp⟩, fun j _ => h.put j⟩

theorem Rep.step (h : s.Rep) {a : QueueOp α} (ht : step k s a = some t) : t.Rep := by
  have hi := step_stage ht
  cases a with
  | put i v => exact h.step_put ht
  | get i => exact h.step_get ht
  | runPut i => exact h.step_run ht
  | runGet i =>
    rw [step_runGet h hi] at ht
    obtain rfl := Option.some.inj ht
    have hmem : i ∉ s.pendingGet := h.get_not_mem (by simp [hi])
    have hres := (h.get i).served (.inl hi)
    refine ⟨?_, h.put, h.getNodup, h.putNodup, h.starving⟩
    exact (Function.forall_update_iff s.get fun j x => x.Ok (j ∈ s.pendingGet)).mpr
      ⟨⟨by simp [hmem], by simp, by simp [hres]⟩, fun j _ => h.get j⟩
  | read i =>
    have hmem : i ∉ s.pendingGet := h.get_not_mem (by simp [hi])
    obtain ⟨v, hv⟩ := Option.isSome_iff_exists.mp ((h.get i).served (.inr hi))
    rw [step_read hi hv] at ht
    obtain rfl := Option.some.inj ht
    refine ⟨?_, h.put, h.getNodup, h.putNodup, h.starving⟩
    exact (Function.forall_update_iff s.get fun j x => x.Ok (j ∈ s.pendingGet)).mpr
      ⟨⟨by simp [hmem], by simp, by simp⟩, fun j _ => h.get j⟩
  | cancelPut i =>
    rw [step_cancelPut hi] at ht
    obtain rfl := Option.some.inj ht
    refine ⟨h.get, ?_, h.getNodup, h.putNodup.erase i, fun hne => ?_⟩
    · refine (Function.forall_update_iff s.put fun j x => x.Ok (j ∈ s.pendingPut.erase i)).mpr
        ⟨⟨?_, by simp, by simp⟩, fun j hj => (h.put j).congr ?_⟩
      · simp [h.putNodup.mem_erase_iff]
      · simp [h.putNodup.mem_erase_iff, hj]
    · have hs := h.starving hne
      exact ⟨hs.1, by simp [hs.2]⟩
  | cancelGet i =>
    rw [step_cancelGet hi] at ht
    obtain rfl := Option.some.inj ht
    refine ⟨?_, h.put, h.getNodup.erase i, h.putNodup, fun hne => h.starving ?_⟩
    · refine (Function.forall_update_iff s.get fun j x => x.Ok (j ∈ s.pendingGet.erase i)).mpr
        ⟨⟨?_, by simp, by simp⟩, fun j hj => (h.get j).congr ?_⟩
      · simp [h.getNodup.mem_erase_iff]
      · simp [h.getNodup.mem_erase_iff, hj]
    · intro hnil
      simp [hnil] at hne

end Queue

end Jinx.Sync
