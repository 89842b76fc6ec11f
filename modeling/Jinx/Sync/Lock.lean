import Jinx.Lib.Runs
import Jinx.Sync.Pending
import Mathlib.Data.Set.Card

/-! `Lock` and `AsyncLock` of `lock.hpp`.

    `unlock` passes the lock on: it wakes the waiter that came last and takes it out of the list,
    and from then on the waiter is the owner although it has not run yet. `async_finalize` tells
    from the pointer `_lock` alone that the `AsyncLock` is still waiting: it takes one off the
    counter and unlinks the node, but it wakes nobody. A waiter that is cancelled between the two
    leaves the others behind in a lock that nobody owns. -/

namespace Jinx.Sync

/-- What `AsyncLock::_fun` points to. -/
inductive Fun where
  | tryLock
  | locked
  deriving DecidableEq, Repr

/-- `AsyncLock`; `lock` says that the pointer `_lock` is not null. Its task is past it
    (`Stage.returned`) until it calls `unlock`. -/
structure AsyncLock where
  lock : Bool := false
  fn : Option Fun := none
  stage : Stage := .idle
  deriving DecidableEq, Repr

/-- A `Lock`, and every `AsyncLock` that is used with it. -/
structure Lock where
  lock : Int := 0
  pendingAws : List Id := []
  aw : Id → AsyncLock := fun _ => {}

namespace Lock

/-- Change the record of one `AsyncLock`. -/
def modify (s : Lock) (i : Id) (f : AsyncLock → AsyncLock) : Lock :=
  { s with aw := Function.update s.aw i (f (s.aw i)) }

/-! ### `AsyncLock` -/

/-- `AsyncLock::operator()`. -/
def operator (s : Lock) (i : Id) : Lock :=
  s.modify i fun a => { a with lock := true, fn := some .tryLock }

/-- `AsyncLock::wake`, that is `async_resume`: only a task that is suspended is put in the ready
    list, and a finalized awaitable has no task. -/
def wake (s : Lock) (i : Id) : Lock × ResultGeneric :=
  match (s.aw i).stage with
  | .suspended => (s.modify i fun a => { a with stage := .scheduled }, .successful)
  | _ => (s, .failed)

/-- `AsyncLock::async_finalize`. -/
def asyncFinalize (s : Lock) (i : Id) : Lock :=
  let s :=
    if (s.aw i).lock then
      { s with lock := s.lock - 1, pendingAws := (LinkedList.erase s.pendingAws i).1 }
    else s
  s.modify i fun a => { a with lock := false, fn := none }

/-- `AsyncLock::try_lock`. -/
def tryLock (s : Lock) (i : Id) : Lock × Async :=
  let old := s.lock
  let s := { s with lock := s.lock + 1 }
  if old = 0 then (s.modify i fun a => { a with lock := false }, .returned)
  else
    match LinkedList.pushFront s.pendingAws i with
    | (_, .failed) =>
      (s.modify i fun a => { a with lock := false }, .thrown (makeError .internalError))
    | (l, .successful) =>
      ({ s with pendingAws := l }.modify i fun a => { a with fn := some .locked }, .suspended)

/-- `AsyncLock::locked`. -/
def locked (s : Lock) (i : Id) : Lock × Async :=
  (s.modify i fun a => { a with lock := false }, .returned)

/-- `AsyncLock::async_poll`; there is nothing to call where `_fun` is null. -/
def asyncPoll (s : Lock) (i : Id) : Option (Lock × Async) :=
  match (s.aw i).fn with
  | none => none
  | some .tryLock => some (s.tryLock i)
  | some .locked => some (s.locked i)

/-! ### `Lock` -/

/-- `Lock::unlock`. The front of an empty list is the list's own end node, which is no `Wake`. -/
def unlock (s : Lock) : Option Lock :=
  let old := s.lock
  let s := { s with lock := s.lock - 1 }
  if old = 1 then some s
  else
    match s.pendingAws with
    | [] => none
    | i :: rest => some { (s.wake i).1 with pendingAws := rest }

/-! ### Runs -/

/-- What the answer means for the task: an awaitable that has returned or thrown is finalized. -/
def answer (i : Id) : Lock × Async → Lock
  | (s, .returned) => (s.asyncFinalize i).modify i fun a => { a with stage := .returned }
  | (s, .suspended) => s.modify i fun a => { a with stage := .suspended }
  | (s, .thrown _) => (s.asyncFinalize i).modify i fun a => { a with stage := .idle }

/-- The owner calls `unlock`. -/
def release (s : Lock) (i : Id) : Option Lock :=
  s.unlock.map fun s => s.modify i fun a => { a with stage := .idle }

/-- The task is cancelled, which finalizes the `AsyncLock` it is in. -/
def cancel (s : Lock) (i : Id) : Lock :=
  (s.asyncFinalize i).modify i fun a => { a with stage := .idle }

end Lock

/-- What can happen to a lock: an `AsyncLock` is awaited, a woken one runs, an owner unlocks, a
    waiter is cancelled. -/
inductive LockOp where
  | acquire (i : Id)
  | run (i : Id)
  | unlock (i : Id)
  | cancel (i : Id)
  deriving DecidableEq, Repr

namespace Lock

def step (s : Lock) : LockOp → Option Lock
  | .acquire i =>
    if (s.aw i).stage = .idle then ((s.operator i).asyncPoll i).map (answer i) else none
  | .run i => if (s.aw i).stage = .scheduled then (s.asyncPoll i).map (answer i) else none
  | .unlock i => if (s.aw i).stage = .returned then s.release i else none
  | .cancel i =>
    if (s.aw i).stage = .suspended ∨ (s.aw i).stage = .scheduled then some (s.cancel i) else none

/-- Runs of the lock. -/
abbrev exec : Lock → List LockOp → Option Lock := Runs.exec step

/-- A lock that was just constructed. -/
def init : Lock := {}

/-- A party owns the lock from the moment it is handed to it, also before it runs. -/
def Owns (s : Lock) (i : Id) : Prop := (s.aw i).stage = .scheduled ∨ (s.aw i).stage = .returned

/-- One owner at most, the counter counts the owner and the queue, and nobody waits for a lock
    that nobody owns. -/
structure Sound (s : Lock) : Prop where
  exclusive : ∀ i j, s.Owns i → s.Owns j → i = j
  counted : s.lock = {i | s.Owns i}.ncard + s.pendingAws.length
  owned : s.pendingAws ≠ [] → ∃ i, s.Owns i

/-- The label does not cancel a waiter that was woken while others are queued. -/
def Careful (s : Lock) : LockOp → Prop
  | .cancel i => (s.aw i).stage = .scheduled → s.pendingAws = []
  | _ => True

instance (s : Lock) : ∀ a, Decidable (s.Careful a)
  | .acquire _ => .isTrue trivial
  | .run _ => .isTrue trivial
  | .unlock _ => .isTrue trivial
  | .cancel i => inferInstanceAs (Decidable ((s.aw i).stage = .scheduled → s.pendingAws = []))

/-! ### The invariant -/

/-- The lock is owned by `o`, if by anybody, and the list holds the suspended waiters. -/
structure Inv (o : Option Id) (s : Lock) : Prop where
  owner : ∀ i, s.Owns i ↔ o = some i
  counter : s.lock = (if o.isSome then 1 else 0) + s.pendingAws.length
  owned : s.pendingAws ≠ [] → o.isSome
  nodup : s.pendingAws.Nodup
  mem : ∀ i, i ∈ s.pendingAws ↔ (s.aw i).stage = .suspended
  waiting : ∀ i, (s.aw i).stage = .suspended ∨ (s.aw i).stage = .scheduled →
    (s.aw i).lock ∧ (s.aw i).fn = some .locked

variable {s t : Lock} {i j : Id} {o : Option Id}

theorem init_inv : init.Inv none := by
  constructor <;> simp [init, Owns]

theorem Inv.sound (h : s.Inv o) : s.Sound := by
  have hset : {i | s.Owns i} = {i | o = some i} := Set.ext h.owner
  refine ⟨fun i j hi hj => ?_, ?_, fun hne => ?_⟩
  · have hi := (h.owner i).mp hi
    have hj := (h.owner j).mp hj
    exact Option.some.inj (hi.symm.trans hj)
  · rw [hset, h.counter]
    cases o with
    | none => simp
    | some i => simp [Set.ncard_singleton]
  · obtain ⟨i, hi⟩ := Option.isSome_iff_exists.mp (h.owned hne)
    exact ⟨i, (h.owner i).mpr hi⟩

/-! ### What one step does -/

/-- A free lock is taken at once. -/
theorem acquire_free (hl : s.lock = 0) (hi : (s.aw i).stage = .idle) :
    s.step (.acquire i) =
      some { s with lock := 1, aw := Function.update s.aw i ⟨false, none, .returned⟩ } := by
  simp [step, hi, asyncPoll, operator, modify, tryLock, hl, answer, asyncFinalize]

/-- A lock that is not free takes the waiter into its list. -/
theorem acquire_busy (hl : s.lock ≠ 0) (hi : (s.aw i).stage = .idle) (hmem : i ∉ s.pendingAws) :
    s.step (.acquire i) =
      some { lock := s.lock + 1, pendingAws := i :: s.pendingAws,
             aw := Function.update s.aw i ⟨true, some .locked, .suspended⟩ } := by
  simp [step, hi, asyncPoll, operator, modify, tryLock, hl,
    LinkedList.pushFront_of_not_mem hmem, answer]

/-- A woken waiter finds that it owns the lock. -/
theorem run_locked (hi : (s.aw i).stage = .scheduled) (hf : (s.aw i).fn = some .locked) :
    s.step (.run i) = some { s with aw := Function.update s.aw i ⟨false, none, .returned⟩ } := by
  simp [step, hi, asyncPoll, hf, modify, locked, answer, asyncFinalize]

/-- The last owner unlocks. -/
theorem unlock_last (hl : s.lock = 1) (hi : (s.aw i).stage = .returned) :
    s.step (.unlock i) =
      some { s with lock := 0,
                    aw := Function.update s.aw i { s.aw i with stage := .idle } } := by
  simp [step, hi, release, unlock, hl, modify]

/-- An owner hands the lock to the front of the list. -/
theorem unlock_handover {rest : List Id} (hl : s.lock ≠ 1) (hi : (s.aw i).stage = .returned)
    (hp : s.pendingAws = j :: rest) (hj : (s.aw j).stage = .suspended) (hij : i ≠ j) :
    s.step (.unlock i) =
      some { lock := s.lock - 1, pendingAws := rest,
             aw := Function.update (Function.update s.aw j { s.aw j with stage := .scheduled }) i
               { s.aw i with stage := .idle } } := by
  simp [step, hi, release, unlock, hl, hp, wake, hj, modify, Function.update_of_ne hij]

/-- A waiter that is cancelled gives its place in the counter back. -/
theorem cancel_waiting (hi : (s.aw i).stage = .suspended ∨ (s.aw i).stage = .scheduled)
    (hl : (s.aw i).lock) :
    s.step (.cancel i) =
      some { lock := s.lock - 1, pendingAws := s.pendingAws.erase i,
             aw := Function.update s.aw i ⟨false, none, .idle⟩ } := by
  simp [step, hi, cancel, asyncFinalize, hl, modify]

/-! ### The invariant is kept -/

theorem Inv.owns_stage (h : s.Inv o) (i : Id) :
    (s.aw i).stage = .scheduled ∨ (s.aw i).stage = .returned ↔ o = some i := h.owner i

theorem Inv.not_mem_of_idle (h : s.Inv o) (hi : (s.aw i).stage = .idle) : i ∉ s.pendingAws := by
  rw [h.mem, hi]
  decide

theorem Inv.lock_eq_zero (h : s.Inv none) : s.lock = 0 ∧ s.pendingAws = [] := by
  have hp : s.pendingAws = [] := by
    by_contra hne
    simpa using h.owned hne
  exact ⟨by simpa [hp] using h.counter, hp⟩

theorem Inv.lock_pos (h : s.Inv (some j)) : s.lock = 1 + s.pendingAws.length := by
  simpa using h.counter

theorem Inv.acquire (h : s.Inv o) (hi : (s.aw i).stage = .idle)
    (ht : s.step (.acquire i) = some t) : ∃ o', t.Inv o' := by
  cases o with
  | none =>
    obtain ⟨hl, hp⟩ := h.lock_eq_zero
    rw [acquire_free hl hi] at ht
    obtain rfl := Option.some.inj ht
    refine ⟨some i, fun j => ?_, ?_, ?_, ?_, fun j => ?_, fun j => ?_⟩
    · have := h.owns_stage j
      by_cases hj : j = i
      · simp [Owns, hj]
      · simp_all [Owns, eq_comm]
    · simp [hp]
    · simp
    · simp [hp]
    · have := h.mem j
      by_cases hj : j = i <;> simp_all
    · have := h.waiting j
      by_cases hj : j = i <;> simp_all
  | some k =>
    have hl : s.lock ≠ 0 := by
      have := h.lock_pos
      omega
    have hmem := h.not_mem_of_idle hi
    have hk : i ≠ k := by
      rintro rfl
      have := (h.owns_stage i).mpr rfl
      simp [hi] at this
    rw [acquire_busy hl hi hmem] at ht
    obtain rfl := Option.some.inj ht
    refine ⟨some k, fun j => ?_, ?_, ?_, ?_, fun j => ?_, fun j => ?_⟩
    · have := h.owns_stage j
      by_cases hj : j = i
      · simp [Owns, hj, hk.symm]
      · simpa [Owns, hj] using this
    · have := h.lock_pos
      simp only [Option.isSome_some, if_true, List.length_cons]
      push_cast
      omega
    · simp
    · exact List.nodup_cons.mpr ⟨hmem, h.nodup⟩
    · have := h.mem j
      by_cases hj : j = i <;> simp_all
    · have := h.waiting j
      by_cases hj : j = i <;> simp_all

theorem Inv.run (h : s.Inv o) (hi : (s.aw i).stage = .scheduled)
    (ht : s.step (.run i) = some t) : t.Inv o := by
  rw [run_locked hi (h.waiting i (.inr hi)).2] at ht
  obtain rfl := Option.some.inj ht
  refine ⟨fun j => ?_, h.counter, h.owned, h.nodup, fun j => ?_, fun j => ?_⟩
  · have := h.owns_stage j
    by_cases hj : j = i
    · simp_all [Owns]
    · simpa [Owns, hj] using this
  · have := h.mem j
    by_cases hj : j = i <;> simp_all
  · have := h.waiting j
    by_cases hj : j = i <;> simp_all

theorem Inv.unlock (h : s.Inv o) (hi : (s.aw i).stage = .returned)
    (ht : s.step (.unlock i) = some t) : ∃ o', t.Inv o' := by
  obtain rfl : o = some i := (h.owns_stage i).mp (.inr hi)
  cases hp : s.pendingAws with
  | nil =>
    rw [unlock_last (by simpa [hp] using h.lock_pos) hi] at ht
    obtain rfl := Option.some.inj ht
    refine ⟨none, fun j => ?_, ?_, ?_, h.nodup, fun j => ?_, fun j => ?_⟩
    · have := h.owns_stage j
      by_cases hj : j = i
      · simp [Owns, hj]
      · simp_all [Owns, eq_comm]
    · simp [hp]
    · simp [hp]
    · have := h.mem j
      by_cases hj : j = i <;> simp_all
    · have := h.waiting j
      by_cases hj : j = i <;> simp_all
  | cons j rest =>
    have hj : (s.aw j).stage = .suspended := (h.mem j).mp (by simp [hp])
    have hij : i ≠ j := by
      rintro rfl
      simp [hi] at hj
    have hnd : (j :: rest).Nodup := hp ▸ h.nodup
    have hlock := h.lock_pos
    rw [hp, List.length_cons] at hlock
    rw [unlock_handover (by omega) hi hp hj hij] at ht
    obtain rfl := Option.some.inj ht
    refine ⟨some j, fun k => ?_, ?_, ?_, (List.nodup_cons.mp hnd).2, fun k => ?_, fun k => ?_⟩
    · have := h.owns_stage k
      by_cases hk : k = i
      · simp [Owns, hk, hij.symm]
      · by_cases hkj : k = j
        · simp [Owns, hkj, hij.symm]
        · simp_all [Owns, eq_comm]
    · simp only [Option.isSome_some, if_true]
      omega
    · simp
    · have := h.mem k
      have := (List.nodup_cons.mp hnd).1
      by_cases hk : k = i
      · simp_all
      · by_cases hkj : k = j <;> simp_all
    · have := h.waiting k
      by_cases hk : k = i
      · simp_all
      · by_cases hkj : k = j <;> simp_all

/-- A waiter that is cancelled while it is queued, or that nobody waits behind. -/
theorem Inv.cancel (h : s.Inv o) (hC : s.Careful (.cancel i))
    (ht : s.step (.cancel i) = some t) : ∃ o', t.Inv o' := by
  have hi : (s.aw i).stage = .suspended ∨ (s.aw i).stage = .scheduled := by
    by_contra hno
    simp [step, hno] at ht
  rw [cancel_waiting hi (h.waiting i hi).1] at ht
  obtain rfl := Option.some.inj ht
  have hmem : ∀ j, j ∈ s.pendingAws.erase i ↔ j ≠ i ∧ j ∈ s.pendingAws := fun j =>
    h.nodup.mem_erase_iff
  rcases hi with hi | hi
  · have hin : i ∈ s.pendingAws := (h.mem i).mpr hi
    have hlen := List.length_erase_of_mem hin
    have hpos := List.length_pos_of_mem hin
    have ho := h.owned (List.ne_nil_of_mem hin)
    have hcount := h.counter
    refine ⟨o, fun j => ?_, ?_, fun _ => ho, h.nodup.erase i, fun j => ?_, fun j => ?_⟩
    · have := h.owns_stage j
      by_cases hj : j = i
      · simp_all [Owns]
      · simpa [Owns, hj] using this
    · simp only [ho, if_true] at hcount ⊢
      omega
    · have := h.mem j
      by_cases hj : j = i <;> simp_all
    · have := h.waiting j
      by_cases hj : j = i <;> simp_all
  · have hp : s.pendingAws = [] := hC hi
    obtain rfl : o = some i := (h.owns_stage i).mp (.inl hi)
    have hcount := h.lock_pos
    refine ⟨none, fun j => ?_, ?_, ?_, ?_, fun j => ?_, fun j => ?_⟩
    · have := h.owns_stage j
      by_cases hj : j = i
      · simp [Owns, hj]
      · simp_all [Owns, eq_comm]
    · simp [hp, hcount]
    · simp [hp]
    · simp [hp]
    · have := h.mem j
      by_cases hj : j = i <;> simp_all
    · have := h.waiting j
      by_cases hj : j = i <;> simp_all

theorem step_stage {a : LockOp} (ht : s.step a = some t) :
    match a with
    | .acquire i => (s.aw i).stage = .idle
    | .run i => (s.aw i).stage = .scheduled
    | .unlock i => (s.aw i).stage = .returned
    | .cancel i => (s.aw i).stage = .suspended ∨ (s.aw i).stage = .scheduled := by
  cases a with
  | acquire i | run i | unlock i | cancel i =>
    by_contra hno
    simp [step, hno] at ht

theorem Inv.step {a : LockOp} (h : s.Inv o) (hC : s.Careful a) (ht : s.step a = some t) :
    ∃ o', t.Inv o' := by
  have hstage := step_stage ht
  cases a with
  | acquire i => exact h.acquire hstage ht
  | run i => exact ⟨o, h.run hstage ht⟩
  | unlock i => exact h.unlock hstage ht
  | cancel i => exact h.cancel hC ht

/-- Whoever waits behind a woken waiter is left behind when that one is cancelled. -/
theorem Inv.stranded {a : LockOp} (h : s.Inv o) (hC : ¬ s.Careful a) (ht : s.step a = some t) :
    ¬ t.Sound := by
  cases a with
  | acquire i | run i | unlock i => exact absurd trivial hC
  | cancel i =>
    obtain ⟨hi, hne⟩ := Classical.not_imp.mp hC
    rw [cancel_waiting (.inr hi) (h.waiting i (.inr hi)).1] at ht
    obtain rfl := Option.some.inj ht
    have hi' : i ∉ s.pendingAws := by
      rw [h.mem, hi]
      decide
    obtain rfl : o = some i := (h.owns_stage i).mp (.inl hi)
    intro hsound
    obtain ⟨j, hj⟩ := hsound.owned (by rwa [List.erase_of_not_mem hi'])
    have := h.owns_stage j
    by_cases hj' : j = i
    · simp [Owns, hj'] at hj
    · simp_all [Owns, eq_comm]

/-- An owner can always unlock. -/
theorem Inv.unlock_isSome (h : s.Inv o) (hi : (s.aw i).stage = .returned) :
    (s.step (.unlock i)).isSome := by
  obtain rfl : o = some i := (h.owns_stage i).mp (.inr hi)
  cases hp : s.pendingAws with
  | nil => rw [unlock_last (by simpa [hp] using h.lock_pos) hi]; rfl
  | cons j rest =>
    have hj : (s.aw j).stage = .suspended := (h.mem j).mp (by simp [hp])
    have hij : i ≠ j := by
      rintro rfl
      simp [hi] at hj
    have hlock := h.lock_pos
    rw [hp, List.length_cons] at hlock
    rw [unlock_handover (by omega) hi hp hj hij]
    rfl

/-! ### Runs -/

theorem Inv.always_iff (h : s.Inv o) (as : List LockOp) (hrun : exec s as = some t) :
    Runs.Always Lock.step Sound s as ↔ Runs.Meets Lock.step Careful s as :=
  Runs.always_iff_meets (I := fun s => ∃ o, s.Inv o)
    (fun _ _ _ ⟨_, h⟩ hC ht => h.step hC ht) (fun _ ⟨_, h⟩ => h.sound)
    (fun _ _ _ ⟨_, h⟩ hC ht => h.stranded hC ht) as s t hrun ⟨o, h⟩

/-- The lock is sound in all states of a run if and only if nobody who was woken is cancelled while
    others are queued. -/
theorem lock_sound_iff (as : List LockOp) (t : Lock) (hrun : exec init as = some t) :
    Runs.Always step Sound init as ↔ Runs.Meets step Careful init as :=
  init_inv.always_iff as hrun

/-- Two wait for the owner; one of them is cancelled, the other is handed the lock and is cancelled
    when nobody waits any more. -/
theorem lock_sound_handover :
    Runs.Meets step Careful init
      [.acquire 0, .acquire 1, .acquire 2, .cancel 1, .unlock 0, .cancel 2, .acquire 3] ∧
    Runs.Always step Sound init
      [.acquire 0, .acquire 1, .acquire 2, .cancel 1, .unlock 0, .cancel 2, .acquire 3] := by
  have hmeets : Runs.Meets step Careful init
      [.acquire 0, .acquire 1, .acquire 2, .cancel 1, .unlock 0, .cancel 2, .acquire 3] := by
    decide
  exact ⟨hmeets, (lock_sound_iff _ _ rfl).mpr hmeets⟩

/-- The waiter 2 is woken and cancelled before it runs: the waiter 1 stays in the list of a lock
    that nobody owns. -/
theorem lock_waiter_stranded :
    (exec init [.acquire 0, .acquire 1, .acquire 2, .unlock 0, .cancel 2]).isSome ∧
    ¬ Runs.Always step Sound init [.acquire 0, .acquire 1, .acquire 2, .unlock 0, .cancel 2] := by
  refine ⟨rfl, fun hsound => ?_⟩
  have hmeets := (init_inv.always_iff _ rfl).mp hsound
  revert hmeets
  decide

end Lock

end Jinx.Sync
