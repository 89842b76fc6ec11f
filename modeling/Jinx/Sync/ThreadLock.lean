import Jinx.Lib.Runs
import Jinx.Sync.Pending
import Mathlib.Data.Set.Card

/-! `Lock` of `lock.hpp` between threads that call `lock` and tasks that await an `AsyncLock`.

    The counter and the list are only touched under `_mutex`, one access at a time here. What is not
    under it is the waiter: a thread sleeps in a `ThreadWake` on its own stack, and a task is suspended
    only after `try_lock` has returned and the guard is gone. `unlock` wakes the front of the list
    before it takes it out. So the woken thread can leave `lock`, and its node with it, while the node
    is still linked, and the task that is not suspended yet misses its only wake.

    The mutex of a `ThreadWake` is unlocked by another thread than the one that locked it; it is a
    binary semaphore here. Nobody is cancelled. -/

namespace Jinx.Sync

/-- Who takes part: a thread that calls `Lock::lock`, or a task that awaits its `AsyncLock`. -/
inductive Party where
  | thread
  | task
  deriving DecidableEq, Repr

/-- Where a party is in `lock` or `try_lock`, and in `unlock`. -/
inductive LockPlace where
  | outside
  /-- before `_mutex` is locked by `lock` or `try_lock` -/
  | locking
  /-- before `_lock.fetch_add(1)` -/
  | counting
  /-- it was the first; before `_mutex` is unlocked -/
  | entering
  /-- before `_pending_aws.push_front` -/
  | pushing
  /-- it is in the list; before `_mutex` is unlocked -/
  | queued
  /-- in `wake.sleep()`, or before the state `Suspended` of the task is stored -/
  | waiting
  | suspended
  /-- `sleep` can return, or the task is in the ready list -/
  | woken
  | owner
  /-- before `_mutex` is locked by `unlock` -/
  | unlocking
  /-- before `_lock.fetch_sub(1)` -/
  | discounting
  /-- before `_pending_aws.front()->wake()` -/
  | waking
  /-- before `_pending_aws.pop_front()` -/
  | popping
  /-- before the guard unlocks `_mutex` -/
  | finishing
  deriving DecidableEq, Repr

/-- A `Lock`, and where each party is. -/
structure ThreadLock where
  mutex : Option Id := none
  lock : Int := 0
  pendingAws : List Id := []
  place : Id → LockPlace := fun _ => .outside

/-- A party begins `lock` or `try_lock`, the owner begins `unlock`, a party takes its next step. -/
inductive ThreadLockOp where
  | lock (p : Id)
  | unlock (p : Id)
  | next (p : Id)
  deriving DecidableEq, Repr

namespace ThreadLock

variable (kind : Id → Party)

def goTo (s : ThreadLock) (p : Id) (x : LockPlace) : ThreadLock :=
  { s with place := Function.update s.place p x }

/-- Where the wake of a party finds it asleep. -/
def asleep : Party → LockPlace
  | .thread => .waiting
  | .task => .suspended

/-- `ThreadWake::wake` unlocks the mutex that the thread sleeps on; `AsyncLock::wake` ignores that a
    task which is not suspended cannot be resumed. -/
def wake (s : ThreadLock) (p : Id) : ThreadLock :=
  if s.place p = asleep (kind p) then s.goTo p .woken else s

/-- `push_front` of the own node. A `ThreadWake` is new, so only `try_lock` looks at the result. -/
def push (s : ThreadLock) (p : Id) : ThreadLock :=
  match LinkedList.pushFront s.pendingAws p, kind p with
  | (_, .failed), .task => s.goTo p .finishing
  | (l, _), _ => { s with pendingAws := l }.goTo p .queued

/-- One access of `lock`, `try_lock` or `unlock`, or the end of the wait. The front of an empty list is
    its end node, which is no `Wake`. -/
def next (s : ThreadLock) (p : Id) : Option ThreadLock :=
  match s.place p with
  | .outside | .owner => none
  | .locking => if s.mutex = none then some ({ s with mutex := some p }.goTo p .counting) else none
  | .counting =>
    some ({ s with lock := s.lock + 1 }.goTo p (if s.lock = 0 then .entering else .pushing))
  | .entering => some ({ s with mutex := none }.goTo p .owner)
  | .pushing => some (s.push kind p)
  | .queued => some ({ s with mutex := none }.goTo p .waiting)
  | .waiting => if kind p = .task then some (s.goTo p .suspended) else none
  | .suspended => none
  | .woken => some (s.goTo p .owner)
  | .unlocking =>
    if s.mutex = none then some ({ s with mutex := some p }.goTo p .discounting) else none
  | .discounting =>
    some ({ s with lock := s.lock - 1 }.goTo p (if s.lock = 1 then .finishing else .waking))
  | .waking =>
    match s.pendingAws with
    | [] => none
    | q :: _ => some ((s.wake kind q).goTo p .popping)
  | .popping => some ({ s with pendingAws := s.pendingAws.tail }.goTo p .finishing)
  | .finishing => some ({ s with mutex := none }.goTo p .outside)

def step (s : ThreadLock) : ThreadLockOp → Option ThreadLock
  | .lock p => if s.place p = .outside then some (s.goTo p .locking) else none
  | .unlock p => if s.place p = .owner then some (s.goTo p .unlocking) else none
  | .next p => s.next kind p

/-- Runs of the threads and the tasks. -/
abbrev exec : ThreadLock → List ThreadLockOp → Option ThreadLock := Runs.exec (step kind)

/-- A lock that was just constructed. -/
def init : ThreadLock := {}

end ThreadLock

namespace LockPlace

/-- The lock is the party's, from the moment it is handed over until it is counted off. -/
def owns : LockPlace → Bool
  | .entering | .woken | .owner | .unlocking | .discounting => true
  | _ => false

/-- The party is in the list, or in the hand of an `unlock`. -/
def waits : LockPlace → Bool
  | .queued | .waiting | .suspended => true
  | _ => false

/-- The thread is in `lock`, so its `ThreadWake` is there. -/
def hasNode : LockPlace → Bool
  | .pushing | .queued | .waiting | .woken => true
  | _ => false

def holdsMutex : LockPlace → Bool
  | .counting | .entering | .pushing | .queued | .discounting | .waking | .popping | .finishing => true
  | _ => false

/-- What the counter is ahead of the owner and the list while `_mutex` is held. -/
def ahead : LockPlace → Int
  | .pushing => 1
  | .waking | .popping => -1
  | _ => 0

end LockPlace

namespace ThreadLock

variable (kind : Id → Party)

/-! ### What is asked of a run -/

def Owns (s : ThreadLock) (p : Id) : Prop := (s.place p).owns = true

/-- One owner at most; a linked `ThreadWake` is still there; the wake of `unlock` has reached the
    front; a party that waits is in the list, so a later `unlock` finds it; the counter counts the
    owner and the list; and who is inside either waits for an owner or somebody can go on. -/
structure Sound (s : ThreadLock) : Prop where
  exclusive : ∀ p q, s.Owns p → s.Owns q → p = q
  linked : ∀ p ∈ s.pendingAws, kind p = .thread → (s.place p).hasNode = true
  reached : ∀ c, s.place c = .popping → ∀ q ∈ s.pendingAws.head?, s.Owns q
  listed : ∀ p, (s.place p).waits = true → p ∈ s.pendingAws
  counted : s.mutex = none → s.lock = {p | s.Owns p}.ncard + s.pendingAws.length
  moves : ∀ p, s.place p ≠ .outside →
    (∃ q, s.place q = .owner) ∨ ∃ q, (s.next kind q).isSome = true

/-- A thread that was woken leaves `lock` after its node has left the list, and `unlock` finds no task
    at the front that is not suspended yet. -/
def Careful (s : ThreadLock) : ThreadLockOp → Prop
  | .next p =>
    (s.place p = .woken → kind p = .thread → p ∉ s.pendingAws) ∧
    (s.place p = .waking → ∀ q ∈ s.pendingAws.head?, kind q = .task → s.place q = .suspended)
  | _ => True

instance (s : ThreadLock) : ∀ a, Decidable (s.Careful kind a)
  | .lock _ | .unlock _ => .isTrue trivial
  | .next p => inferInstanceAs (Decidable ((s.place p = .woken → kind p = .thread → p ∉ s.pendingAws) ∧
      (s.place p = .waking → ∀ q ∈ s.pendingAws.head?, kind q = .task → s.place q = .suspended)))

/-! ### The invariant -/

/-- The place of the party that holds `_mutex`. -/
def inside (s : ThreadLock) : LockPlace := s.mutex.elim .outside s.place

/-- The list without the node that `unlock` has woken already. -/
def rest (s : ThreadLock) : List Id :=
  if s.inside = .popping then s.pendingAws.tail else s.pendingAws

/-- `o` is the owner, or the party whose `unlock` has not handed the lock on yet. -/
structure Inv (o : Option Id) (s : ThreadLock) : Prop where
  mutex : ∀ p, s.mutex = some p ↔ (s.place p).holdsMutex = true
  owner : ∀ p, o = some p ↔ (s.place p).owns = true ∨ s.place p = .waking
  waits : ∀ p, (s.place p).waits = true ↔ p ∈ s.rest
  nodup : s.pendingAws.Nodup
  counter : s.lock = (if o.isSome then 1 else 0) + s.pendingAws.length + s.inside.ahead
  owned : s.pendingAws ≠ [] ∨ s.inside = .pushing → o.isSome = true
  waking : s.inside = .waking → s.pendingAws ≠ []
  popping : s.inside = .popping → ∃ q, s.pendingAws.head? = some q ∧ o = some q ∧
    (kind q = .thread → s.place q = .woken)
  task : ∀ p, s.place p = .suspended → kind p = .task

variable {kind} {s t : ThreadLock} {p q : Id} {o o' : Option Id} {x : LockPlace}

open LockPlace

/-! ### What one step does -/

theorem goTo_place_self (s : ThreadLock) (p : Id) (x : LockPlace) : (s.goTo p x).place p = x :=
  Function.update_self ..

theorem goTo_place_ne (h : q ≠ p) : (s.goTo p x).place q = s.place q := Function.update_of_ne h ..

theorem inside_none (hm : s.mutex = none) : s.inside = .outside := by
  rw [inside, hm]
  rfl

theorem inside_some (hm : s.mutex = some p) : s.inside = s.place p := by
  rw [inside, hm]
  rfl

theorem rest_eq (h : s.inside ≠ .popping) : s.rest = s.pendingAws := if_neg h

/-- What a step of `p` has to show: where `p` is afterwards, and that the others see no difference. -/
theorem Inv.frame (h : s.Inv kind o) (hother : ∀ q, q ≠ p → t.place q = s.place q)
    (hmutex : t.mutex = some p ↔ (t.place p).holdsMutex = true)
    (hmutex' : ∀ q, q ≠ p → (t.mutex = some q ↔ s.mutex = some q))
    (howner : o' = some p ↔ (t.place p).owns = true ∨ t.place p = .waking)
    (howner' : ∀ q, q ≠ p → (o' = some q ↔ o = some q))
    (hwaits : (t.place p).waits = true ↔ p ∈ t.rest)
    (hwaits' : ∀ q, q ≠ p → (q ∈ t.rest ↔ q ∈ s.rest)) (hnodup : t.pendingAws.Nodup)
    (hcounter : t.lock = (if o'.isSome then 1 else 0) + t.pendingAws.length + t.inside.ahead)
    (howned : t.pendingAws ≠ [] ∨ t.inside = .pushing → o'.isSome = true)
    (hwaking : t.inside = .waking → t.pendingAws ≠ [])
    (hpopping : t.inside = .popping → ∃ q, t.pendingAws.head? = some q ∧ o' = some q ∧
      (kind q = .thread → t.place q = .woken))
    (htask : t.place p = .suspended → kind p = .task) : t.Inv kind o' := by
  refine ⟨fun q => ?_, fun q => ?_, fun q => ?_, hnodup, hcounter, howned, hwaking, hpopping,
    fun q => ?_⟩ <;> rcases eq_or_ne q p with rfl | hne
  · exact hmutex
  · rw [hother q hne, hmutex' q hne, h.mutex]
  · exact howner
  · rw [hother q hne, howner' q hne, h.owner]
  · exact hwaits
  · rw [hother q hne, hwaits' q hne, h.waits]
  · exact htask
  · rw [hother q hne]
    exact h.task q

/-- A step outside the mutex: only the place changes. -/
theorem Inv.move (h : s.Inv kind o) (hmutex : (s.place p).holdsMutex = false)
    (hx : x.holdsMutex = false) (howns : x.owns = (s.place p).owns)
    (hwaits : x.waits = (s.place p).waits) (htask : x = .suspended → kind p = .task)
    (hwoken : s.place p = .woken → kind p = .thread → p ∉ s.pendingAws) :
    (s.goTo p x).Inv kind o := by
  have hne : s.mutex ≠ some p := by simp [h.mutex, hmutex]
  have hinside : (s.goTo p x).inside = s.inside := by
    cases hm : s.mutex with
    | none => rw [inside_none hm, inside_none (s := s.goTo p x) hm]
    | some q =>
      have hqp : q ≠ p := fun hqp => hne (hm.trans (congrArg some hqp))
      rw [inside_some hm, inside_some (s := s.goTo p x) hm, goTo_place_ne hqp]
  have hrest : (s.goTo p x).rest = s.rest := by
    rw [rest, rest, hinside]
    rfl
  have hself := goTo_place_self s p x
  have hnot (y) (hy : y.holdsMutex = true) : s.place p ≠ y ∧ x ≠ y := by
    constructor <;> rintro rfl <;> simp_all
  refine h.frame (fun q hq => goTo_place_ne hq) ?_ (fun _ _ => Iff.rfl) ?_ (fun _ _ => Iff.rfl) ?_
    (fun q _ => by rw [hrest]) h.nodup (by rw [hinside]; exact h.counter)
    (by rw [hinside]; exact h.owned) (by rw [hinside]; exact h.waking) ?_ (by rwa [hself])
  · rw [hself, hx]
    exact iff_of_false hne (by decide)
  · rw [hself, h.owner, howns, or_iff_left (hnot _ rfl).1, or_iff_left (hnot _ rfl).2]
  · rw [hself, hwaits, hrest, h.waits]
  · rw [hinside]
    intro hpop
    obtain ⟨q, hhead, ho, hthread⟩ := h.popping hpop
    refine ⟨q, hhead, ho, fun hk => ?_⟩
    rcases eq_or_ne q p with rfl | hqp
    · exact absurd (List.mem_of_mem_head? hhead) (hwoken (hthread hk) hk)
    · rw [goTo_place_ne hqp]
      exact hthread hk

/-- `_mutex` is taken by `lock` or by `unlock`. -/
theorem Inv.take (h : s.Inv kind o) (hm : s.mutex = none)
    (hx : s.place p = .locking ∧ x = .counting ∨ s.place p = .unlocking ∧ x = .discounting) :
    ({ s with mutex := some p }.goTo p x).Inv kind o := by
  have hself := goTo_place_self { s with mutex := some p } p x
  have hinside : ({ s with mutex := some p }.goTo p x).inside = x := by rw [inside_some rfl, hself]
  have hin := inside_none hm
  have hrest : ({ s with mutex := some p }.goTo p x).rest = s.rest := by
    rw [rest_eq (by rw [hinside]; rintro rfl; simp at hx), rest_eq (by rw [hin]; decide)]
    rfl
  have hcounter := h.counter
  have howner := h.owner p
  have hwaits := h.waits p
  rw [hin] at hcounter
  refine h.frame (fun q hq => goTo_place_ne hq) ?_ (fun q hq => ?_) ?_ (fun _ _ => Iff.rfl) ?_
    (fun q _ => by rw [hrest]) h.nodup ?_ ?_ ?_ ?_ ?_
  · rw [hself]
    obtain ⟨-, rfl⟩ | ⟨-, rfl⟩ := hx <;> exact iff_of_true rfl rfl
  · rw [hm]
    exact iff_of_false (fun hpq => hq (Option.some.inj hpq).symm) nofun
  · rw [hself, howner]
    obtain ⟨hp, rfl⟩ | ⟨hp, rfl⟩ := hx <;> rw [hp] <;> simp [owns]
  · rw [hself, hrest, ← hwaits]
    obtain ⟨hp, rfl⟩ | ⟨hp, rfl⟩ := hx <;> rw [hp] <;> rfl
  · rw [hinside]
    obtain ⟨-, rfl⟩ | ⟨-, rfl⟩ := hx <;> exact hcounter
  · rw [hinside]
    rintro (hne | rfl)
    · exact h.owned (.inl hne)
    · simp at hx
  · rw [hinside]
    rintro rfl
    simp at hx
  · rw [hinside]
    rintro rfl
    simp at hx
  · rw [hself]
    rintro rfl
    simp at hx

/-- `_mutex` is given back by the owner, by the waiter that is queued, or at the end of `unlock`. -/
theorem Inv.give (h : s.Inv kind o)
    (hx : s.place p = .entering ∧ x = .owner ∨ s.place p = .queued ∧ x = .waiting ∨
      s.place p = .finishing ∧ x = .outside) :
    ({ s with mutex := none }.goTo p x).Inv kind o := by
  have hm : s.mutex = some p := by
    rw [h.mutex]
    obtain ⟨hp, -⟩ | ⟨hp, -⟩ | ⟨hp, -⟩ := hx <;> rw [hp] <;> rfl
  have hself := goTo_place_self { s with mutex := none } p x
  have hinside : ({ s with mutex := none }.goTo p x).inside = .outside := rfl
  have hin : s.inside ≠ .popping ∧ s.inside.ahead = 0 := by
    rw [inside_some hm]
    obtain ⟨hp, -⟩ | ⟨hp, -⟩ | ⟨hp, -⟩ := hx <;> rw [hp] <;> decide
  have hrest : ({ s with mutex := none }.goTo p x).rest = s.rest := by
    rw [rest_eq (by rw [hinside]; decide), rest_eq hin.1]
    rfl
  have hcounter := h.counter
  have howner := h.owner p
  have hwaits := h.waits p
  rw [hin.2] at hcounter
  refine h.frame (fun q hq => goTo_place_ne hq) ?_ (fun q hq => ?_) ?_ (fun _ _ => Iff.rfl) ?_
    (fun q _ => by rw [hrest]) h.nodup hcounter ?_ (by rw [hinside]; nofun) (by rw [hinside]; nofun) ?_
  · rw [hself]
    obtain ⟨-, rfl⟩ | ⟨-, rfl⟩ | ⟨-, rfl⟩ := hx <;> exact iff_of_false nofun (by decide)
  · rw [hm]
    exact iff_of_false nofun fun hpq => hq (Option.some.inj hpq).symm
  · rw [hself, howner]
    obtain ⟨hp, rfl⟩ | ⟨hp, rfl⟩ | ⟨hp, rfl⟩ := hx <;> rw [hp] <;> simp [owns]
  · rw [hself, hrest, ← hwaits]
    obtain ⟨hp, rfl⟩ | ⟨hp, rfl⟩ | ⟨hp, rfl⟩ := hx <;> rw [hp] <;> rfl
  · rw [hinside]
    rintro (hne | hout)
    · exact h.owned (.inl hne)
    · exact nomatch hout
  · rw [hself]
    rintro rfl
    simp at hx

/-- A step under `_mutex` that wakes nobody: what it does to the counter and to the list. -/
theorem Inv.within (h : s.Inv kind o) (hm : s.mutex = some p) (hx : x.holdsMutex = true)
    (hpopping : x ≠ .popping) {n : Int} {l : List Id}
    (howner : o' = some p ↔ x.owns = true ∨ x = .waking)
    (hother : ∀ q, q ≠ p → (o' = some q ↔ o = some q)) (hwaits : x.waits = true ↔ p ∈ l)
    (hrest : ∀ q, q ≠ p → (q ∈ l ↔ q ∈ s.rest)) (hnodup : l.Nodup)
    (hcounter : n = (if o'.isSome then 1 else 0) + l.length + x.ahead)
    (howned : l ≠ [] ∨ x = .pushing → o'.isSome = true) (hwaking : x = .waking → l ≠ []) :
    ({ s with lock := n, pendingAws := l }.goTo p x).Inv kind o' := by
  have hself := goTo_place_self { s with lock := n, pendingAws := l } p x
  have hmutex : ({ s with lock := n, pendingAws := l }.goTo p x).mutex = some p := hm
  have hinside : ({ s with lock := n, pendingAws := l }.goTo p x).inside = x := by
    rw [inside_some hmutex, hself]
  have hrest' : ({ s with lock := n, pendingAws := l }.goTo p x).rest = l :=
    rest_eq (by rwa [hinside])
  refine h.frame (fun q hq => goTo_place_ne hq) ?_ (fun _ _ => Iff.rfl) ?_ hother ?_ ?_ hnodup ?_ ?_ ?_
    ?_ ?_
  · rw [hself]
    exact iff_of_true hm hx
  · rwa [hself]
  · rwa [hself, hrest']
  · rwa [hrest']
  · rwa [hinside]
  · rwa [hinside]
  · rwa [hinside]
  · rw [hinside]
    exact fun h => absurd h hpopping
  · rw [hself]
    rintro rfl
    cases hx

/-- `_lock.fetch_add(1)`: the first one owns the lock. -/
theorem Inv.count (h : s.Inv kind o) (hp : s.place p = .counting) :
    ∃ o', ({ s with lock := s.lock + 1 }.goTo p
      (if s.lock = 0 then .entering else .pushing)).Inv kind o' := by
  have hm : s.mutex = some p := (h.mutex p).mpr (by rw [hp]; rfl)
  have hin : s.inside = .counting := by rw [inside_some hm, hp]
  have hrest : s.rest = s.pendingAws := rest_eq (by rw [hin]; decide)
  have hnot : p ∉ s.pendingAws := by
    rw [← hrest, ← h.waits, hp]
    decide
  have ho : o ≠ some p := by
    rw [Ne, h.owner, hp]
    decide
  have hcounter : s.lock = (if o.isSome then 1 else 0) + s.pendingAws.length + 0 := by
    have hcounter := h.counter
    rwa [hin] at hcounter
  have hmem (q) (_ : q ≠ p) : q ∈ s.pendingAws ↔ q ∈ s.rest := by rw [hrest]
  split
  next hzero =>
    -- neither an owner nor a waiter is counted
    obtain ⟨rfl, hnil⟩ : o = none ∧ s.pendingAws = [] := by
      rw [hzero] at hcounter
      cases o with
      | none => exact ⟨rfl, List.length_eq_zero_iff.mp (by simpa using hcounter.symm)⟩
      | some q =>
        rw [Option.isSome_some, if_pos rfl] at hcounter
        omega
    refine ⟨some p, h.within hm rfl (by decide) (iff_of_true rfl (.inl rfl)) (fun q hq => ?_)
      (iff_of_false nofun hnot) hmem h.nodup ?_ (fun _ => rfl) nofun⟩
    · exact iff_of_false (fun hpq => hq (Option.some.inj hpq).symm) nofun
    · simp [hzero, hnil, ahead]
  next hne =>
    have hsome : o.isSome = true := by
      by_contra hnone
      rw [if_neg hnone] at hcounter
      refine hnone (h.owned (.inl fun hnil => hne ?_))
      simpa [hnil] using hcounter
    refine ⟨o, h.within hm rfl (by decide) (iff_of_false ho (by decide)) (fun _ _ => Iff.rfl)
      (iff_of_false nofun hnot) hmem h.nodup ?_ (fun _ => hsome) nofun⟩
    simp [hcounter, ahead]

/-- `_pending_aws.push_front`. -/
theorem Inv.push (h : s.Inv kind o) (hp : s.place p = .pushing) : (s.push kind p).Inv kind o := by
  have hm : s.mutex = some p := (h.mutex p).mpr (by rw [hp]; rfl)
  have hin : s.inside = .pushing := by rw [inside_some hm, hp]
  have hrest : s.rest = s.pendingAws := rest_eq (by rw [hin]; decide)
  have hnot : p ∉ s.pendingAws := by
    rw [← hrest, ← h.waits, hp]
    decide
  have hpush : s.push kind p = { s with pendingAws := p :: s.pendingAws }.goTo p .queued := by
    rw [ThreadLock.push, LinkedList.pushFront_of_not_mem hnot]
  have ho : o ≠ some p := by
    rw [Ne, h.owner, hp]
    decide
  have hcounter := h.counter
  rw [hin] at hcounter
  rw [hpush]
  refine h.within hm rfl (by decide) (iff_of_false ho (by decide)) (fun _ _ => Iff.rfl)
    (iff_of_true rfl List.mem_cons_self) (fun q hq => ?_) (List.nodup_cons.mpr ⟨hnot, h.nodup⟩) ?_
    (fun _ => h.owned (.inr hin)) nofun
  · rw [hrest, List.mem_cons, or_iff_right hq]
  · simp only [hcounter, ahead, List.length_cons]
    push_cast
    omega

/-- `_lock.fetch_sub(1)`: the last one leaves nobody behind. -/
theorem Inv.discount (h : s.Inv kind o) (hp : s.place p = .discounting) :
    ∃ o', ({ s with lock := s.lock - 1 }.goTo p
      (if s.lock = 1 then .finishing else .waking)).Inv kind o' := by
  have hm : s.mutex = some p := (h.mutex p).mpr (by rw [hp]; rfl)
  have hin : s.inside = .discounting := by rw [inside_some hm, hp]
  have hrest : s.rest = s.pendingAws := rest_eq (by rw [hin]; decide)
  have hnot : p ∉ s.pendingAws := by
    rw [← hrest, ← h.waits, hp]
    decide
  obtain rfl : o = some p := (h.owner p).mpr (.inl (by rw [hp]; rfl))
  have hcounter : s.lock = 1 + s.pendingAws.length + 0 := by
    have hcounter := h.counter
    rwa [hin] at hcounter
  have hmem (q) (_ : q ≠ p) : q ∈ s.pendingAws ↔ q ∈ s.rest := by rw [hrest]
  split
  next hone =>
    have hnil : s.pendingAws = [] := List.length_eq_zero_iff.mp (by omega)
    refine ⟨none, h.within hm rfl (by decide) (iff_of_false nofun (by decide)) (fun q hq => ?_)
      (iff_of_false nofun hnot) hmem h.nodup ?_ ?_ nofun⟩
    · exact iff_of_false nofun fun hpq => hq (Option.some.inj hpq).symm
    · simp [hone, hnil, ahead]
    · simp [hnil]
  next hne =>
    have hwait : s.pendingAws ≠ [] := by
      rintro hnil
      rw [hnil] at hcounter
      exact hne hcounter
    refine ⟨some p, h.within hm rfl (by decide) (iff_of_true rfl (.inr rfl)) (fun _ _ => Iff.rfl)
      (iff_of_false nofun hnot) hmem h.nodup ?_ (fun _ => rfl) fun _ => hwait⟩
    simp [hcounter, ahead]

/-- `_pending_aws.pop_front()`, after the front was woken. -/
theorem Inv.pop (h : s.Inv kind o) (hp : s.place p = .popping) :
    ({ s with pendingAws := s.pendingAws.tail }.goTo p .finishing).Inv kind o := by
  have hm : s.mutex = some p := (h.mutex p).mpr (by rw [hp]; rfl)
  have hin : s.inside = .popping := by rw [inside_some hm, hp]
  have hrest : s.rest = s.pendingAws.tail := if_pos hin
  obtain ⟨q, hhead, rfl, -⟩ := h.popping hin
  have hcounter := h.counter
  rw [hin] at hcounter
  refine h.within hm rfl (by decide) ?_ (fun _ _ => Iff.rfl) ?_ (fun q _ => by rw [hrest])
    h.nodup.tail ?_ (fun _ => rfl) nofun
  · rw [h.owner, hp]
    decide
  · rw [← hrest, ← h.waits, hp]
    decide
  · obtain ⟨ws, hws⟩ : ∃ ws, s.pendingAws = q :: ws := List.head?_eq_some_iff.mp hhead
    simp only [hcounter, hws, ahead, List.length_cons, List.tail_cons]
    push_cast
    omega

/-- `_pending_aws.front()->wake()` that finds the front asleep. -/
theorem Inv.handOver {ws : List Id} (h : s.Inv kind o) (hp : s.place p = .waking)
    (hws : s.pendingAws = q :: ws) (hq : s.place q = asleep (kind q)) :
    ((s.wake kind q).goTo p .popping).Inv kind (some q) := by
  have hm : s.mutex = some p := (h.mutex p).mpr (by rw [hp]; rfl)
  have hin : s.inside = .waking := by rw [inside_some hm, hp]
  have hrest : s.rest = s.pendingAws := rest_eq (by rw [hin]; decide)
  obtain rfl : o = some p := (h.owner p).mpr (.inr hp)
  have hqp : q ≠ p := by
    rintro rfl
    rw [hp] at hq
    cases hk : kind q <;> rw [hk] at hq <;> exact nomatch hq
  rw [wake, if_pos hq]
  set t := (s.goTo q .woken).goTo p .popping with ht
  have hself : t.place p = .popping := goTo_place_self ..
  have hwoken : t.place q = .woken := by rw [ht, goTo_place_ne hqp, goTo_place_self]
  have hother (r) (hrp : r ≠ p) (hrq : r ≠ q) : t.place r = s.place r := by
    rw [ht, goTo_place_ne hrp, goTo_place_ne hrq]
  have hmutex : t.mutex = some p := hm
  have hinside : t.inside = .popping := by rw [inside_some hmutex, hself]
  have hrest' : t.rest = ws := by
    rw [rest, if_pos hinside]
    exact congrArg List.tail hws
  have hnodup : (q :: ws).Nodup := hws ▸ h.nodup
  have hnot : q ∉ ws ∧ p ∉ ws := by
    refine ⟨(List.nodup_cons.mp hnodup).1, fun hmem => ?_⟩
    have hwaits : (s.place p).waits = true := by
      rw [h.waits, hrest, hws]
      exact List.mem_cons_of_mem q hmem
    rw [hp] at hwaits
    exact nomatch hwaits
  have hcounter := h.counter
  rw [hin] at hcounter
  refine ⟨fun r => ?_, fun r => ?_, fun r => ?_, h.nodup, ?_, fun _ => rfl, ?_, fun _ => ?_,
    fun r => ?_⟩
  · rcases eq_or_ne r p with rfl | hrp
    · rw [hself]
      exact iff_of_true hmutex rfl
    rcases eq_or_ne r q with rfl | hrq
    · rw [hwoken]
      exact iff_of_false (fun hr => hrp (Option.some.inj (hr.symm.trans hmutex))) (by decide)
    · rw [hother r hrp hrq, ← h.mutex]
      exact Iff.rfl
  · rcases eq_or_ne r q with rfl | hrq
    · rw [hwoken]
      exact iff_of_true rfl (.inl rfl)
    refine iff_of_false (fun hr => hrq (Option.some.inj hr).symm) ?_
    rcases eq_or_ne r p with rfl | hrp
    · rw [hself]
      decide
    · rw [hother r hrp hrq, ← h.owner]
      exact fun hr => hrp (Option.some.inj hr).symm
  · rw [hrest']
    rcases eq_or_ne r p with rfl | hrp
    · rw [hself]
      exact iff_of_false nofun hnot.2
    rcases eq_or_ne r q with rfl | hrq
    · rw [hwoken]
      exact iff_of_false nofun hnot.1
    · rw [hother r hrp hrq, h.waits, hrest, hws, List.mem_cons, or_iff_right hrq]
  · rw [hinside]
    exact hcounter
  · rw [hinside]
    nofun
  · exact ⟨q, congrArg List.head? hws, rfl, fun _ => hwoken⟩
  · intro hr
    rcases eq_or_ne r p with rfl | hrp
    · rw [hself] at hr
      exact nomatch hr
    rcases eq_or_ne r q with rfl | hrq
    · rw [hwoken] at hr
      exact nomatch hr
    · rw [hother r hrp hrq] at hr
      exact h.task r hr

theorem init_inv : init.Inv kind none := by
  constructor <;> simp [init, inside, rest, holdsMutex, owns, waits, ahead]

/-- What the front of the list is when `unlock` wakes it. -/
theorem Inv.front {ws : List Id} (h : s.Inv kind o) (hp : s.place p = .waking)
    (hws : s.pendingAws = q :: ws) :
    s.place q = .waiting ∨ s.place q = .suspended ∧ kind q = .task := by
  have hm : s.mutex = some p := (h.mutex p).mpr (by rw [hp]; rfl)
  have hrest : s.rest = s.pendingAws := rest_eq (by rw [inside_some hm, hp]; decide)
  have hwaits : (s.place q).waits = true := by
    rw [h.waits, hrest, hws]
    exact List.mem_cons_self
  cases hq : s.place q with
  | queued =>
    -- it would hold the mutex
    obtain rfl : p = q := Option.some.inj (hm.symm.trans ((h.mutex q).mpr (by rw [hq]; rfl)))
    rw [hp] at hq
    exact nomatch hq
  | waiting => exact .inl rfl
  | suspended => exact .inr ⟨rfl, h.task q hq⟩
  | _ =>
    rw [hq] at hwaits
    exact nomatch hwaits

theorem Inv.next (h : s.Inv kind o) (hcareful : s.Careful kind (.next p))
    (hnext : s.next kind p = some t) : ∃ o', t.Inv kind o' := by
  cases hp : s.place p with
  | outside | owner | suspended => simp [ThreadLock.next, hp] at hnext
  | locking =>
    rw [ThreadLock.next, hp] at hnext
    obtain ⟨hm, hs⟩ := Option.ite_none_right_eq_some.mp hnext
    obtain rfl := Option.some.inj hs
    exact ⟨o, h.take hm (.inl ⟨hp, rfl⟩)⟩
  | unlocking =>
    rw [ThreadLock.next, hp] at hnext
    obtain ⟨hm, hs⟩ := Option.ite_none_right_eq_some.mp hnext
    obtain rfl := Option.some.inj hs
    exact ⟨o, h.take hm (.inr ⟨hp, rfl⟩)⟩
  | counting =>
    obtain rfl : _ = t := by simpa [ThreadLock.next, hp] using hnext
    exact h.count hp
  | entering =>
    obtain rfl : _ = t := by simpa [ThreadLock.next, hp] using hnext
    exact ⟨o, h.give (.inl ⟨hp, rfl⟩)⟩
  | pushing =>
    obtain rfl : _ = t := by simpa [ThreadLock.next, hp] using hnext
    exact ⟨o, h.push hp⟩
  | queued =>
    obtain rfl : _ = t := by simpa [ThreadLock.next, hp] using hnext
    exact ⟨o, h.give (.inr (.inl ⟨hp, rfl⟩))⟩
  | waiting =>
    rw [ThreadLock.next, hp] at hnext
    obtain ⟨hk, hs⟩ := Option.ite_none_right_eq_some.mp hnext
    obtain rfl := Option.some.inj hs
    exact ⟨o, h.move (by rw [hp]; rfl) rfl (by rw [hp]; rfl) (by rw [hp]; rfl) (fun _ => hk)
      (by rw [hp]; nofun)⟩
  | woken =>
    obtain rfl : _ = t := by simpa [ThreadLock.next, hp] using hnext
    exact ⟨o, h.move (by rw [hp]; rfl) rfl (by rw [hp]; rfl) (by rw [hp]; rfl) nofun hcareful.1⟩
  | discounting =>
    obtain rfl : _ = t := by simpa [ThreadLock.next, hp] using hnext
    exact h.discount hp
  | waking =>
    rw [ThreadLock.next, hp] at hnext
    cases hws : s.pendingAws with
    | nil => simp [hws] at hnext
    | cons q ws =>
      rw [hws] at hnext
      obtain rfl := Option.some.inj hnext
      refine ⟨some q, h.handOver hp hws ?_⟩
      obtain hq | ⟨hq, hk⟩ := h.front hp hws
      · cases hk : kind q with
        | thread => exact hq
        | task => exact hcareful.2 hp q (by rw [hws]; rfl) hk
      · rw [hq, hk]
        rfl
  | popping =>
    obtain rfl : _ = t := by simpa [ThreadLock.next, hp] using hnext
    exact ⟨o, h.pop hp⟩
  | finishing =>
    obtain rfl : _ = t := by simpa [ThreadLock.next, hp] using hnext
    exact ⟨o, h.give (.inr (.inr ⟨hp, rfl⟩))⟩

/-- A step that is careful keeps the invariant. -/
theorem Inv.step {a : ThreadLockOp} (h : ∃ o, s.Inv kind o) (hcareful : s.Careful kind a)
    (hstep : s.step kind a = some t) : ∃ o, t.Inv kind o := by
  obtain ⟨o, h⟩ := h
  cases a with
  | lock p =>
    obtain ⟨hp, hs⟩ := Option.ite_none_right_eq_some.mp hstep
    obtain rfl := Option.some.inj hs
    exact ⟨o, h.move (by rw [hp]; rfl) rfl (by rw [hp]; rfl) (by rw [hp]; rfl) nofun
      (by rw [hp]; nofun)⟩
  | unlock p =>
    obtain ⟨hp, hs⟩ := Option.ite_none_right_eq_some.mp hstep
    obtain rfl := Option.some.inj hs
    exact ⟨o, h.move (by rw [hp]; rfl) rfl (by rw [hp]; rfl) (by rw [hp]; rfl) nofun
      (by rw [hp]; nofun)⟩
  | next p => exact h.next hcareful hstep

/-! ### What the invariant gives -/

theorem mem_of_rest (hmem : p ∈ s.rest) : p ∈ s.pendingAws := by
  unfold rest at hmem
  split at hmem
  · exact List.mem_of_mem_tail hmem
  · exact hmem

theorem Inv.inside_eq (h : s.Inv kind o) (hp : (s.place p).holdsMutex = true) :
    s.inside = s.place p :=
  inside_some ((h.mutex p).mpr hp)

/-- A party that is in `lock` or `unlock` and cannot go on is asleep, or waits for `_mutex`. -/
theorem Inv.stuck (h : s.Inv kind o) (hp : s.place p ≠ .outside) (hstuck : s.next kind p = none) :
    s.place p = .owner ∨ (s.place p).waits = true ∨ s.mutex ≠ none := by
  cases hx : s.place p with
  | outside => exact absurd hx hp
  | owner => exact .inl rfl
  | waiting | suspended => exact .inr (.inl rfl)
  | locking | unlocking =>
    refine .inr (.inr fun hm => ?_)
    simp [ThreadLock.next, hx, hm] at hstuck
  | waking =>
    have hwaking := h.waking (by rw [h.inside_eq (by rw [hx]; rfl), hx])
    obtain ⟨q, ws, hws⟩ := List.exists_cons_of_ne_nil hwaking
    simp [ThreadLock.next, hx, hws] at hstuck
  | _ => simp [ThreadLock.next, hx] at hstuck

/-- Who holds `_mutex` can go on. -/
theorem Inv.inside_next (h : s.Inv kind o) (hm : s.mutex = some p) :
    (s.next kind p).isSome = true := by
  have hp := (h.mutex p).mp hm
  cases hx : s.place p with
  | waking =>
    obtain ⟨q, ws, hws⟩ := List.exists_cons_of_ne_nil (h.waking (by rw [inside_some hm, hx]))
    simp [ThreadLock.next, hx, hws]
  | counting | entering | pushing | queued | discounting | popping | finishing =>
    simp [ThreadLock.next, hx]
  | _ =>
    rw [hx] at hp
    exact nomatch hp

/-- A node of the list is a waiter, or the front that was woken. -/
theorem Inv.node (h : s.Inv kind o) (hmem : p ∈ s.pendingAws) :
    (s.place p).waits = true ∨ s.inside = .popping ∧ s.pendingAws.head? = some p := by
  by_cases hin : s.inside = .popping
  · obtain ⟨q, ws, hws⟩ := List.exists_cons_of_ne_nil (List.ne_nil_of_mem hmem)
    rw [hws] at hmem ⊢
    rcases List.mem_cons.mp hmem with rfl | htail
    · exact .inr ⟨hin, rfl⟩
    · refine .inl ((h.waits p).mpr ?_)
      rw [rest, if_pos hin, hws]
      exact htail
  · refine .inl ((h.waits p).mpr ?_)
    rwa [rest_eq hin]

theorem Inv.owns_iff (h : s.Inv kind o) (hin : s.inside ≠ .waking) : s.Owns p ↔ o = some p := by
  refine ⟨fun hp => (h.owner p).mpr (.inl hp), fun ho => ((h.owner p).mp ho).resolve_right ?_⟩
  intro hp
  refine hin ?_
  rw [h.inside_eq (by rw [hp]; rfl), hp]

theorem not_waits_of_owns (hx : x.owns = true) : x.waits = false := by
  cases x with
  | queued | waiting | suspended => exact nomatch hx
  | _ => rfl

theorem Inv.moves (h : s.Inv kind o) (hp : s.place p ≠ .outside) :
    (∃ q, s.place q = .owner) ∨ ∃ q, (s.next kind q).isSome = true := by
  cases hm : s.mutex with
  | some q => exact .inr ⟨q, h.inside_next hm⟩
  | none =>
    have hin := inside_none hm
    by_contra hnone
    obtain ⟨howner, hnext⟩ := not_or.mp hnone
    have hstuck (q) (hq : s.place q ≠ .outside) : (s.place q).waits = true := by
      have hq' := h.stuck hq (Option.not_isSome_iff_eq_none.mp fun hsome => hnext ⟨q, hsome⟩)
      exact (hq'.resolve_left fun ho => howner ⟨q, ho⟩).resolve_right (not_not.mpr hm)
    -- the waiter is in the list, so the lock has an owner, who cannot wait himself
    have hmem : p ∈ s.pendingAws := mem_of_rest ((h.waits p).mp (hstuck p hp))
    obtain ⟨q, rfl⟩ := Option.isSome_iff_exists.mp (h.owned (.inl (List.ne_nil_of_mem hmem)))
    have hq : s.Owns q := (h.owns_iff (by rw [hin]; decide)).mpr rfl
    have hwaits := hstuck q fun hout => by
      rw [Owns, hout] at hq
      exact nomatch hq
    exact absurd hwaits (Bool.eq_false_iff.mp (not_waits_of_owns hq))

theorem Inv.sound (h : s.Inv kind o) : s.Sound kind := by
  have howns (p) (hp : s.Owns p) : o = some p := (h.owner p).mpr (.inl hp)
  refine ⟨fun p q hp hq => ?_, fun p hmem hk => ?_, fun c hc q hq => ?_, fun p hp => ?_, fun hm => ?_,
    fun p hp => h.moves hp⟩
  · exact Option.some.inj ((howns p hp).symm.trans (howns q hq))
  · obtain hwaits | ⟨hin, hhead⟩ := h.node hmem
    · cases hx : s.place p with
      | queued | waiting => rfl
      | suspended =>
        rw [h.task p hx] at hk
        exact nomatch hk
      | _ =>
        rw [hx] at hwaits
        exact nomatch hwaits
    · obtain ⟨q, hq, -, hwoken⟩ := h.popping hin
      obtain rfl : p = q := Option.some.inj (hhead.symm.trans hq)
      rw [hwoken hk]
      rfl
  · have hin : s.inside = .popping := by rw [h.inside_eq (by rw [hc]; rfl), hc]
    obtain ⟨r, hhead, ho, -⟩ := h.popping hin
    obtain rfl : r = q := Option.some.inj (hhead.symm.trans hq)
    exact (h.owns_iff (by rw [hin]; decide)).mpr ho
  · exact mem_of_rest ((h.waits p).mp hp)
  · have hin := inside_none hm
    have hset : {p | s.Owns p} = {p | o = some p} :=
      Set.ext fun p => h.owns_iff (by rw [hin]; decide)
    have hcounter := h.counter
    rw [hin] at hcounter
    rw [hset, hcounter]
    cases o with
    | none => simp [ahead]
    | some q => simp [ahead, Set.ncard_singleton]

/-- A step that is not careful leaves a node without its thread in the list, or a front that was not
    woken. -/
theorem Inv.unsound {a : ThreadLockOp} (h : s.Inv kind o) (hcareless : ¬ s.Careful kind a)
    (hstep : s.step kind a = some t) : ¬ t.Sound kind := by
  intro hsound
  cases a with
  | lock | unlock => exact hcareless trivial
  | next p =>
    refine hcareless ⟨fun hp hk hmem => ?_, fun hp q hq hk => ?_⟩
    · obtain rfl : _ = t := by simpa [ThreadLock.step, ThreadLock.next, hp] using hstep
      have hnode := hsound.linked p hmem hk
      rw [goTo_place_self] at hnode
      exact nomatch hnode
    · obtain ⟨ws, hws⟩ := List.head?_eq_some_iff.mp hq
      obtain hwaiting | ⟨hsuspended, -⟩ := h.front hp hws
      · have hwake : s.wake kind q = s := if_neg (by rw [hwaiting, hk]; decide)
        have hqp : q ≠ p := by
          rintro rfl
          rw [hp] at hwaiting
          exact nomatch hwaiting
        obtain rfl : s.goTo p .popping = t := by
          simpa [ThreadLock.step, ThreadLock.next, hp, hws, hwake] using hstep
        have howns := hsound.reached p (goTo_place_self ..) q hq
        rw [Owns, goTo_place_ne hqp, hwaiting] at howns
        exact nomatch howns
      · exact hsuspended

/-- Threads and tasks share the lock well exactly as long as no thread leaves `lock` before its node
    has left the list, and no `unlock` is faster than the task at the front is suspended. -/
theorem sound_iff_careful (as : List ThreadLockOp) (s : ThreadLock) (hrun : exec kind init as = some s) :
    Runs.Always (step kind) (Sound kind) init as ↔ Runs.Meets (step kind) (Careful kind) init as :=
  Runs.always_iff_meets (I := fun s => ∃ o, s.Inv kind o)
    (fun _ _ _ h hcareful hstep => Inv.step h hcareful hstep) (fun _ ⟨_, h⟩ => h.sound)
    (fun _ _ _ ⟨_, h⟩ hcareless hstep => h.unsound hcareless hstep) as init s hrun ⟨none, init_inv⟩

/-- Thread `1` sleeps, thread `0` unlocks, and `1` is gone before `0` has unlinked its node. -/
def goneEarly : List ThreadLockOp :=
  [.lock 0, .next 0, .next 0, .next 0, .lock 1, .next 1, .next 1, .next 1, .next 1,
   .unlock 0, .next 0, .next 0, .next 0, .next 1]

theorem sound_iff_careful_goneEarly :
    ¬ Runs.Always (step fun _ => .thread) (Sound fun _ => .thread) init goneEarly := by
  obtain ⟨s, hrun⟩ := Option.isSome_iff_exists.mp
    (show (exec (fun _ => .thread) init goneEarly).isSome = true by decide)
  rw [sound_iff_careful goneEarly s hrun]
  decide

end ThreadLock

end Jinx.Sync
