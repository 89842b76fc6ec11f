import Jinx.Lib.Runs
import Jinx.Sync.Pending

/-! `BufferPool` and `Allocate` of `buffer.hpp`.

    A buffer that nobody holds any more goes to the request that came last, else back to the
    reserve, else to the memory provider. Buffers are numbered as the provider hands them out;
    whether it has memory is an input. `_limit` is passed as a `size_t`, kept in a `long` and
    compared with a `size_t` again, so it is its unsigned value that counts. The views of the
    buffers are left out. -/

namespace Jinx.Sync

/-- A `BufferMemory`. -/
abbrev MemId := Nat

def categoryAsyncAllocate : Category := .other 3

/-- `enum class ErrorAllocate`, with `make_error`. -/
inductive ErrorAllocate where
  | noError
  | registerAllocateError
  | unregisterAllocateError
  deriving DecidableEq, Repr

def ErrorAllocate.toInt : ErrorAllocate → Int
  | .noError => 0
  | .registerAllocateError => 1
  | .unregisterAllocateError => 2

def ErrorAllocate.error (e : ErrorAllocate) : Error := ⟨e.toInt, categoryAsyncAllocate⟩

/-- `Allocate`; `pool` says that the pointer `_pool` is not null. -/
structure Allocate where
  pool : Bool := false
  result : Option MemId := none
  stage : Stage := .idle
  deriving DecidableEq, Repr

/-- A `BufferPool`, its buffers and every `Allocate` that is used with it. -/
structure BufferPool where
  reserve : Nat
  limit : UInt64
  activeBuffers : Nat := 0
  reserveBuffers : List MemId := []
  pendingRequests : List Id := []
  refc : MemId → Nat := fun _ => 0
  nextMem : MemId := 0
  aw : Id → Allocate := fun _ => {}

namespace BufferPool

/-- Change the record of one `Allocate`. -/
def modify (s : BufferPool) (i : Id) (f : Allocate → Allocate) : BufferPool :=
  { s with aw := Function.update s.aw i (f (s.aw i)) }

/-- `fetch_add(1)` on a buffer that nobody holds; else `error::fatal("buffer use after free")`. -/
def firstRef (s : BufferPool) (m : MemId) : Option BufferPool :=
  if s.refc m = 0 then some { s with refc := Function.update s.refc m 1 } else none

/-! ### `BufferPool` -/

/-- `BufferPool::allocate`, with what the memory provider answers. -/
def allocate (s : BufferPool) (mem : Bool) : Option (BufferPool × Option MemId) :=
  match s.reserveBuffers with
  | m :: rest => ({ s with reserveBuffers := rest }.firstRef m).map fun s => (s, some m)
  | [] =>
    if s.limit.toNat < s.activeBuffers then some (s, none)
    else if mem then
      let m := s.nextMem
      let s := { s with nextMem := m + 1, activeBuffers := s.activeBuffers + 1 }
      (s.firstRef m).map fun s => (s, some m)
    else some (s, none)

/-- `BufferPool::release`. A request that is served has its `_pool` set to null, so that
    `async_finalize` does not unlink it again. -/
def release (s : BufferPool) (m : MemId) : Option BufferPool :=
  match s.pendingRequests.getLast? with
  | some r =>
    (s.firstRef m).map fun s =>
      { s with pendingRequests := (LinkedList.erase s.pendingRequests r).1 }.modify r fun a =>
        { a with pool := false, result := some m, stage := a.stage.resume }
  | none =>
    if s.reserve ≤ s.reserveBuffers.length then
      some { s with activeBuffers := s.activeBuffers - 1 }
    else some { s with reserveBuffers := m :: s.reserveBuffers }

/-- `PointerShared::unref` of a handle. -/
def unref (s : BufferPool) (m : MemId) : Option BufferPool :=
  let s' := { s with refc := Function.update s.refc m (s.refc m - 1) }
  if s.refc m = 1 then s'.release m else some s'

/-- The first loop of `reconfigure`, for as many turns as there are buffers in the reserve. -/
def shrink (s : BufferPool) : Nat → Option BufferPool
  | 0 => some s
  | n + 1 =>
    match s.reserveBuffers with
    | [] => some s
    | m :: rest =>
      if s.reserve < s.reserveBuffers.length then
        ({ s with reserveBuffers := rest }.release m).bind fun s => s.shrink n
      else some s

/-- The second loop; the provider has memory for `grants` buffers. -/
def grow (s : BufferPool) : Nat → BufferPool
  | 0 => s
  | grants + 1 =>
    if s.reserveBuffers.length < s.reserve then
      { s with
        activeBuffers := s.activeBuffers + 1
        reserveBuffers := s.nextMem :: s.reserveBuffers
        nextMem := s.nextMem + 1 }.grow grants
    else s

/-- `BufferPool::reconfigure`. -/
def reconfigure (s : BufferPool) (reserve : Nat) (limit : UInt64) (grants : Nat) :
    Option BufferPool :=
  let s := { s with reserve := reserve, limit := limit }
  (s.shrink s.reserveBuffers.length).map fun s => s.grow grants

/-! ### `Allocate` -/

/-- `Allocate::operator()`; `reset` drops a handle that nobody took. -/
def operator (s : BufferPool) (i : Id) : Option BufferPool :=
  let s := s.modify i fun a => { a with pool := true }
  match (s.aw i).result with
  | none => some s
  | some m => (s.modify i fun a => { a with result := none }).unref m

/-- `Allocate::async_finalize`. -/
def asyncFinalize (s : BufferPool) (i : Id) : BufferPool :=
  if (s.aw i).pool then
    { s with pendingRequests := (LinkedList.erase s.pendingRequests i).1 }.modify i fun a =>
      { a with pool := false }
  else s

/-- `Allocate::async_poll`. -/
def asyncPoll (s : BufferPool) (i : Id) (mem : Bool) : Option (BufferPool × Async) :=
  if (s.aw i).result.isSome then some (s, .returned)
  else
    (s.allocate mem).map fun
      | (s, some m) => (s.modify i fun a => { a with result := some m }, .returned)
      | (s, none) =>
        match LinkedList.pushBack s.pendingRequests i with
        | (_, .failed) => (s, .thrown ErrorAllocate.registerAllocateError.error)
        | (l, .successful) => ({ s with pendingRequests := l }, .suspended)

/-! ### Runs -/

/-- What the answer means for the task: an awaitable that has returned or thrown is finalized. -/
def answer (i : Id) : BufferPool × Async → BufferPool
  | (s, .returned) => (s.asyncFinalize i).modify i fun a => { a with stage := .returned }
  | (s, .suspended) => s.modify i fun a => { a with stage := .suspended }
  | (s, .thrown _) => (s.asyncFinalize i).modify i fun a => { a with stage := .idle }

/-- A pool that was just constructed, where the provider had memory for `grants` buffers. -/
def init (reserve : Nat) (limit : UInt64) (grants : Nat) : BufferPool :=
  { reserve, limit : BufferPool }.grow grants

end BufferPool

/-- What can happen: a buffer is allocated at once, a handle is copied or dropped, an `Allocate` is
    awaited, runs after it was served, is cancelled, its caller takes the handle out of it, the pool
    is reconfigured. -/
inductive PoolOp where
  | allocate (mem : Bool)
  | copy (m : MemId)
  | drop (m : MemId)
  | request (i : Id) (mem : Bool)
  | run (i : Id) (mem : Bool)
  | cancel (i : Id)
  | take (i : Id)
  | reconfigure (reserve : Nat) (limit : UInt64) (grants : Nat)
  deriving DecidableEq, Repr

namespace BufferPool

def step (s : BufferPool) : PoolOp → Option BufferPool
  | .allocate mem => (s.allocate mem).map Prod.fst
  | .copy m =>
    if 0 < s.refc m then some { s with refc := Function.update s.refc m (s.refc m + 1) } else none
  | .drop m => if 0 < s.refc m then s.unref m else none
  | .request i mem =>
    if (s.aw i).stage = .idle ∨ (s.aw i).stage = .returned then
      (s.operator i).bind fun s => (s.asyncPoll i mem).map (answer i)
    else none
  | .run i mem => if (s.aw i).stage = .scheduled then (s.asyncPoll i mem).map (answer i) else none
  | .cancel i =>
    if (s.aw i).stage = .suspended ∨ (s.aw i).stage = .scheduled then
      some ((s.asyncFinalize i).modify i fun a => { a with stage := .idle })
    else none
  | .take i =>
    if (s.aw i).stage = .returned then
      some (s.modify i fun a => { a with result := none, stage := .idle })
    else none
  | .reconfigure reserve limit grants => s.reconfigure reserve limit grants

/-- Runs of a pool. -/
abbrev exec : BufferPool → List PoolOp → Option BufferPool := Runs.exec step

end BufferPool

/-! ### Representation -/

/-- A request that is in the list has no buffer yet; one whose task was woken has one. -/
structure Allocate.Ok (queued : Prop) (a : Allocate) : Prop where
  queued : queued ↔ a.stage = .suspended
  waiting : a.stage = .suspended → a.pool ∧ a.result = none
  served : a.stage = .scheduled → a.result.isSome

theorem Allocate.Ok.congr {q q' : Prop} {a : Allocate} (h : a.Ok q) (hq : q' ↔ q) : a.Ok q' :=
  ⟨hq.trans h.queued, h.waiting, h.served⟩

namespace BufferPool

structure Rep (s : BufferPool) : Prop where
  aw : ∀ i, (s.aw i).Ok (i ∈ s.pendingRequests)
  nodup : s.pendingRequests.Nodup

variable {s t : BufferPool} {i : Id} {m : MemId}

/-- What does not touch the requests keeps them in order. -/
theorem Rep.congr (h : s.Rep) (haw : t.aw = s.aw) (hp : t.pendingRequests = s.pendingRequests) :
    t.Rep := ⟨by rw [haw, hp]; exact h.aw, hp ▸ h.nodup⟩

theorem firstRef_frame (h : s.firstRef m = some t) :
    t.aw = s.aw ∧ t.pendingRequests = s.pendingRequests := by
  unfold firstRef at h
  split at h
  · obtain rfl := Option.some.inj h
    exact ⟨rfl, rfl⟩
  · cases h

theorem allocate_frame {mem : Bool} {r : Option MemId} (h : s.allocate mem = some (t, r)) :
    t.aw = s.aw ∧ t.pendingRequests = s.pendingRequests := by
  unfold allocate at h
  cases hr : s.reserveBuffers with
  | cons m rest =>
    simp only [hr, Option.map_eq_some_iff, Prod.mk.injEq] at h
    obtain ⟨u, hu, rfl, -⟩ := h
    have hframe := firstRef_frame hu
    exact hframe
  | nil =>
    simp only [hr] at h
    split at h
    · obtain ⟨rfl, -⟩ := by simpa using h
      exact ⟨rfl, rfl⟩
    · split at h
      · simp only [Option.map_eq_some_iff, Prod.mk.injEq] at h
        obtain ⟨u, hu, rfl, -⟩ := h
        have hframe := firstRef_frame hu
        exact hframe
      · obtain ⟨rfl, -⟩ := by simpa using h
        exact ⟨rfl, rfl⟩

/-- A request is served, if there is one; nothing else changes for the requests. -/
theorem Rep.release (h : s.Rep) (ht : s.release m = some t) :
    t.Rep ∧ ∀ j, (s.aw j).stage ≠ .suspended → t.aw j = s.aw j := by
  unfold BufferPool.release at ht
  rcases List.eq_nil_or_concat s.pendingRequests with hp | ⟨l, r, hp⟩
  · have hlast : s.pendingRequests.getLast? = none := by simp [hp]
    simp only [hlast] at ht
    split at ht <;> obtain rfl := Option.some.inj ht <;> exact ⟨⟨h.aw, h.nodup⟩, fun _ _ => rfl⟩
  · have hlast : s.pendingRequests.getLast? = some r := by simp [hp]
    simp only [hlast, Option.map_eq_some_iff] at ht
    obtain ⟨u, hu, rfl⟩ := ht
    obtain ⟨haw, hpend⟩ := firstRef_frame hu
    have hrep : u.Rep := h.congr haw hpend
    have hr : (u.aw r).stage = .suspended := (hrep.aw r).queued.mp (by simp [hpend, hp])
    refine ⟨⟨?_, ?_⟩, fun j hj => ?_⟩
    · refine (Function.forall_update_iff u.aw fun j a =>
        a.Ok (j ∈ (LinkedList.erase u.pendingRequests r).1)).mpr ⟨?_, fun j hj => (hrep.aw j).congr ?_⟩
      · exact ⟨by simp [hrep.nodup.mem_erase_iff, hr, Stage.resume], by simp [hr, Stage.resume],
          by simp⟩
      · simp [hrep.nodup.mem_erase_iff, hj]
    · simpa [modify] using hrep.nodup.erase r
    · have hjr : j ≠ r := by
        rintro rfl
        exact hj (haw ▸ hr)
      simp [modify, hjr, haw]

theorem Rep.unref (h : s.Rep) (ht : s.unref m = some t) :
    t.Rep ∧ ∀ j, (s.aw j).stage ≠ .suspended → t.aw j = s.aw j := by
  have h' : Rep { s with refc := Function.update s.refc m (s.refc m - 1) } := ⟨h.aw, h.nodup⟩
  unfold BufferPool.unref at ht
  simp only at ht
  split at ht
  · have hrelease := h'.release ht
    exact hrelease
  · obtain rfl := Option.some.inj ht
    exact ⟨h', fun _ _ => rfl⟩

theorem Rep.shrink (n : Nat) (h : s.Rep) (ht : s.shrink n = some t) : t.Rep := by
  induction n generalizing s with
  | zero =>
    obtain rfl := Option.some.inj ht
    exact h
  | succ n ih =>
    cases hr : s.reserveBuffers with
    | nil =>
      obtain rfl : s = t := by simpa [BufferPool.shrink, hr] using ht
      exact h
    | cons m rest =>
      simp only [BufferPool.shrink, hr] at ht
      split at ht
      · obtain ⟨u, hu, ht⟩ := Option.bind_eq_some_iff.mp ht
        have h' : Rep { s with reserveBuffers := rest } := ⟨h.aw, h.nodup⟩
        exact ih (h'.release hu).1 ht
      · obtain rfl := Option.some.inj ht
        exact h

theorem Rep.grow (grants : Nat) (h : s.Rep) : (s.grow grants).Rep := by
  induction grants generalizing s with
  | zero => exact h
  | succ grants ih =>
    unfold BufferPool.grow
    split
    · exact ih ⟨h.aw, h.nodup⟩
    · exact h

theorem init_rep (reserve : Nat) (limit : UInt64) (grants : Nat) :
    (init reserve limit grants).Rep := by
  refine Rep.grow grants ⟨fun i => ⟨?_, ?_, ?_⟩, List.nodup_nil⟩ <;> simp

/-- The record of a request that is not in the list, and leaves it that way. -/
theorem Rep.update (h : s.Rep) (hi : i ∉ s.pendingRequests) {a : Allocate} (ha : a.Ok False) :
    Rep { s with aw := Function.update s.aw i a } := by
  refine ⟨?_, h.nodup⟩
  exact (Function.forall_update_iff s.aw fun j a => a.Ok (j ∈ s.pendingRequests)).mpr
    ⟨ha.congr (iff_of_false hi id), fun j _ => h.aw j⟩

theorem Rep.not_mem (h : s.Rep) (hi : (s.aw i).stage ≠ .suspended) : i ∉ s.pendingRequests :=
  fun hmem => hi ((h.aw i).queued.mp hmem)

theorem Rep.operator (h : s.Rep) (hi : (s.aw i).stage = .idle ∨ (s.aw i).stage = .returned)
    (ht : s.operator i = some t) : t.Rep ∧ t.aw i = ⟨true, none, (s.aw i).stage⟩ := by
  have hne : (s.aw i).stage ≠ .suspended := by rcases hi with hi | hi <;> simp [hi]
  have hne' : (s.aw i).stage ≠ .scheduled := by rcases hi with hi | hi <;> simp [hi]
  have hok : ∀ r, Allocate.Ok False ⟨true, r, (s.aw i).stage⟩ := fun r =>
    ⟨by simp [hne], by simp [hne], by simp [hne']⟩
  unfold BufferPool.operator at ht
  cases hr : (s.aw i).result with
  | none =>
    obtain rfl : s.modify i (fun a => { a with pool := true }) = t := by
      simpa [modify, hr] using ht
    exact ⟨h.update (h.not_mem hne) (hok _), by simp [modify, hr]⟩
  | some m =>
    have hrep : Rep { s with aw := Function.update s.aw i ⟨true, none, (s.aw i).stage⟩ } :=
      h.update (h.not_mem hne) (hok none)
    have ht : { s with aw := Function.update s.aw i ⟨true, none, (s.aw i).stage⟩ }.unref m = some t := by
      simpa [modify, hr] using ht
    obtain ⟨hrep', hframe⟩ := hrep.unref ht
    exact ⟨hrep', by simpa using hframe i (by simp [hne])⟩

/-- An `Allocate` is finalized. -/
theorem Rep.leave (h : s.Rep) {st : Stage} (hst : st = .idle ∨ st = .returned) :
    ((s.asyncFinalize i).modify i fun a => { a with stage := st }).Rep := by
  have hne : st ≠ .suspended ∧ st ≠ .scheduled := by rcases hst with rfl | rfl <;> simp
  unfold asyncFinalize
  split
  · refine ⟨?_, by simpa [modify] using h.nodup.erase i⟩
    simp only [modify, Function.update_idem, LinkedList.erase_fst, Function.update_self]
    refine (Function.forall_update_iff s.aw fun j a => a.Ok (j ∈ s.pendingRequests.erase i)).mpr
      ⟨⟨by simp [h.nodup.mem_erase_iff, hne], by simp [hne], by simp [hne]⟩, fun j hj =>
        (h.aw j).congr ?_⟩
    simp [h.nodup.mem_erase_iff, hj]
  · rename_i hpool
    have hi : i ∉ s.pendingRequests := fun hmem =>
      hpool ((h.aw i).waiting ((h.aw i).queued.mp hmem)).1
    exact h.update hi ⟨by simp [hne], by simp [hne], by simp [hne]⟩

/-- A new request is served at once, or waits. -/
theorem Rep.request {mem : Bool} {r : BufferPool × Async} (h : s.Rep) (hi : i ∉ s.pendingRequests)
    (hpool : (s.aw i).pool) (hnone : (s.aw i).result = none) (ht : s.asyncPoll i mem = some r) :
    (answer i r).Rep := by
  unfold asyncPoll at ht
  simp only [hnone, Option.isSome_none, Bool.false_eq_true, if_false, Option.map_eq_some_iff] at ht
  obtain ⟨⟨u, o⟩, hu, rfl⟩ := ht
  obtain ⟨haw, hp⟩ := allocate_frame hu
  have hrep : u.Rep := h.congr haw hp
  have hi' : i ∉ u.pendingRequests := hp ▸ hi
  cases o with
  | some m =>
    have hns : (u.aw i).stage ≠ .suspended := fun hs => hi' ((hrep.aw i).queued.mpr hs)
    have hrep' : (u.modify i fun a => { a with result := some m }).Rep :=
      hrep.update hi' ⟨by simp [hns], by simp [hns], by simp⟩
    exact hrep'.leave (.inr rfl)
  | none =>
    simp only [LinkedList.pushBack_of_not_mem hi', answer]
    refine ⟨?_, List.nodup_append.mpr ⟨hrep.nodup, by simp, by grind⟩⟩
    refine (Function.forall_update_iff u.aw fun j a => a.Ok (j ∈ u.pendingRequests ++ [i])).mpr
      ⟨⟨by simp, fun _ => ⟨haw ▸ hpool, haw ▸ hnone⟩, by simp⟩, fun j hj => (hrep.aw j).congr ?_⟩
    simp [hj]

/-- What the operation does, where it can happen. -/
def Steps (s t : BufferPool) : PoolOp → Prop
  | .allocate mem => ∃ r, s.allocate mem = some (t, r)
  | .copy m => 0 < s.refc m ∧ t = { s with refc := Function.update s.refc m (s.refc m + 1) }
  | .drop m => 0 < s.refc m ∧ s.unref m = some t
  | .request i mem =>
    ((s.aw i).stage = .idle ∨ (s.aw i).stage = .returned) ∧
      ∃ u r, s.operator i = some u ∧ u.asyncPoll i mem = some r ∧ t = answer i r
  | .run i mem => (s.aw i).stage = .scheduled ∧ ∃ r, s.asyncPoll i mem = some r ∧ t = answer i r
  | .cancel i =>
    ((s.aw i).stage = .suspended ∨ (s.aw i).stage = .scheduled) ∧
      t = (s.asyncFinalize i).modify i fun a => { a with stage := .idle }
  | .take i => (s.aw i).stage = .returned ∧ t = s.modify i fun a => { a with result := none, stage := .idle }
  | .reconfigure reserve limit grants => s.reconfigure reserve limit grants = some t

/-- The one inversion of `step`; what it keeps is shown operation by operation. -/
theorem step_cases {a : PoolOp} (ht : s.step a = some t) : s.Steps t a := by
  cases a with
  | allocate mem =>
    obtain ⟨⟨u, r⟩, hu, rfl⟩ := Option.map_eq_some_iff.mp ht
    exact ⟨r, hu⟩
  | copy m | cancel i | take i =>
    obtain ⟨hs, ht⟩ := Option.ite_none_right_eq_some.mp ht
    exact ⟨hs, (Option.some.inj ht).symm⟩
  | drop m => exact Option.ite_none_right_eq_some.mp ht
  | request i mem =>
    obtain ⟨hs, ht⟩ := Option.ite_none_right_eq_some.mp ht
    obtain ⟨u, hu, ht⟩ := Option.bind_eq_some_iff.mp ht
    obtain ⟨r, hr, rfl⟩ := Option.map_eq_some_iff.mp ht
    exact ⟨hs, u, r, hu, hr, rfl⟩
  | run i mem =>
    obtain ⟨hs, ht⟩ := Option.ite_none_right_eq_some.mp ht
    obtain ⟨r, hr, rfl⟩ := Option.map_eq_some_iff.mp ht
    exact ⟨hs, r, hr, rfl⟩
  | reconfigure reserve limit grants => exact ht

theorem Rep.step {a : PoolOp} (h : s.Rep) (ht : s.step a = some t) : t.Rep := by
  have hcases := step_cases ht
  cases a with
  | allocate mem =>
    obtain ⟨r, hu⟩ := hcases
    obtain ⟨haw, hp⟩ := allocate_frame hu
    exact h.congr haw hp
  | copy m =>
    obtain ⟨-, rfl⟩ := hcases
    exact ⟨h.aw, h.nodup⟩
  | drop m => exact (h.unref hcases.2).1
  | request i mem =>
    obtain ⟨hi, u, r, hu, hr, rfl⟩ := hcases
    obtain ⟨hrep, haw⟩ := h.operator hi hu
    have hmem : i ∉ u.pendingRequests := hrep.not_mem (by rcases hi with hi | hi <;> simp [haw, hi])
    exact hrep.request hmem (by simp [haw]) (by simp [haw]) hr
  | run i mem =>
    obtain ⟨hi, r, hr, rfl⟩ := hcases
    have hsome := (h.aw i).served hi
    obtain rfl : (s, .returned) = r := by simpa [asyncPoll, hsome] using hr
    exact h.leave (.inr rfl)
  | cancel i =>
    obtain ⟨-, rfl⟩ := hcases
    exact h.leave (.inl rfl)
  | take i =>
    obtain ⟨hi, rfl⟩ := hcases
    exact h.update (h.not_mem (by simp [hi])) ⟨by simp, by simp, by simp⟩
  | reconfigure reserve limit grants =>
    obtain ⟨u, hu, rfl⟩ := Option.map_eq_some_iff.mp ht
    have h' : Rep { s with reserve := reserve, limit := limit } := ⟨h.aw, h.nodup⟩
    exact Rep.grow grants (h'.shrink _ hu)

end BufferPool

end Jinx.Sync
