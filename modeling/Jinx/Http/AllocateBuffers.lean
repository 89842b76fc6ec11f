import Mathlib.Data.List.Perm.Basic
import Mathlib.Data.List.Range
import Mathlib.Logic.Function.Iterate
import Mathlib.Logic.Function.Basic

/-! Waiting for buffers: `allocate_buffer_no_error` of `WebApp` and of `HTTPClient`.

    The function takes its buffers from the pools one after the other. Where a pool has none it awaits
    `_allocate` and names the function that goes on after the grant. The buffers that were granted so far
    are numbered, and `answers n` says whether the `n`-th request to a pool succeeds at once; one that
    does not is registered, and granted later. -/

namespace Jinx.Http

/-- `_buffer_request`, `_buffer_response` and `_buffer_page`; a client has the first two. -/
inductive Slot where
  | request | response | page
  deriving DecidableEq, Repr

/-- The function that runs after the grant. -/
inductive Continuation where
  | allocateBufferNoError
  | allocatePageBuffer
  deriving DecidableEq, Repr

/-- Where the routine is. -/
inductive AllocPhase where
  /-- its function is called -/
  | call (f : Continuation)
  /-- `_allocate` is polled -/
  | poll (f : Continuation)
  /-- the pool holds the request of `_allocate` -/
  | registered (f : Continuation)
  | init
  /-- a page is spawned before `init` -/
  | spawned
  /-- an assertion on a buffer failed -/
  | assertion
  /-- `_spawn_page` was called while it was null -/
  | nullCall
  deriving DecidableEq, Repr

/-- What the functions read and write. -/
structure Allocation where
  slot : Slot → Option Nat := fun _ => none
  /-- the `Optional` of `_allocate`: empty, or with a handle that may be null -/
  allocate : Option (Option Nat) := none
  /-- `_spawn_page` is not null -/
  spawnPage : Bool := false
  requests : Nat := 0
  granted : Nat := 0
  phase : AllocPhase := .call .allocateBufferNoError

namespace Allocation

/-- The routine of `operator()`, of a `WebApp` or a client in whose `_allocate` an earlier use has left
    `allocate`. -/
def start (allocate : Option (Option Nat)) : Allocation := { allocate := allocate }

def put (s : Allocation) (k : Slot) (b : Option Nat) : Allocation :=
  { s with slot := Function.update s.slot k b }

/-- `_allocate.release()`: the handle is moved out, and the `Optional` is not emptied. -/
def release (s : Allocation) (k : Slot) : Allocation :=
  { s.put k s.allocate.join with allocate := some none }

/-- The block of one buffer; with `error` the routine awaits `_allocate`, and then `f`. -/
def take (answers : Nat → Bool) (k : Slot) (f : Continuation) (s : Allocation) : Except Allocation Allocation :=
  if s.slot k ≠ none then .ok s
  else if s.allocate.isSome then .ok (s.release k)
  else if answers s.requests then
    .ok { s.put k (some s.granted) with requests := s.requests + 1, granted := s.granted + 1 }
  else .error { s with requests := s.requests + 1, allocate := none, phase := .poll f }

/-- The blocks one after the other. -/
def takeAll (answers : Nat → Bool) : List (Slot × Continuation) → Allocation → Except Allocation Allocation
  | [], s => .ok s
  | (k, f) :: ks, s => (s.take answers k f).bind (takeAll answers ks)

/-- `allocate_buffer_no_error`: the blocks, the assertions, and `init`. -/
def allocateBufferNoError (answers : Nat → Bool) (needed : List (Slot × Continuation)) (s : Allocation) :
    Allocation :=
  match takeAll answers needed s with
  | .error s => s
  | .ok s => if needed.all fun k => (s.slot k.1).isSome then { s with phase := .init }
    else { s with phase := .assertion }

/-- `spawn_page`. -/
def callSpawnPage (s : Allocation) : Allocation :=
  if s.slot .page = none then { s with phase := .assertion }
  else if s.spawnPage then { s with phase := .spawned, spawnPage := false }
  else { s with phase := .nullCall }

/-- `allocate_page_buffer`. -/
def allocatePageBuffer (s : Allocation) : Allocation := (s.release .page).callSpawnPage

/-- `Allocate::async_poll`. -/
def poll (answers : Nat → Bool) (f : Continuation) (s : Allocation) : Allocation :=
  if s.allocate.isSome then { s with phase := .call f }
  else if answers s.requests then
    { s with requests := s.requests + 1, allocate := some (some s.granted), granted := s.granted + 1,
             phase := .call f }
  else { s with requests := s.requests + 1, phase := .registered f }

/-- `BufferPool::release` gives a buffer to the request, and the task goes on. -/
def grant (f : Continuation) (s : Allocation) : Allocation :=
  { s with allocate := some (some s.granted), granted := s.granted + 1, phase := .call f }

/-- One step of a routine that needs the buffers of `needed`. -/
def step (answers : Nat → Bool) (needed : List (Slot × Continuation)) (s : Allocation) : Allocation :=
  match s.phase with
  | .call .allocateBufferNoError => s.allocateBufferNoError answers needed
  | .call .allocatePageBuffer => s.allocatePageBuffer
  | .poll f => s.poll answers f
  | .registered f => s.grant f
  | .init | .spawned | .assertion | .nullCall => s

end Allocation

/-- The blocks of `WebApp::allocate_buffer_no_error`. -/
def WebApp.needed : List (Slot × Continuation) :=
  [(.request, .allocateBufferNoError), (.response, .allocateBufferNoError), (.page, .allocatePageBuffer)]

/-- Those of `HTTPClient::allocate_buffer_no_error`. -/
def HTTPClient.needed : List (Slot × Continuation) :=
  [(.request, .allocateBufferNoError), (.response, .allocateBufferNoError)]

namespace Allocation

/-- `init` is reached with a buffer in every slot, each buffer that was granted is in one of them, and no
    null `_spawn_page` is called. -/
def Served (answers : Nat → Bool) (needed : List (Slot × Continuation)) (s : Allocation) : Prop :=
  (∃ n, ((step answers needed)^[n] s).phase = .init ∧
    (∀ k ∈ needed, ((step answers needed)^[n] s).slot k.1 ≠ none) ∧
    (needed.filterMap fun k => ((step answers needed)^[n] s).slot k.1).Perm
      (List.range ((step answers needed)^[n] s).granted)) ∧
  ∀ n, ((step answers needed)^[n] s).phase ≠ .nullCall

variable {answers : Nat → Bool} {needed : List (Slot × Continuation)} {s : Allocation} {m n : Nat}

/-- The routine has ended, well or not. -/
def Ended (s : Allocation) : Prop :=
  s.phase = .init ∨ s.phase = .spawned ∨ s.phase = .assertion ∨ s.phase = .nullCall

theorem step_of_ended (h : s.Ended) : s.step answers needed = s := by
  rcases h with h | h | h | h <;> simp [step, h]

theorem iterate_of_ended (h : s.Ended) : (step answers needed)^[n] s = s :=
  Function.iterate_fixed (step_of_ended h) n

/-- Whether a run serves does not depend on where one starts to look. -/
theorem served_iterate (m : Nat) :
    Served answers needed ((step answers needed)^[m] s) ↔ Served answers needed s := by
  have hcomm (n : Nat) : (step answers needed)^[n] ((step answers needed)^[m] s) =
      (step answers needed)^[m] ((step answers needed)^[n] s) := by
    rw [← Function.iterate_add_apply, Nat.add_comm, Function.iterate_add_apply]
  constructor
  · rintro ⟨⟨n, hinit, hslots⟩, hnull⟩
    rw [← Function.iterate_add_apply] at hinit hslots
    refine ⟨⟨n + m, hinit, hslots⟩, fun k hk => hnull k ?_⟩
    rwa [hcomm, iterate_of_ended (.inr (.inr (.inr hk)))]
  · rintro ⟨⟨n, hinit, hslots⟩, hnull⟩
    have heq := (hcomm n).trans (iterate_of_ended (.inl hinit))
    refine ⟨⟨n, by rwa [heq], by rwa [heq]⟩, fun k => ?_⟩
    rw [← Function.iterate_add_apply]
    exact hnull (k + m)

/-- A run whose next step fails has not served. -/
theorem not_served (h : (s.step answers needed).phase = .assertion ∨
    (s.step answers needed).phase = .nullCall) : ¬ Served answers needed s := by
  rw [← served_iterate 1, Function.iterate_one]
  rintro ⟨⟨n, hinit, -⟩, -⟩
  rw [iterate_of_ended (.inr (.inr h))] at hinit
  rcases h with h | h <;> rw [h] at hinit <;> cases hinit

/-- A run whose next step is the one to `init` calls no null function. -/
theorem served_of_step (hinit : (s.step answers needed).phase = .init)
    (hfull : ∀ k ∈ needed, (s.step answers needed).slot k.1 ≠ none)
    (hperm : (needed.filterMap fun k => (s.step answers needed).slot k.1).Perm
      (List.range (s.step answers needed).granted)) : Served answers needed s := by
  rw [← served_iterate 1, Function.iterate_one]
  refine ⟨⟨0, hinit, hfull, hperm⟩, fun n hnull => ?_⟩
  rw [iterate_of_ended (.inl hinit), hinit] at hnull
  cases hnull

/-- The wait ends with a buffer in `_allocate`, and nothing else has changed. -/
theorem wait_ends (answers : Nat → Bool) (needed : List (Slot × Continuation)) {f : Continuation}
    (hphase : s.phase = .poll f) (hempty : s.allocate = none) :
    ∃ m r, (step answers needed)^[m] s =
      { s with allocate := some (some s.granted), granted := s.granted + 1, requests := r,
               phase := .call f } := by
  by_cases h : answers s.requests
  · exact ⟨1, s.requests + 1, by simp [step, hphase, poll, hempty, h]⟩
  · exact ⟨2, s.requests + 1, by simp [step, hphase, poll, hempty, h, grant]⟩

/-! ### What is left in `_allocate` -/

/-- A handle that was moved out fills the slots with null. -/
theorem takeAll_moved (h : s.allocate = some none) :
    ∀ ks : List (Slot × Continuation), takeAll answers ks s = .ok s := by
  intro ks
  induction ks with
  | nil => rfl
  | cons k ks ih =>
    have hput : s.slot k.1 = none → s.release k.1 = s := by
      intro hnone
      have hslot : Function.update s.slot k.1 none = s.slot := by rw [← hnone, Function.update_eq_self]
      simp only [release, put, h, Option.join_some, hslot]
      rw [← h]
    by_cases hnone : s.slot k.1 = none
    · simp [takeAll, take, hnone, h, hput hnone, Except.bind, ih]
    · simp [takeAll, take, hnone, Except.bind, ih]

/-- What is left in `_allocate` goes into one slot, and the others stay as they are. -/
theorem takeAll_left (answers : Nat → Bool) (h : s.allocate.isSome) : ∀ ks : List (Slot × Continuation),
    ∃ t k, takeAll answers ks s = .ok t ∧ ∀ j, j ≠ k → t.slot j = s.slot j := by
  intro ks
  induction ks with
  | nil => exact ⟨s, .request, rfl, fun _ _ => rfl⟩
  | cons k ks ih =>
    by_cases hnone : s.slot k.1 = none
    · refine ⟨s.release k.1, k.1, ?_, fun j hj => by simp [release, put, hj]⟩
      simp only [takeAll, take, hnone, h, ne_eq, not_true_eq_false, if_true, if_false, Except.bind]
      exact takeAll_moved rfl ks
    · obtain ⟨t, i, ht, hslots⟩ := ih
      exact ⟨t, i, by simpa [takeAll, take, hnone, Except.bind] using ht, hslots⟩

/-- With a result left over and two empty slots the call ends in an assertion. -/
theorem not_served_of_left (hphase : s.phase = .call .allocateBufferNoError) (h : s.allocate.isSome)
    {i j : Slot × Continuation} (hi : i ∈ needed) (hj : j ∈ needed) (hne : i.1 ≠ j.1)
    (hempty : s.slot i.1 = none ∧ s.slot j.1 = none) : ¬ Served answers needed s := by
  obtain ⟨t, k, ht, hslots⟩ := takeAll_left answers h needed
  refine not_served (.inl ?_)
  have hnull : ∃ l ∈ needed, t.slot l.1 = none := by
    by_cases hik : i.1 = k
    · exact ⟨j, hj, by rw [hslots j.1 (by rw [← hik]; exact hne.symm), hempty.2]⟩
    · exact ⟨i, hi, by rw [hslots i.1 hik, hempty.1]⟩
  simp only [step, hphase, allocateBufferNoError, ht]
  rw [if_neg]
  obtain ⟨l, hl, hnone⟩ := hnull
  intro hall
  have := List.all_eq_true.mp hall l hl
  simp [hnone] at this

/-- A wait under `allocate_buffer_no_error` while two slots are empty. -/
theorem not_served_of_wait (hphase : s.phase = .poll .allocateBufferNoError) (hleft : s.allocate = none)
    {i j : Slot × Continuation} (hi : i ∈ needed) (hj : j ∈ needed) (hne : i.1 ≠ j.1)
    (hempty : s.slot i.1 = none ∧ s.slot j.1 = none) : ¬ Served answers needed s := by
  obtain ⟨m, r, hm⟩ := wait_ends answers needed hphase hleft
  rw [← served_iterate m, hm]
  exact not_served_of_left rfl rfl hi hj hne hempty

/-- A wait under `allocate_page_buffer`: the buffer is granted, but no page has been chosen yet. -/
theorem not_served_of_page_wait (hphase : s.phase = .poll .allocatePageBuffer) (hleft : s.allocate = none)
    (hspawn : s.spawnPage = false) : ¬ Served answers needed s := by
  obtain ⟨m, r, hm⟩ := wait_ends answers needed hphase hleft
  rw [← served_iterate m, hm]
  refine not_served (.inr ?_)
  simp [step, allocatePageBuffer, release, put, callSpawnPage, hspawn]

/-! ### The two routines -/

/-- The client is served when its first request need not wait. -/
theorem client_served_iff (answers : Nat → Bool) (left : Option (Option Nat)) :
    Served answers HTTPClient.needed (start left) ↔ left = none ∧ answers 0 = true := by
  have hrequest : (Slot.request, Continuation.allocateBufferNoError) ∈ HTTPClient.needed := by
    simp [HTTPClient.needed]
  have hresponse : (Slot.response, Continuation.allocateBufferNoError) ∈ HTTPClient.needed := by
    simp [HTTPClient.needed]
  rcases left with _ | b
  · rcases h0 : answers 0 with _ | _
    · have hstep : step answers HTTPClient.needed (start none) =
          { requests := 1, phase := .poll .allocateBufferNoError } := by
        simp [step, start, allocateBufferNoError, HTTPClient.needed, takeAll, take, h0, Except.bind]
      rw [← served_iterate 1, Function.iterate_one, hstep]
      simpa using not_served_of_wait rfl rfl hrequest hresponse (by decide) ⟨rfl, rfl⟩
    · refine ⟨fun _ => ⟨rfl, rfl⟩, fun _ => ?_⟩
      rcases h1 : answers 1 with _ | _
      · have hstep : step answers HTTPClient.needed (start none) =
            { slot := Function.update (fun _ => none) .request (some 0), requests := 2, granted := 1,
              phase := .poll .allocateBufferNoError } := by
          simp [step, start, allocateBufferNoError, HTTPClient.needed, takeAll, take, put, h0, h1,
            Except.bind]
        obtain ⟨m, r, hm⟩ := wait_ends answers HTTPClient.needed (congrArg phase hstep)
          (congrArg allocate hstep)
        rw [← served_iterate 1, Function.iterate_one, ← served_iterate m, hm, hstep]
        refine served_of_step ?_ ?_ ?_ <;>
          simp [step, allocateBufferNoError, HTTPClient.needed, takeAll, take, release, put, Except.bind]
        decide
      · refine served_of_step ?_ ?_ ?_ <;>
          simp [step, start, allocateBufferNoError, HTTPClient.needed, takeAll, take, put, h0, h1,
            Except.bind]
        decide
  · simpa using not_served_of_left rfl rfl hrequest hresponse (by decide) ⟨rfl, rfl⟩

/-- The connection is served when none of its requests must wait. -/
theorem webApp_served_iff (answers : Nat → Bool) (left : Option (Option Nat)) :
    Served answers WebApp.needed (start left) ↔
      left = none ∧ answers 0 = true ∧ answers 1 = true ∧ answers 2 = true := by
  have hrequest : (Slot.request, Continuation.allocateBufferNoError) ∈ WebApp.needed := by
    simp [WebApp.needed]
  have hresponse : (Slot.response, Continuation.allocateBufferNoError) ∈ WebApp.needed := by
    simp [WebApp.needed]
  have hpage : (Slot.page, Continuation.allocatePageBuffer) ∈ WebApp.needed := by
    simp [WebApp.needed]
  rcases left with _ | b
  · rcases h0 : answers 0 with _ | _
    · have hstep : step answers WebApp.needed (start none) =
          { requests := 1, phase := .poll .allocateBufferNoError } := by
        simp [step, start, allocateBufferNoError, WebApp.needed, takeAll, take, h0, Except.bind]
      rw [← served_iterate 1, Function.iterate_one, hstep]
      simpa using not_served_of_wait rfl rfl hrequest hresponse (by decide) ⟨rfl, rfl⟩
    rcases h1 : answers 1 with _ | _
    · have hstep : step answers WebApp.needed (start none) =
          { slot := Function.update (fun _ => none) .request (some 0), requests := 2, granted := 1,
            phase := .poll .allocateBufferNoError } := by
        simp [step, start, allocateBufferNoError, WebApp.needed, takeAll, take, put, h0, h1, Except.bind]
      rw [← served_iterate 1, Function.iterate_one, hstep]
      simpa using not_served_of_wait rfl rfl hresponse hpage (by decide) ⟨rfl, rfl⟩
    rcases h2 : answers 2 with _ | _
    · have hstep : step answers WebApp.needed (start none) =
          { slot := Function.update (Function.update (fun _ => none) .request (some 0)) .response (some 1),
            requests := 3, granted := 2, phase := .poll .allocatePageBuffer } := by
        simp [step, start, allocateBufferNoError, WebApp.needed, takeAll, take, put, h0, h1, h2,
          Except.bind]
      rw [← served_iterate 1, Function.iterate_one, hstep]
      simpa using not_served_of_page_wait rfl rfl rfl
    · refine ⟨fun _ => ⟨rfl, rfl, rfl, rfl⟩, fun _ => ?_⟩
      refine served_of_step ?_ ?_ ?_ <;>
        simp [step, start, allocateBufferNoError, WebApp.needed, takeAll, take, put, h0, h1, h2,
          Except.bind]
      decide
  · simpa using not_served_of_left rfl rfl hrequest hresponse (by decide) ⟨rfl, rfl⟩

/-- Who waits for a buffer is served in two cases only: a connection that does not wait, and a client
    that waits for its second buffer alone; and neither after an earlier use that has waited. -/
theorem wait_buffer_served_iff (answers : Nat → Bool) (left : Option (Option Nat)) :
    (Served answers WebApp.needed (start left) ↔
      left = none ∧ answers 0 = true ∧ answers 1 = true ∧ answers 2 = true) ∧
    (Served answers HTTPClient.needed (start left) ↔ left = none ∧ answers 0 = true) :=
  ⟨webApp_served_iff answers left, client_served_iff answers left⟩

/-- The first request waits, and the others do not. -/
theorem first_wait_not_served : ¬ ∀ answers : Nat → Bool,
    Served answers WebApp.needed (start none) ∧ Served answers HTTPClient.needed (start none) := by
  intro h
  have h := ((webApp_served_iff (fun n => decide (2 ≤ n)) none).mp (h _).1).2.1
  simp at h

end Allocation

end Jinx.Http
