import Jinx.Sched.TaskQueue
import Mathlib.Data.List.Nodup
import Mathlib.Data.List.Perm.Basic

/-! What `_tasks_ready` contains.

    `ReadyList` is the property itself. It is not inductive: `Inv` adds what the run loop knows
    about the task it holds, either because it runs it or because it polls after that task has
    yielded. Two labels break the property, `Orderly` excludes exactly these: resuming the running
    task while its state word still says `Yield` (the loop went on with it without scheduling it),
    and spawning again a task that `exit` has detached in state `Ready`. -/

namespace Jinx.Sched

namespace Loop

/-- The ready list holds each schedulable task once: no task twice, only attached tasks in state
    `Ready` that are not being run, and every such task. -/
structure ReadyList (s : Loop) : Prop where
  nodup : s.tasksReady.Nodup
  sound : ∀ u ∈ s.tasksReady,
    (s.task u).state = .ready ∧ s.runningTask ≠ some u ∧ u ∈ s.tasksAll
  complete : ∀ u ∈ s.tasksAll,
    (s.task u).state = .ready → s.runningTask ≠ some u → u ∈ s.tasksReady

/-- The run loop keeps a pointer to `u` outside the lists. -/
def Holds (s : Loop) (u : TaskId) : Prop := s.runningTask = some u ∨ s.loc = .yieldPoll u

/-- What is known of a held task. Only `cancel` and `exit` detach it, and they empty its stack. -/
structure HeldTask (s : Loop) (u : TaskId) : Prop where
  state : (s.task u).state = .ready ∨ (s.task u).state = .yield ∨ (s.task u).state = .exited
  yielded : (s.task u).state = .yield → u ∈ s.tasksAll
  live : (s.task u).stack ≠ [] → u ∈ s.tasksAll

/-- The inductive invariant of the scheduler. -/
structure Inv (s : Loop) : Prop extends ReadyList s where
  allNodup : s.tasksAll.Nodup
  queue_iff : ∀ u, (s.task u).taskQueue = true ↔ u ∈ s.tasksAll
  held : ∀ u, s.Holds u → s.HeldTask u
  idle : s.loc = .outside ∨ s.loc = .idlePoll ∨ (∃ u, s.loc = .yieldPoll u) →
    s.runningTask = none

end Loop

/-- The labels that keep the ready list in order. -/
def Orderly (s : Loop) : Op → Prop
  | .resume u _ => s.runningTask = some u → (s.task u).state ≠ .yield
  | .spawn u => u ∉ s.tasksAll → (s.task u).state ≠ .ready
  | _ => True

namespace Loop

variable {s t : Loop} {u v : TaskId}

@[simp] theorem modify_task (s : Loop) (u v : TaskId) (f : Task → Task) :
    (s.modify u f).task v = if v = u then f (s.task v) else s.task v := rfl

@[simp] theorem modify_tasksAll (f : Task → Task) : (s.modify u f).tasksAll = s.tasksAll := rfl
@[simp] theorem modify_tasksReady (f : Task → Task) :
    (s.modify u f).tasksReady = s.tasksReady := rfl
@[simp] theorem modify_runningTask (f : Task → Task) :
    (s.modify u f).runningTask = s.runningTask := rfl
@[simp] theorem modify_loc (f : Task → Task) : (s.modify u f).loc = s.loc := rfl
@[simp] theorem modify_log (f : Task → Task) : (s.modify u f).log = s.log := rfl

/-- `unwind` empties the stack of `u` and leaves the rest of every record alone. -/
theorem unwind_task (s : Loop) (u v : TaskId) :
    (s.unwind u).task v = if v = u then { s.task v with stack := [] } else s.task v := rfl

@[simp] theorem unwind_state (s : Loop) (u v : TaskId) :
    ((s.unwind u).task v).state = (s.task v).state := by
  rw [unwind_task]; split <;> rfl

@[simp] theorem unwind_taskQueue (s : Loop) (u v : TaskId) :
    ((s.unwind u).task v).taskQueue = (s.task v).taskQueue := by
  rw [unwind_task]; split <;> rfl

@[simp] theorem unwind_stack_self (s : Loop) (u : TaskId) : ((s.unwind u).task u).stack = [] := by
  rw [unwind_task, if_pos rfl]

theorem unwind_stack_ne (s : Loop) {u v : TaskId} (hvu : v ≠ u) :
    ((s.unwind u).task v).stack = (s.task v).stack := by
  rw [unwind_task, if_neg hvu]

@[simp] theorem unwind_tasksAll (s : Loop) : (s.unwind u).tasksAll = s.tasksAll := rfl
@[simp] theorem unwind_tasksReady (s : Loop) : (s.unwind u).tasksReady = s.tasksReady := rfl
@[simp] theorem unwind_runningTask (s : Loop) : (s.unwind u).runningTask = s.runningTask := rfl
@[simp] theorem unwind_loc (s : Loop) : (s.unwind u).loc = s.loc := rfl

/-! ### One lemma for each member function -/

/-- Everything `schedule` can do: refuse, or mark the task ready and push it. -/
theorem schedule_cases (s : Loop) (u : TaskId) (e : Error) :
    (((s.task u).state = .ready ∨ (s.task u).state = .exited) ∧
      s.schedule u e = (s, .failed)) ∨
    ((s.task u).state ≠ .ready ∧ (s.task u).state ≠ .exited ∧
      s.schedule u e = ({ s.modify u (fun x => { x with state := .ready, error := e }) with
        tasksReady := u :: s.tasksReady }, .successful)) := by
  by_cases hr : (s.task u).state = .ready
  · exact .inl ⟨.inl hr, by simp [schedule, hr]⟩
  · by_cases hx : (s.task u).state = .exited
    · exact .inl ⟨.inr hx, by simp [schedule, hx]⟩
    · exact .inr ⟨hr, hx, by simp [schedule, hr, hx]⟩

theorem Inv.schedule (h : s.Inv) (e : Error) (hu : u ∈ s.tasksAll)
    (hyield : s.runningTask = some u → (s.task u).state ≠ .yield) : (s.schedule u e).1.Inv := by
  obtain ⟨-, heq⟩ | ⟨hready, hexited, heq⟩ := s.schedule_cases u e
  · rw [heq]; exact h
  · have hrun : s.runningTask ≠ some u := fun hc => by
      have := (h.held u (.inl hc)).state
      simp_all
    have hnot : u ∉ s.tasksReady := fun hc => hready (h.sound u hc).1
    rw [heq]
    refine { nodup := ?_, sound := ?_, complete := ?_, allNodup := h.allNodup, queue_iff := ?_,
             held := ?_, idle := h.idle }
    · exact List.nodup_cons.mpr ⟨hnot, h.nodup⟩
    · intro v hv
      by_cases hvu : v = u
      · subst hvu; exact ⟨by simp, hrun, hu⟩
      · have := h.sound v (by simpa [hvu] using hv)
        simpa [hvu] using this
    · intro v hv hst hnr
      by_cases hvu : v = u
      · simp [hvu]
      · exact List.mem_cons_of_mem _ (h.complete v hv (by simpa [hvu] using hst) hnr)
    · intro v
      have := h.queue_iff v
      by_cases hvu : v = u <;> simpa [hvu] using this
    · intro v hv
      have hold := h.held v hv
      by_cases hvu : v = u
      · subst hvu; exact ⟨by simp, by simp, fun _ => hu⟩
      · exact ⟨by simpa [hvu] using hold.state, by simpa [hvu] using hold.yielded,
          by simpa [hvu] using hold.live⟩

theorem Inv.resume (h : s.Inv) (e : Error)
    (hyield : s.runningTask = some u → (s.task u).state ≠ .yield) : (s.resume u e).1.Inv := by
  unfold Loop.resume
  split
  · next hq => exact h.schedule e ((h.queue_iff u).mp hq) hyield
  · exact h

/-- `push` on an attached task only writes a pointer that is already there. -/
theorem push_attached (h : s.Inv) (hu : u ∈ s.tasksAll) : s.push u = (s, .failed) := by
  have hq := (h.queue_iff u).mpr hu
  have hs : s.modify u (fun x => { x with taskQueue := true }) = s := by
    simp only [modify]
    congr 1
    funext v
    by_cases hv : v = u
    · subst hv; simp [← hq]
    · simp [hv]
  simp [Loop.push, hs, hu]

theorem push_detached (hu : u ∉ s.tasksAll) :
    s.push u = ({ s.modify u (fun x => { x with taskQueue := true }) with
      tasksAll := u :: s.tasksAll, log := s.log ++ [.pushed u] }, .successful) := by
  simp [Loop.push, hu]

theorem Inv.push (h : s.Inv) (hready : u ∉ s.tasksAll → (s.task u).state ≠ .ready) :
    (s.push u).1.Inv := by
  by_cases hu : u ∈ s.tasksAll
  · rw [push_attached h hu]; exact h
  · have hnr := hready hu
    rw [push_detached hu]
    refine { nodup := h.nodup, sound := ?_, complete := ?_,
             allNodup := List.nodup_cons.mpr ⟨hu, h.allNodup⟩, queue_iff := ?_, held := ?_,
             idle := h.idle }
    · intro v hv
      have := h.sound v hv
      have hvu : v ≠ u := fun hc => hu (hc ▸ this.2.2)
      simpa [hvu] using this
    · intro v hv hst hrun
      by_cases hvu : v = u
      · subst hvu; simp [hnr] at hst
      · exact h.complete v (by simpa [hvu] using hv) (by simpa [hvu] using hst) hrun
    · intro v
      by_cases hvu : v = u <;> simp [hvu, h.queue_iff]
    · intro v hv
      have hold := h.held v hv
      by_cases hvu : v = u
      · subst hvu; exact ⟨by simpa using hold.state, by simp, by simp⟩
      · exact ⟨by simpa [hvu] using hold.state, by simpa [hvu] using hold.yielded,
          by simpa [hvu] using hold.live⟩

/-- In user code the running task is attached, so spawning it is refused. -/
theorem Inv.spawn (h : s.Inv) (hready : u ∉ s.tasksAll → (s.task u).state ≠ .ready)
    (hrun : s.runningTask = some u → u ∈ s.tasksAll) : (s.spawn u).1.Inv := by
  have hp := h.push hready
  by_cases hu : u ∈ s.tasksAll
  · simp only [Loop.spawn, push_attached h hu]; exact h
  · have hne : s.runningTask ≠ some u := fun hc => hu (hrun hc)
    rw [push_detached hu] at hp
    simp only [Loop.spawn, push_detached hu]
    exact hp.schedule {} (by simp) (fun hc => absurd hc hne)

theorem pop_attached (hu : u ∈ s.tasksAll) :
    s.pop u = ({ s.modify u (fun x => { x with taskQueue := false }) with
      tasksAll := s.tasksAll.erase u, log := s.log ++ [.popped u] }, .successful) := by
  simp [Loop.pop, hu]

theorem pop_detached (hu : u ∉ s.tasksAll) : s.pop u = (s, .failed) := by
  simp [Loop.pop, hu]

theorem Inv.pop (h : s.Inv) (hnot : u ∉ s.tasksReady)
    (hheld : s.Holds u → (s.task u).state ≠ .yield ∧ (s.task u).stack = []) :
    (s.pop u).1.Inv := by
  by_cases hu : u ∈ s.tasksAll
  · rw [pop_attached hu]
    have hmem : ∀ v, v ∈ s.tasksAll.erase u ↔ v ≠ u ∧ v ∈ s.tasksAll := fun v =>
      h.allNodup.mem_erase_iff
    refine { nodup := h.nodup, sound := ?_, complete := ?_, allNodup := h.allNodup.erase u,
             queue_iff := ?_, held := ?_, idle := h.idle }
    · intro v hv
      have hvu : v ≠ u := fun hc => hnot (hc ▸ hv)
      have := h.sound v hv
      simp only [modify_task, if_neg hvu]
      exact ⟨this.1, this.2.1, (hmem v).mpr ⟨hvu, this.2.2⟩⟩
    · intro v hv hst hrun
      obtain ⟨hvu, hv⟩ := (hmem v).mp hv
      exact h.complete v hv (by simpa [hvu] using hst) hrun
    · intro v
      rw [hmem v]
      by_cases hvu : v = u <;> simp [hvu, h.queue_iff]
    · intro v hv
      have hold := h.held v hv
      by_cases hvu : v = u
      · subst hvu
        obtain ⟨hy, hs⟩ := hheld hv
        exact ⟨by simpa using hold.state, by simp [hy], by simp [hs]⟩
      · refine ⟨by simpa [hvu] using hold.state, fun hy => ?_, fun hl => ?_⟩
        · exact (hmem v).mpr ⟨hvu, hold.yielded (by simpa [hvu] using hy)⟩
        · exact (hmem v).mpr ⟨hvu, hold.live (by simpa [hvu] using hl)⟩
  · rw [pop_detached hu]; exact h

theorem Inv.unwind (h : s.Inv) (u : TaskId) : (s.unwind u).Inv := by
  refine { nodup := h.nodup, sound := ?_, complete := ?_, allNodup := h.allNodup,
           queue_iff := ?_, held := ?_, idle := h.idle }
  · intro v hv; simpa using h.sound v hv
  · intro v hv hs hr; exact h.complete v hv (by simpa using hs) hr
  · intro v; simpa using h.queue_iff v
  · intro v hv
    have hold := h.held v hv
    refine ⟨by simpa using hold.state, by simpa using hold.yielded, fun hl => ?_⟩
    by_cases hvu : v = u
    · simp [hvu] at hl
    · exact hold.live (by rwa [unwind_stack_ne s hvu] at hl)

/-- What `cancel` does to a task that is not running: the stack is unwound, then a ready task
    stays where it is and any other one is marked exited and popped. -/
theorem cancel_cases (s : Loop) (hrun : s.runningTask ≠ some u) :
    ((s.task u).state = .ready ∧ s.cancel u =
      ((s.unwind u).modify u fun x => { x with error := {} }, .deferredDequeue)) ∨
    ((s.task u).state ≠ .ready ∧ s.cancel u =
      ((((s.unwind u).modify u fun x => { x with state := .exited }).pop u).1, .noError)) := by
  by_cases hr : (s.task u).state = .ready
  · exact .inl ⟨hr, by simp [cancel, hrun, hr]⟩
  · exact .inr ⟨hr, by simp [cancel, hrun, hr]⟩

theorem cancel_running (hrun : s.runningTask = some u) :
    s.cancel u = (s, .cancelRunningTask) := by simp [cancel, hrun]

/-- Marking an unwound task that is not in the ready list. -/
theorem Inv.markExited (h : s.Inv) (hready : (s.task u).state ≠ .ready) :
    (s.modify u fun x => { x with state := .exited }).Inv := by
  refine { nodup := h.nodup, sound := ?_, complete := ?_, allNodup := h.allNodup,
           queue_iff := ?_, held := ?_, idle := h.idle }
  · intro v hv
    have := h.sound v hv
    have hvu : v ≠ u := fun hc => hready (hc ▸ this.1)
    simpa [hvu] using this
  · intro v hv hs hr
    by_cases hvu : v = u
    · simp [hvu] at hs
    · exact h.complete v hv (by simpa [hvu] using hs) hr
  · intro v
    by_cases hvu : v = u <;> simp [hvu, h.queue_iff]
  · intro v hv
    have hold := h.held v hv
    by_cases hvu : v = u
    · subst hvu; exact ⟨by simp, by simp, by simpa using hold.live⟩
    · exact ⟨by simpa [hvu] using hold.state, by simpa [hvu] using hold.yielded,
        by simpa [hvu] using hold.live⟩

theorem Inv.setError (h : s.Inv) (e : Error) :
    (s.modify u fun x => { x with error := e }).Inv := by
  have hst : ∀ v, ((s.modify u fun x => { x with error := e }).task v).state =
      (s.task v).state := fun v => by by_cases hvu : v = u <;> simp [hvu]
  refine { nodup := h.nodup, sound := ?_, complete := ?_, allNodup := h.allNodup,
           queue_iff := ?_, held := ?_, idle := h.idle }
  · intro v hv; rw [hst]; exact h.sound v hv
  · intro v hv hs hr; rw [hst] at hs; exact h.complete v hv hs hr
  · intro v
    by_cases hvu : v = u <;> simp [hvu, h.queue_iff]
  · intro v hv
    have hold := h.held v hv
    refine ⟨by rw [hst]; exact hold.state, fun hy => hold.yielded (by rwa [hst] at hy), ?_⟩
    by_cases hvu : v = u
    · subst hvu; simpa using hold.live
    · simpa [hvu] using hold.live

theorem Inv.cancel (h : s.Inv) (u : TaskId) : (s.cancel u).1.Inv := by
  by_cases hrun : s.runningTask = some u
  · rw [cancel_running hrun]; exact h
  · obtain ⟨-, heq⟩ | ⟨hr, heq⟩ := cancel_cases s hrun
    · rw [heq]; exact (h.unwind u).setError {}
    · rw [heq]
      refine ((h.unwind u).markExited (by simpa using hr)).pop ?_ (fun _ => by simp)
      exact fun hc => hr (h.sound u hc).1

/-! ### `exit` -/

@[simp] theorem pop_state (s : Loop) (u v : TaskId) :
    ((s.pop u).1.task v).state = (s.task v).state := by
  unfold Loop.pop; split <;> simp; split <;> rfl

@[simp] theorem pop_stack (s : Loop) (u v : TaskId) :
    ((s.pop u).1.task v).stack = (s.task v).stack := by
  unfold Loop.pop; split <;> simp; split <;> rfl

@[simp] theorem pop_runningTask (s : Loop) : (s.pop u).1.runningTask = s.runningTask := by
  unfold Loop.pop; split <;> rfl

@[simp] theorem pop_tasksReady (s : Loop) : (s.pop u).1.tasksReady = s.tasksReady := by
  unfold Loop.pop; split <;> rfl

@[simp] theorem pop_loc (s : Loop) : (s.pop u).1.loc = s.loc := by
  unfold Loop.pop; split <;> rfl

theorem pop_tasksAll (s : Loop) : (s.pop u).1.tasksAll = s.tasksAll.erase u := by
  by_cases hu : u ∈ s.tasksAll
  · rw [pop_attached hu]
  · rw [pop_detached hu, List.erase_of_not_mem hu]

@[simp] theorem cancel_runningTask (s : Loop) : (s.cancel u).1.runningTask = s.runningTask := by
  unfold Loop.cancel; split
  · rfl
  · simp only; split <;> simp

@[simp] theorem cancel_loc (s : Loop) : (s.cancel u).1.loc = s.loc := by
  unfold Loop.cancel; split
  · rfl
  · simp only; split <;> simp

/-- `u` has no frame left and its state word is one of the two that `cancel` leaves. -/
def Cancelled (s : Loop) (u : TaskId) : Prop :=
  (s.task u).stack = [] ∧ ((s.task u).state = .ready ∨ (s.task u).state = .exited)

theorem cancel_cancelled (hrun : s.runningTask ≠ some u) : (s.cancel u).1.Cancelled u := by
  obtain ⟨hr, heq⟩ | ⟨-, heq⟩ := cancel_cases s hrun
  · rw [heq]; exact ⟨by simp, .inl (by simpa using hr)⟩
  · rw [heq]; exact ⟨by simp, .inr (by simp)⟩

/-- Cancelling one task does not touch the record of another. -/
theorem cancel_task_ne (s : Loop) (hvu : v ≠ u) : (s.cancel u).1.task v = s.task v := by
  unfold Loop.cancel Loop.pop
  split
  · rfl
  · simp only
    split
    · simp [hvu, unwind_task]
    · split <;> simp [hvu, unwind_task]

/-- The first half of `exit`: the tasks of `l` are cancelled one after the other. -/
def cancelAll (s : Loop) (l : List TaskId) : Loop := l.foldl (fun s u => (s.cancel u).1) s

/-- The second half: the tasks of `l` are popped. -/
def popAll (s : Loop) (l : List TaskId) : Loop := l.foldl (fun s u => (s.pop u).1) s

theorem Inv.cancelAll (h : s.Inv) (l : List TaskId) : (s.cancelAll l).Inv :=
  Runs.foldl_invariant (fun _ u hs => hs.cancel u) l s h

@[simp] theorem cancelAll_runningTask (s : Loop) (l : List TaskId) :
    (s.cancelAll l).runningTask = s.runningTask :=
  Runs.foldl_frame (g := (·.runningTask)) (fun _ _ => by simp) l s

@[simp] theorem cancelAll_loc (s : Loop) (l : List TaskId) : (s.cancelAll l).loc = s.loc :=
  Runs.foldl_frame (g := (·.loc)) (fun _ _ => by simp) l s

theorem cancelAll_task_of_notMem (s : Loop) {l : List TaskId} (hv : v ∉ l) :
    (s.cancelAll l).task v = s.task v := by
  induction l generalizing s with
  | nil => rfl
  | cons u l ih =>
    have hvu : v ≠ u := List.ne_of_not_mem_cons hv
    exact (ih _ (List.not_mem_of_not_mem_cons hv)).trans (cancel_task_ne s hvu)

theorem cancelAll_cancelled (hrun : s.runningTask = none) {l : List TaskId} (hv : v ∈ l) :
    (s.cancelAll l).Cancelled v := by
  induction l generalizing s with
  | nil => simp at hv
  | cons u l ih =>
    have hrun' : (s.cancel u).1.runningTask = none := by simpa using hrun
    by_cases hvl : v ∈ l
    · exact ih hrun' hvl
    · obtain rfl : v = u := by simpa [hvl] using hv
      have hc := cancel_cancelled (s := s) (u := v) (by simp [hrun])
      unfold Cancelled at hc ⊢
      rw [show (s.cancelAll (v :: l)).task v = (s.cancel v).1.task v from
        cancelAll_task_of_notMem _ hvl]
      exact hc

@[simp] theorem popAll_state (s : Loop) (l : List TaskId) (v : TaskId) :
    ((s.popAll l).task v).state = (s.task v).state :=
  Runs.foldl_frame (g := (fun s => (s.task v).state)) (fun _ _ => by simp) l s

@[simp] theorem popAll_stack (s : Loop) (l : List TaskId) (v : TaskId) :
    ((s.popAll l).task v).stack = (s.task v).stack :=
  Runs.foldl_frame (g := (fun s => (s.task v).stack)) (fun _ _ => by simp) l s

@[simp] theorem popAll_runningTask (s : Loop) (l : List TaskId) :
    (s.popAll l).runningTask = s.runningTask :=
  Runs.foldl_frame (g := (·.runningTask)) (fun _ _ => by simp) l s

@[simp] theorem popAll_loc (s : Loop) (l : List TaskId) : (s.popAll l).loc = s.loc :=
  Runs.foldl_frame (g := (·.loc)) (fun _ _ => by simp) l s

@[simp] theorem popAll_tasksReady (s : Loop) (l : List TaskId) :
    (s.popAll l).tasksReady = s.tasksReady :=
  Runs.foldl_frame (g := (·.tasksReady)) (fun _ _ => by simp) l s

theorem popAll_tasksAll (s : Loop) (l : List TaskId) :
    (s.popAll l).tasksAll = s.tasksAll.diff l := by
  induction l generalizing s with
  | nil => rfl
  | cons u l ih =>
    rw [show s.popAll (u :: l) = (s.pop u).1.popAll l from rfl, ih, pop_tasksAll,
      List.diff_cons]

/-- Membership of `_tasks_all` is what `_task_queue` says; every `pop` keeps it so. -/
theorem popAll_queue_iff (s : Loop) (l : List TaskId) (hnodup : s.tasksAll.Nodup)
    (hq : ∀ v, (s.task v).taskQueue = true ↔ v ∈ s.tasksAll) :
    ∀ v, ((s.popAll l).task v).taskQueue = true ↔ v ∈ (s.popAll l).tasksAll := by
  induction l generalizing s with
  | nil => exact hq
  | cons u l ih =>
    refine ih (s.pop u).1 (by rw [pop_tasksAll]; exact hnodup.erase u) fun v => ?_
    by_cases hu : u ∈ s.tasksAll
    · rw [pop_attached hu]
      simp only [hnodup.mem_erase_iff]
      by_cases hvu : v = u <;> simp [hvu, hq]
    · rw [pop_detached hu]; exact hq v

/-- The state `exit` leaves when no task is running. -/
theorem exit_eq (hrun : s.runningTask = none) : s.exit =
    ({ s.cancelAll s.tasksAll with tasksReady := [] }).popAll (s.cancelAll s.tasksAll).tasksAll := by
  simp [Loop.exit, hrun, cancelAll, popAll]

theorem exit_tasksAll (hrun : s.runningTask = none) : s.exit.tasksAll = [] := by
  rw [exit_eq hrun, popAll_tasksAll]
  induction (s.cancelAll s.tasksAll).tasksAll with
  | nil => rfl
  | cons u l ih => simpa using ih

theorem exit_tasksReady (hrun : s.runningTask = none) : s.exit.tasksReady = [] := by
  rw [exit_eq hrun]; simp

theorem exit_runningTask (hrun : s.runningTask = none) : s.exit.runningTask = none := by
  rw [exit_eq hrun]; simpa using hrun

theorem exit_loc (hrun : s.runningTask = none) : s.exit.loc = s.loc := by
  rw [exit_eq hrun]; simp

/-- After `exit` every task that was attached is cancelled, the others are untouched. -/
theorem exit_cancelled (hrun : s.runningTask = none) (hv : v ∈ s.tasksAll) :
    s.exit.Cancelled v := by
  rw [exit_eq hrun]
  simpa [Cancelled] using cancelAll_cancelled hrun hv

theorem Inv.exit (h : s.Inv) (hrun : s.runningTask = none) : s.exit.Inv := by
  have hc := h.cancelAll s.tasksAll
  refine { nodup := ?_, sound := ?_, complete := ?_, allNodup := ?_, queue_iff := ?_,
           held := ?_, idle := ?_ }
  · rw [exit_tasksReady hrun]; exact List.nodup_nil
  · rw [exit_tasksReady hrun]; simp
  · rw [exit_tasksAll hrun]; simp
  · rw [exit_tasksAll hrun]; exact List.nodup_nil
  · rw [exit_eq hrun]
    exact popAll_queue_iff _ _ hc.allNodup hc.queue_iff
  · intro v hv
    have hold := h.held v (by simpa [Holds, exit_runningTask hrun, exit_loc hrun, hrun] using hv)
    by_cases hall : v ∈ s.tasksAll
    · obtain ⟨hstack, hst⟩ := exit_cancelled hrun hall
      exact ⟨hst.imp_right .inr, fun hy => by simp [hy] at hst, fun hl => absurd hstack hl⟩
    · have htask : (s.cancelAll s.tasksAll).task v = s.task v := cancelAll_task_of_notMem s hall
      have hst : (s.exit.task v).state = (s.task v).state := by
        rw [exit_eq hrun]; simp [htask]
      have hstack : (s.exit.task v).stack = (s.task v).stack := by
        rw [exit_eq hrun]; simp [htask]
      refine ⟨by rw [hst]; exact hold.state, fun hy => ?_, fun hl => ?_⟩
      · exact absurd (hold.yielded (by rwa [hst] at hy)) hall
      · exact absurd (hold.live (by rwa [hstack] at hl)) hall
  · intro _; exact exit_runningTask hrun

/-! ### The run loop -/

theorem Inv.setLoc (h : s.Inv) (hrun : s.runningTask = none) {l : Loc}
    (hl : ∀ u, l ≠ .yieldPoll u) : ({ s with loc := l } : Loop).Inv :=
  { nodup := h.nodup, sound := h.sound, complete := h.complete, allNodup := h.allNodup,
    queue_iff := h.queue_iff, idle := fun _ => hrun,
    held := fun u hu => by simp [Holds, hrun, hl] at hu }

theorem Inv.nextTask (h : s.Inv) (hrun : s.runningTask = none) : s.nextTask.Inv := by
  unfold Loop.nextTask
  split
  · exact h.setLoc hrun (by simp)
  · next u rest heq =>
    have hnodup : (u :: rest).Nodup := heq ▸ h.nodup
    have hsound : ∀ v ∈ u :: rest, (s.task v).state = .ready ∧ v ∈ s.tasksAll := fun v hv => by
      have := h.sound v (heq ▸ hv)
      exact ⟨this.1, this.2.2⟩
    have hu := hsound u (by simp)
    refine { nodup := (List.nodup_cons.mp hnodup).2, sound := ?_, complete := ?_,
             allNodup := h.allNodup, queue_iff := h.queue_iff, held := ?_, idle := ?_ }
    · intro v hv
      have hvu : u ≠ v := fun hc => (List.nodup_cons.mp hnodup).1 (hc ▸ hv)
      have := hsound v (List.mem_cons_of_mem _ hv)
      exact ⟨this.1, by simpa [startRun] using hvu, this.2⟩
    · intro v hv hst hrun'
      have hvu : v ≠ u := fun hc => hrun' (by simp [startRun, hc])
      have := h.complete v hv hst (by simp [hrun])
      simpa [startRun, heq, hvu] using this
    · intro v hv
      obtain rfl : u = v := by simpa [Holds, startRun] using hv
      exact ⟨.inl hu.1, fun _ => hu.2, fun _ => hu.2⟩
    · simp [startRun]

theorem Inv.loopHead (h : s.Inv) (hrun : s.runningTask = none) : s.loopHead.Inv := by
  unfold Loop.loopHead
  split
  · exact h.setLoc hrun (by simp)
  · exact h.nextTask hrun

theorem Inv.onTaskExit (h : s.Inv) (hrun : s.runningTask = none) (hnot : u ∉ s.tasksReady)
    (hloc : ∀ v, s.loc ≠ .yieldPoll v) : (s.onTaskExit u).Inv := by
  have hp : (s.pop u).1.Inv := h.pop hnot fun hc => by simp [Holds, hrun, hloc] at hc
  have hpr : (s.pop u).1.runningTask = none := by simpa using hrun
  unfold Loop.onTaskExit
  split
  · next s' heq =>
    obtain rfl : (s.pop u).1 = s' := by rw [heq]
    exact hp.setLoc hpr (by simp)
  · next s' heq =>
    obtain rfl : (s.pop u).1 = s' := by rw [heq]
    have ho := hp.setLoc hpr (l := .outside) (by simp)
    split
    · simp only
      split
      · exact ho.exit hpr
      · exact ho
    · exact hp.nextTask hpr

/-- `task->run()` returns: the running task is put down with a state word other than `Ready`. -/
theorem Inv.putDown (h : s.Inv) (hrun : s.runningTask = some u) {st : ControlState}
    (hst : st ≠ .ready) (e : Option Error) (hloc : s.loc = .body) :
    (({ s with runningTask := none } : Loop).modify u fun x =>
      { x with state := st, error := e.getD x.error }).Inv := by
  refine { nodup := h.nodup, sound := ?_, complete := ?_, allNodup := h.allNodup,
           queue_iff := ?_, held := ?_, idle := ?_ }
  · intro v hv
    have := h.sound v hv
    have hvu : v ≠ u := fun hc => this.2.1 (hc ▸ hrun)
    simpa [hvu] using ⟨this.1, this.2.2⟩
  · intro v hv hs _
    by_cases hvu : v = u
    · simp [hvu, hst] at hs
    · refine h.complete v hv (by simpa [hvu] using hs) ?_
      rw [hrun]; simpa using fun hc => hvu hc.symm
  · intro v
    have := h.queue_iff v
    by_cases hvu : v = u <;> simpa [hvu] using this
  · intro v hv; simp [Holds, hloc] at hv
  · simp

theorem Inv.finished (h : s.Inv) (hrun : s.runningTask = some u) (hloc : s.loc = .body)
    {st : ControlState} (hst : st ≠ .ready) (hstack : st = .yield → (s.task u).stack ≠ [])
    (e : Option Error) : (s.finished u st e).Inv := by
  have hp := h.putDown hrun hst e hloc
  have hnot : u ∉ s.tasksReady := fun hc => (h.sound u hc).2.1 hrun
  unfold Loop.finished
  simp only
  split
  · exact hp.onTaskExit rfl hnot (by simp [hloc])
  · split
    · next hy =>
      have hlive := (h.held u (.inl hrun)).live (hstack hy)
      refine { nodup := hp.nodup, sound := hp.sound, complete := hp.complete,
               allNodup := hp.allNodup, queue_iff := hp.queue_iff, held := ?_, idle := ?_ }
      · intro v hv
        obtain rfl : u = v := by simpa [Holds] using hv
        exact ⟨by simp [hy], fun _ => hlive, fun _ => hlive⟩
      · simp
    · exact hp.nextTask rfl

/-- Popping the next task and scheduling the one that yielded commute. -/
theorem afterYield_cons {next : TaskId} {rest : List TaskId} (hready : s.tasksReady = next :: rest) :
    s.afterYield u = (s.nextTask.schedule u {}).1 := by
  simp only [Loop.afterYield, Loop.nextTask, hready]
  obtain ⟨hst, heq⟩ | ⟨hr, hx, heq⟩ :=
    ({ s with tasksReady := rest } : Loop).schedule_cases u {}
  all_goals
    obtain ⟨hst', heq'⟩ | ⟨hr', hx', heq'⟩ :=
      (({ s with tasksReady := rest } : Loop).startRun next).schedule_cases u {}
    all_goals simp_all [startRun]
  rfl

theorem Inv.afterYield (h : s.Inv) (hloc : s.loc = .yieldPoll u) : (s.afterYield u).Inv := by
  have hrun := h.idle (.inr (.inr ⟨u, hloc⟩))
  have hheld := h.held u (.inr hloc)
  cases hready : s.tasksReady with
  | nil =>
    simp only [Loop.afterYield, hready]
    refine { nodup := h.nodup, sound := by simp [startRun, hready], complete := ?_,
             allNodup := h.allNodup, queue_iff := h.queue_iff, held := ?_, idle := ?_ }
    · intro v hv hs _
      have := h.complete v hv hs (by simp [hrun])
      simp [hready] at this
    · intro v hv
      obtain rfl : u = v := by simpa [Holds, startRun] using hv
      exact ⟨hheld.state, hheld.yielded, hheld.live⟩
    · simp [startRun]
  | cons next rest =>
    rw [afterYield_cons hready]
    have hn := h.nextTask hrun
    have htask : s.nextTask.task u = s.task u := by simp [Loop.nextTask, hready, startRun]
    obtain ⟨-, heq⟩ | ⟨hr, hx, heq⟩ := s.nextTask.schedule_cases u {}
    · rw [heq]; exact hn
    · -- not ready and not exited, so it still says `Yield` and is attached
      rw [htask] at hr hx
      have hy : (s.task u).state = .yield := by
        obtain h₁ | h₁ | h₁ := hheld.state
        · exact absurd h₁ hr
        · exact h₁
        · exact absurd h₁ hx
      have hall : u ∈ s.nextTask.tasksAll := by
        simpa [Loop.nextTask, hready, startRun] using hheld.yielded hy
      refine hn.schedule {} hall fun hc => ?_
      have hne : next = u := by simpa [Loop.nextTask, hready, startRun] using hc
      have := (h.sound next (by simp [hready])).1
      rw [hne] at this
      exact absurd this hr

/-! ### The running task's own steps -/

/-- Changing the stack of a task that is attached, or emptying it. -/
theorem Inv.setStack (h : s.Inv) {f : Task → Task} (hst : ∀ x, (f x).state = x.state)
    (hq : ∀ x, (f x).taskQueue = x.taskQueue) (hlive : (s.task u).stack ≠ [])
    (hrun : s.runningTask = some u) : (s.modify u f).Inv := by
  have hall := (h.held u (.inl hrun)).live hlive
  refine { nodup := h.nodup, sound := ?_, complete := ?_, allNodup := h.allNodup,
           queue_iff := ?_, held := ?_, idle := h.idle }
  · intro v hv
    have := h.sound v hv
    by_cases hvu : v = u <;> simpa [hvu, hst] using this
  · intro v hv hs hr
    refine h.complete v hv ?_ hr
    by_cases hvu : v = u <;> simpa [hvu, hst] using hs
  · intro v
    have := h.queue_iff v
    by_cases hvu : v = u <;> simpa [hvu, hq] using this
  · intro v hv
    have hold := h.held v hv
    by_cases hvu : v = u
    · subst hvu; exact ⟨by simpa [hst] using hold.state, fun _ => hall, fun _ => hall⟩
    · exact ⟨by simpa [hvu] using hold.state, by simpa [hvu] using hold.yielded,
        by simpa [hvu] using hold.live⟩

theorem Inv.setLog (h : s.Inv) (l : List Event) : ({ s with log := l } : Loop).Inv :=
  { nodup := h.nodup, sound := h.sound, complete := h.complete, allNodup := h.allNodup,
    queue_iff := h.queue_iff, idle := h.idle,
    held := fun u hu => let ⟨a, b, c⟩ := h.held u hu; ⟨a, b, c⟩ }

theorem Inv.bodyStep (h : s.Inv) (hrun : s.runningTask = some u) (hloc : s.loc = .body) {op : Op}
    (hstep : s.bodyStep u op = some t) : t.Inv := by
  cases op with
  | call =>
    simp only [Loop.bodyStep] at hstep
    split at hstep
    · simp at hstep
    · next hne => cases hstep; exact h.setStack (fun _ => rfl) (fun _ => rfl) hne hrun
  | callback handler =>
    simp only [Loop.bodyStep] at hstep
    split at hstep
    · simp at hstep
    · cases hstep; exact h.setLog _
  | finalize =>
    simp only [Loop.bodyStep] at hstep
    split at hstep
    · simp at hstep
    · next f rest hst =>
      cases hstep
      have hne : (s.task u).stack ≠ [] := by simp [hst]
      exact (h.setStack (f := fun x => { x with stack := rest }) (fun _ => rfl) (fun _ => rfl)
        hne hrun).setLog _
  | reorder frames =>
    simp only [Loop.bodyStep] at hstep
    split at hstep
    · next hperm =>
      cases hstep
      have hne : (s.task u).stack ≠ [] := fun hc => hperm.1 (by simpa [hc] using hperm.2)
      exact h.setStack (fun _ => rfl) (fun _ => rfl) hne hrun
    · simp at hstep
  | finished st e =>
    simp only [Loop.bodyStep] at hstep
    split at hstep
    · next hst =>
      cases hstep
      refine h.finished hrun hloc ?_ ?_ e
      · rintro rfl; simp at hst
      · rintro rfl; simpa using hst.1
    · simp at hstep
  | spawn | resume | cancel | exit | run | polled => simp [Loop.bodyStep] at hstep

theorem userCode_running (h : s.userCode = true) (hu : s.runningTask = some u)
    (hinv : s.Inv) : s.loc = .body ∧ (s.task u).stack ≠ [] := by
  have hidle := hinv.idle
  unfold userCode at h
  split at h <;> simp_all

theorem exit_running (hrun : s.runningTask.isSome) :
    s.exit = { s with loc := .aborted .exitFromRunningTask } := by
  simp [Loop.exit, hrun]

theorem Inv.abort (h : s.Inv) (a : Abort) : ({ s with loc := .aborted a } : Loop).Inv :=
  { nodup := h.nodup, sound := h.sound, complete := h.complete, allNodup := h.allNodup,
    queue_iff := h.queue_iff, idle := fun hc => by simp at hc,
    held := fun u hu =>
      let ⟨x, y, z⟩ := h.held u (.inl (by simpa [Holds] using hu)); ⟨x, y, z⟩ }

/-- One step keeps the invariant, where the label keeps order. -/
theorem Inv.step (h : s.Inv) {op : Op} (hop : Orderly s op) (hstep : s.step op = some t) :
    t.Inv := by
  cases op with
  | spawn u =>
    simp only [Loop.step] at hstep
    split at hstep
    · next hcode =>
      cases hstep
      refine h.spawn hop fun hrun => ?_
      exact (h.held u (.inl hrun)).live (userCode_running hcode hrun h).2
    · simp at hstep
  | resume u e =>
    simp only [Loop.step] at hstep
    split at hstep
    · cases hstep; exact h.resume e hop
    · simp at hstep
  | cancel u =>
    simp only [Loop.step] at hstep
    split at hstep
    · cases hstep; exact h.cancel u
    · simp at hstep
  | exit =>
    simp only [Loop.step] at hstep
    split at hstep
    · cases hstep
      cases hrun : s.runningTask with
      | none => exact h.exit hrun
      | some u => rw [exit_running (by simp [hrun])]; exact h.abort _
    · simp at hstep
  | run =>
    simp only [Loop.step] at hstep
    split at hstep
    · next hloc => cases hstep; exact h.loopHead (h.idle (.inl hloc))
    · simp at hstep
  | polled =>
    simp only [Loop.step] at hstep
    split at hstep
    · next hloc => cases hstep; exact h.loopHead (h.idle (.inr (.inl hloc)))
    · next u hloc => cases hstep; exact h.afterYield hloc
    · simp at hstep
  | call | callback | finalize | reorder | finished =>
    simp only [Loop.step] at hstep
    split at hstep
    · next u hloc hrun => exact h.bodyStep hrun hloc hstep
    · simp at hstep

theorem Inv.init : Loop.init.Inv :=
  { nodup := List.nodup_nil, sound := by simp [Loop.init], complete := by simp [Loop.init],
    allNodup := List.nodup_nil, queue_iff := by simp [Loop.init],
    held := fun u hu => by simp [Holds, Loop.init] at hu, idle := fun _ => rfl }

/-- The two excluded labels do break the list: the resumed task is in it while it runs, the task
    spawned again is `Ready` and not in it. -/
theorem Inv.not_orderly (h : s.Inv) {op : Op} (hop : ¬ Orderly s op)
    (hstep : s.step op = some t) : ¬ t.ReadyList := by
  intro hlist
  cases op with
  | resume u e =>
    obtain ⟨hrun, hy⟩ : s.runningTask = some u ∧ (s.task u).state = .yield := by
      simpa [Orderly] using hop
    have hall := (h.held u (.inl hrun)).yielded hy
    simp only [Loop.step] at hstep
    split at hstep
    · cases hstep
      have heq : (s.resume u e).1 = (s.schedule u e).1 := by
        simp [Loop.resume, (h.queue_iff u).mpr hall]
      rw [heq] at hlist
      obtain ⟨hst, -⟩ | ⟨-, -, hs⟩ := s.schedule_cases u e
      · simp [hy] at hst
      · rw [hs] at hlist
        exact (hlist.sound u (by simp)).2.1 hrun
    · simp at hstep
  | spawn u =>
    obtain ⟨hall, hr⟩ : u ∉ s.tasksAll ∧ (s.task u).state = .ready := by
      simpa [Orderly] using hop
    have hnot : u ∉ s.tasksReady := fun hc => hall (h.sound u hc).2.2
    simp only [Loop.step] at hstep
    split at hstep
    · next hcode =>
      have hrun : s.runningTask ≠ some u := fun hc =>
        hall ((h.held u (.inl hc)).live (userCode_running hcode hc h).2)
      cases hstep
      simp only [Loop.spawn, push_detached hall] at hlist
      rw [show ∀ x : Loop, (x.task u).state = .ready → (x.schedule u {}).1 = x from
        fun x hx => by simp [Loop.schedule, hx]] at hlist
      · exact hnot (hlist.complete u (by simp) (by simpa using hr) hrun)
      · simpa using hr
    · simp at hstep
  | _ => exact hop trivial

end Loop

instance (s : Loop) (op : Op) : Decidable (Orderly s op) := by
  cases op <;> unfold Orderly <;> infer_instance

/-- CORRECT: along every run of the loop, the ready list is in order in every state if and only
    if no label resumes the running task while its state word says `Yield` and none spawns again a
    task that `exit` detached in state `Ready`. -/
theorem ready_list_always_iff (ops : List Op) (s : Loop) (hrun : Loop.init.exec ops = some s) :
    Runs.Always Loop.step Loop.ReadyList Loop.init ops ↔
      Runs.Meets Loop.step Orderly Loop.init ops :=
  Runs.always_iff_meets (fun _ _ _ hi hop hs => hi.step hop hs) (fun _ hi => hi.toReadyList)
    (fun _ _ _ hi hop hs => hi.not_orderly hop hs) ops Loop.init s hrun Loop.Inv.init

/-- Task `0` spawns task `1` and yields; the poll wakes nobody, task `1` runs, resumes task `0`,
    which is refused since it is ready, and exits. -/
def spawnAndYield : List Op :=
  [.spawn 0, .run, .callback false, .spawn 1, .finished .yield none, .polled, .callback false,
    .resume 0 {}, .finalize, .finished .exited none]

theorem ready_list_spawnAndYield :
    Runs.Always Loop.step Loop.ReadyList Loop.init spawnAndYield :=
  (ready_list_always_iff spawnAndYield _ (Option.some_get (by rfl)).symm).mpr (by decide)

/-- Task `0` yields with nothing else to run and resumes itself when it is polled again. -/
def yieldThenResumeSelf : List Op :=
  [.spawn 0, .run, .callback false, .finished .yield none, .polled, .callback false, .resume 0 {}]

/-- There the running task is in the ready list. -/
theorem ready_list_yieldThenResumeSelf :
    ∃ s, Loop.init.exec yieldThenResumeSelf = some s ∧ s.runningTask = some 0 ∧
      s.tasksReady = [0] ∧ ¬ s.ReadyList :=
  ⟨_, rfl, rfl, rfl, fun h => (h.sound 0 (by decide)).2.1 rfl⟩

end Jinx.Sched
