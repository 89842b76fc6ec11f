import Jinx.Sched.WaitReport

/-! When a `Wait` strands its owner.

    The owner is suspended by the run loop where the ready list is empty, and resumed by
    `schedule` only. So it is stranded if it is suspended while no branch is attached. The loop
    itself never does that, except where it is not entered at all: `run` tests `empty` before the
    first branch, while `task_queue_run` has set `should_suspend` already. And a suspended branch can
    be taken away from outside: `Wait::cancel` removes it by the parent's `TaskQueue::cancel`, which
    neither schedules the owner nor counts the removal for the `Wait`.

    Where neither happens the size is the number of attached branches, and everything a link can
    lead to is attached or has exited, so the branch that runs is attached (`Kept`). -/

namespace Jinx.Sched

namespace Wait

variable {τ : Type*} {s t : Wait τ} {u v : TaskId} {e : Error}

/-- The owner is suspended in the `Wait`, and no branch is attached. -/
def Stranded (s : Wait τ) : Prop :=
  s.owner = .suspended ∧ ∀ u, (s.branch u).taskQueue = false

/-- The `Wait` is awaited while a branch is attached, and a branch that is cancelled is in the ready
    list (or is refused because it runs, or is not attached). -/
def Attended (s : Wait τ) : WaitOp → Prop
  | .await => s.tasksAll ≠ []
  | .cancel u => (s.branch u).taskQueue → s.runningTask ≠ some u → (s.branch u).state = .ready
  | _ => True

instance (s : Wait τ) : ∀ a, Decidable (s.Attended a)
  | .await => inferInstanceAs (Decidable (s.tasksAll ≠ []))
  | .cancel u => inferInstanceAs
      (Decidable ((s.branch u).taskQueue → s.runningTask ≠ some u → (s.branch u).state = .ready))
  | .branchCreate _ => .isTrue trivial
  | .resume _ _ => .isTrue trivial
  | .setCondition _ => .isTrue trivial
  | .report => .isTrue trivial
  | .resumeOwner => .isTrue trivial
  | .run => .isTrue trivial
  | .finished _ _ => .isTrue trivial
  | .polled => .isTrue trivial
  | .awaiterDone => .isTrue trivial
  | .finalize => .isTrue trivial

/-- What a link leads to is attached, or it has nothing to run. -/
def Target (s : Wait τ) (q : Option TaskId) : Prop :=
  ∀ v, q = some v → v ∈ s.tasksAll ∨ (s.branch v).top = .null

/-- The branches of `_tasks_all` are the attached ones, and they are counted. -/
structure Kept (s : Wait τ) : Prop where
  members : ∀ u, (s.branch u).taskQueue ↔ u ∈ s.tasksAll
  nodup : s.tasksAll.Nodup
  size : s.size = s.tasksAll.length
  ready : s.Target s.tasksReady
  done : s.Target s.tasksDone
  links : ∀ u, s.Target (s.next u)

/-- The branch that has control is attached, and so is some branch while the owner waits. -/
structure Tended (s : Wait τ) : Prop extends Kept s where
  running : s.loc = .body → ∀ u, s.runningTask = some u → u ∈ s.tasksAll
  yielding : ∀ u, s.loc = .yieldPoll u → u ∈ s.tasksAll
  waiting : s.owner = .suspended ∨ s.owner = .scheduled → s.tasksAll ≠ []

theorem Tended.not_stranded (h : s.Tended) : ¬ s.Stranded := by
  rintro ⟨howner, hnone⟩
  obtain ⟨u, hu⟩ := List.exists_mem_of_ne_nil _ (h.waiting (.inl howner))
  have hattached := (h.members u).mpr hu
  rw [hnone u] at hattached
  cases hattached

/-! ### Operations that keep the lists -/

theorem Target.none : s.Target none := nofun

/-- What the invariant does not read may change. -/
theorem Kept.of_eq (h : s.Kept) (hbranch : t.branch = s.branch) (hall : t.tasksAll = s.tasksAll)
    (hsize : t.size = s.size) (hready : t.Target t.tasksReady) (hdone : t.tasksDone = s.tasksDone)
    (hnext : t.next = s.next) : t.Kept where
  members := by rw [hbranch, hall]; exact h.members
  nodup := hall ▸ h.nodup
  size := by rw [hsize, hall]; exact h.size
  ready := hready
  done := by
    unfold Target
    rw [hdone, hbranch, hall]
    exact h.done
  links := by
    unfold Target
    rw [hnext, hbranch, hall]
    exact h.links

theorem Target.modify {f : Branch τ → Branch τ} {q : Option TaskId} (h : s.Target q)
    (htop : (s.branch u).top = .null → (f (s.branch u)).top = .null) :
    (s.modify u f).Target q := by
  intro v hv
  refine (h v hv).imp id fun hnull => ?_
  by_cases hvu : v = u
  · subst hvu
    simpa [Wait.modify] using htop hnull
  · simpa [Wait.modify, hvu] using hnull

/-- A record changes, but not the queue of its branch. -/
theorem Kept.modify {f : Branch τ → Branch τ} (h : s.Kept)
    (hqueue : (f (s.branch u)).taskQueue = (s.branch u).taskQueue)
    (htop : (s.branch u).top = .null → (f (s.branch u)).top = .null) : (s.modify u f).Kept where
  members v := by
    by_cases hvu : v = u
    · subst hvu
      simpa [Wait.modify, hqueue] using h.members v
    · simpa [Wait.modify, hvu] using h.members v
  nodup := h.nodup
  size := h.size
  ready := h.ready.modify htop
  done := h.done.modify htop
  links v := (h.links v).modify htop

theorem Kept.pushReady (h : s.Kept) (hu : u ∈ s.tasksAll) : (s.pushReady u).Kept where
  members := h.members
  nodup := h.nodup
  size := h.size
  ready v hv := by
    obtain rfl : u = v := by simpa [Wait.pushReady] using hv
    exact .inl hu
  done := h.done
  links w v hv := by
    by_cases hwu : w = u
    · subst hwu
      exact h.ready v (by simpa [Wait.pushReady] using hv)
    · exact h.links w v (by simpa [Wait.pushReady, hwu] using hv)

/-- The branch that is put into `_tasks_done` has exited. -/
theorem Kept.pushDone (h : s.Kept) (hu : (s.branch u).top = .null) : (s.pushDone u).Kept where
  members := h.members
  nodup := h.nodup
  size := h.size
  ready := h.ready
  done v hv := by
    obtain rfl : u = v := by simpa [Wait.pushDone] using hv
    exact .inr hu
  links w v hv := by
    by_cases hwu : w = u
    · subst hwu
      exact h.done v (by simpa [Wait.pushDone] using hv)
    · exact h.links w v (by simpa [Wait.pushDone, hwu] using hv)

theorem Kept.resumeOwner (h : s.Kept) : s.resumeOwner.Kept := by
  unfold Wait.resumeOwner
  split
  · exact h.of_eq rfl rfl rfl h.ready rfl rfl
  · exact h

theorem resumeOwner_tasksAll (s : Wait τ) : s.resumeOwner.tasksAll = s.tasksAll := by
  unfold resumeOwner
  split <;> rfl

theorem Kept.schedule (h : s.Kept) (hu : u ∈ s.tasksAll) (e : Error) : (s.schedule u e).Kept := by
  have hpush := (h.modify (u := u) (f := fun x => { x with state := .ready, error := e }) rfl id)
    |>.pushReady hu
  unfold Wait.schedule
  dsimp only
  split
  · exact h
  split
  · exact h
  split
  · exact hpush.resumeOwner
  · exact hpush

theorem schedule_tasksAll (s : Wait τ) (u : TaskId) (e : Error) :
    (s.schedule u e).tasksAll = s.tasksAll := by
  unfold schedule
  dsimp only
  split
  · rfl
  split
  · rfl
  split
  · exact resumeOwner_tasksAll _
  · rfl

theorem schedule_top {u v : TaskId} {e : Error} (h : (s.branch v).top = .null) :
    ((s.schedule u e).branch v).top = .null :=
  (Steady.schedule s u e).top v h

theorem Kept.push (h : s.Kept) (u : TaskId) :
    (s.push u).1.Kept ∧ u ∈ (s.push u).1.tasksAll ∧ s.tasksAll ⊆ (s.push u).1.tasksAll := by
  have hmem : ∀ v, ((s.modify u fun x => { x with taskQueue := true }).branch v).taskQueue ↔
      v = u ∨ v ∈ s.tasksAll := by
    intro v
    by_cases hvu : v = u
    · simp [Wait.modify, hvu]
    · simpa [Wait.modify, hvu] using h.members v
  have htarget : ∀ {q l}, s.Target q → s.tasksAll ⊆ l →
      Target { s.modify u fun x => { x with taskQueue := true } with tasksAll := l } q := by
    intro q l hq hl v hv
    exact (hq.modify (f := fun x => { x with taskQueue := true }) (u := u) id v hv).imp
      (fun hin => hl hin) id
  unfold Wait.push
  dsimp only
  split
  · rename_i hu
    refine ⟨⟨fun v => (hmem v).trans ?_, h.nodup, h.size, ?_, ?_, ?_⟩, hu, List.Subset.refl _⟩
    · exact ⟨fun hv => hv.elim (fun hvu => hvu ▸ hu) id, .inr⟩
    · exact h.ready.modify id
    · exact h.done.modify id
    · exact fun w => (h.links w).modify id
  · rename_i hu
    have hsub : s.tasksAll ⊆ u :: s.tasksAll := List.subset_cons_self u s.tasksAll
    refine ⟨⟨fun v => (hmem v).trans List.mem_cons.symm, List.nodup_cons.mpr ⟨hu, h.nodup⟩, ?_, ?_, ?_,
      ?_⟩, List.mem_cons_self, hsub⟩
    · exact congrArg (· + 1) h.size
    · exact htarget h.ready hsub
    · exact htarget h.done hsub
    · exact fun w => htarget (h.links w) hsub

/-- A branch that has exited is taken out. -/
theorem Kept.pop (h : s.Kept) (hu : (s.branch u).top = .null) : (s.pop u false).1.Kept := by
  unfold Wait.pop
  split
  · rename_i hmem
    have htarget : ∀ {q}, s.Target q →
        Target { s.modify u fun x => { x with taskQueue := false } with
          tasksAll := s.tasksAll.erase u } q := by
      intro q hq v hv
      by_cases hvu : v = u
      · subst hvu
        exact .inr (by simpa [Wait.modify] using hu)
      · refine (hq v hv).imp (fun hin => (List.mem_erase_of_ne hvu).mpr hin) fun hnull => ?_
        simpa [Wait.modify, hvu] using hnull
    refine ⟨fun v => ?_, h.nodup.erase u, ?_, htarget h.ready, htarget h.done,
      fun w => htarget (h.links w)⟩
    · by_cases hvu : v = u
      · subst hvu
        simp [Wait.modify, h.nodup.mem_erase_iff]
      · simpa [Wait.modify, hvu, h.nodup.mem_erase_iff] using h.members v
    · change s.size - 1 = (s.tasksAll.erase u).length
      rw [List.length_erase_of_mem hmem, h.size]
  · exact h

theorem pop_branch_top (s : Wait τ) (u v : TaskId) (parent : Bool) :
    ((s.pop u parent).1.branch v).top = (s.branch v).top := by
  unfold pop
  split
  · by_cases hvu : v = u
    · simp [Wait.modify, hvu]
    · simp [Wait.modify, hvu]
  · rfl

/-! ### The run loop -/

/-- The branch that is run next is attached, or nothing is run. -/
theorem Kept.startRun (h : s.Kept) (hu : u ∈ s.tasksAll ∨ (s.branch u).top = .null)
    (hall : s.tasksAll ≠ []) : (s.startRun u).Tended := by
  unfold Wait.startRun
  dsimp only
  split
  · exact ⟨h.of_eq rfl rfl rfl h.ready rfl rfl, by simp, by simp, fun _ => hall⟩
  · rename_i htop
    refine ⟨h.of_eq rfl rfl rfl h.ready rfl rfl, fun _ v hv => ?_, by simp, fun _ => hall⟩
    obtain rfl : u = v := by simpa using hv
    exact hu.resolve_right htop

theorem Kept.suspend (h : s.Kept) (hall : s.tasksAll ≠ []) : s.suspend.Tended :=
  ⟨h.of_eq rfl rfl rfl h.ready rfl rfl, by simp [Wait.suspend], by simp [Wait.suspend], fun _ => hall⟩

theorem Kept.pause (h : s.Kept) : s.pause.Tended :=
  ⟨h.of_eq rfl rfl rfl h.ready rfl rfl, by simp [Wait.pause, emit], by simp [Wait.pause, emit],
    by simp [Wait.pause, emit]⟩

theorem Kept.nextTask (h : s.Kept) (hall : s.tasksAll ≠ []) : s.nextTask.Tended := by
  unfold Wait.nextTask
  split
  · exact h.suspend hall
  · rename_i u hready
    have hpop : Kept { s with tasksReady := s.next u } := h.of_eq rfl rfl rfl (h.links u) rfl rfl
    exact hpop.startRun (h.ready u hready) hall

theorem Kept.taskQueueRun (h : s.Kept) (hall : s.tasksAll ≠ []) : s.taskQueueRun.Tended := by
  unfold Wait.taskQueueRun
  split
  · exact h.suspend hall
  · exact h.nextTask hall

theorem Kept.afterYield (h : s.Kept) (hu : u ∈ s.tasksAll) : (s.afterYield u).Tended := by
  have hall : s.tasksAll ≠ [] := List.ne_nil_of_mem hu
  unfold Wait.afterYield
  split
  · exact h.startRun (.inl hu) hall
  · rename_i next hready
    have hpop : Kept { s with tasksReady := s.next next } :=
      h.of_eq rfl rfl rfl (h.links next) rfl rfl
    have hsched := hpop.schedule hu {}
    have hkeep := schedule_tasksAll { s with tasksReady := s.next next } u {}
    refine hsched.startRun ?_ (by rwa [hkeep])
    rcases h.ready next hready with hin | hnull
    · exact .inl (by rwa [hkeep])
    · exact .inr (schedule_top hnull)

/-- After an exit the loop goes on only if the size is not zero. -/
theorem Kept.testCondition (h : s.Kept) (u : TaskId) : (s.testCondition u).Tended := by
  unfold Wait.testCondition
  split
  · exact h.pause
  split
  · exact h.pause
  split
  · exact h.pause
  · rename_i hsize
    refine h.nextTask fun hnil => hsize ?_
    rw [h.size, hnil]
    rfl

theorem Kept.noteExit (h : s.Kept) (u : TaskId) : (s.noteExit u).Kept := by
  unfold Wait.noteExit
  split
  · exact h.of_eq rfl rfl rfl h.ready rfl rfl
  · exact h

theorem noteExit_frame (s : Wait τ) (u : TaskId) :
    (s.noteExit u).branch = s.branch ∧ (s.noteExit u).tasksAll = s.tasksAll := by
  unfold Wait.noteExit
  split <;> exact ⟨rfl, rfl⟩

theorem Kept.onTaskExit (h : s.Kept) (hu : (s.branch u).top = .null) (hall : s.tasksAll ≠ []) :
    (s.onTaskExit u).Tended := by
  have hpop := h.pop hu
  have htop := pop_branch_top s u u false
  have hfail : (s.pop u false).2 = .failed → (s.pop u false).1 = s := by
    unfold Wait.pop
    split <;> simp
  unfold Wait.onTaskExit
  split <;> rename_i t hres <;> rw [hres] at hpop htop hfail
  · obtain rfl : t = s := hfail rfl
    exact ⟨h.of_eq rfl rfl rfl h.ready rfl rfl, by simp, by simp, fun _ => hall⟩
  · exact (hpop.pushDone (htop.trans hu)).testCondition u

theorem Kept.finished {st : ControlState} (h : s.Kept) (hu : u ∈ s.tasksAll)
    (hnull : (s.branch u).top ≠ .null) (raised : Option Error) :
    (s.finished u st raised).Tended := by
  have hall : s.tasksAll ≠ [] := List.ne_nil_of_mem hu
  have hrun : Kept { s with runningTask := none } := h.of_eq rfl rfl rfl h.ready rfl rfl
  have hmod := hrun.modify (u := u) (f := fun x =>
    { x with
      state := st
      error := raised.getD x.error
      top := if st = ControlState.exited then .null else x.top }) rfl fun htop => absurd htop hnull
  by_cases hst : st = .exited
  · rw [Wait.finished, if_pos hst]
    refine (hmod.noteExit u).onTaskExit ?_ ?_
    · rw [(noteExit_frame _ u).1]
      simp [Wait.modify, hst]
    · rw [(noteExit_frame _ u).2]
      exact hall
  · rw [Wait.finished, if_neg hst]
    by_cases hyield : st = .yield
    · rw [if_pos hyield]
      refine ⟨hmod.of_eq rfl rfl rfl hmod.ready rfl rfl, by simp, fun v hv => ?_, fun _ => hall⟩
      obtain rfl : u = v := by simpa using hv
      exact hu
    · rw [if_neg hyield]
      exact hmod.nextTask hall

/-- The owner gets control while the `Wait` is its top frame. -/
theorem Kept.asyncPoll (h : s.Kept) (hall : s.tasksAll ≠ []) : (s.asyncPoll true).Tended := by
  unfold Wait.asyncPoll
  split
  · exact h.taskQueueRun hall
  · exact Kept.taskQueueRun (h.of_eq rfl rfl rfl h.ready rfl rfl) hall

/-! ### Runs -/

/-- The owner is in the `Wait`. -/
def Waiting (s : Wait τ) : Prop := s.owner = .suspended ∨ s.owner = .scheduled

/-- What user code does to the branches leaves the run loop where it is. -/
theorem Tended.frame (h : s.Tended) (ht : t.Kept) (hs : Steady s t)
    (howner : t.Waiting → s.Waiting) (hall : s.tasksAll ⊆ t.tasksAll) : t.Tended where
  toKept := ht
  running hloc u hu := hall (h.running (hs.loc ▸ hloc) u (hs.runningTask ▸ hu))
  yielding u hloc := hall (h.yielding u (hs.loc ▸ hloc))
  waiting hwait hnil := by
    have hne := h.waiting (howner hwait)
    rw [hnil] at hall
    exact hne (List.subset_nil.mp hall)

theorem resumeOwner_waiting (h : s.resumeOwner.Waiting) : s.Waiting := by
  unfold resumeOwner at h
  split at h
  · rename_i hsusp
    exact .inl hsusp
  · exact h

theorem schedule_waiting (h : (s.schedule u e).Waiting) : s.Waiting := by
  unfold schedule at h
  dsimp only at h
  split at h
  · exact h
  split at h
  · exact h
  split at h
  · have hpushed := resumeOwner_waiting h
    exact hpushed
  · exact h

theorem push_waiting (h : (s.push u).1.Waiting) : s.Waiting := by
  unfold push at h
  dsimp only at h
  split at h <;> exact h

theorem Tended.branchCreate (h : s.Tended) (u : TaskId) : (s.branchCreate u).Tended := by
  obtain ⟨hkept, hu, hsub⟩ := h.toKept.push u
  have hs := Steady.push s u
  have hwait := push_waiting (s := s) (u := u)
  unfold Wait.branchCreate
  split <;> rename_i t hpush <;> rw [hpush] at hkept hu hsub hs hwait
  · exact h.frame hkept hs hwait hsub
  · refine h.frame (hkept.schedule hu {}) (hs.trans (.schedule t u {})) (hwait ∘ schedule_waiting) ?_
    rw [schedule_tasksAll]
    exact hsub

theorem Tended.resume (h : s.Tended) (u : TaskId) (e : Error) : (s.resume u e).Tended := by
  unfold Wait.resume
  split
  · rename_i hqueue
    have hu : u ∈ s.tasksAll := (h.members u).mp hqueue
    refine h.frame (h.toKept.schedule hu e) (.schedule s u e) schedule_waiting ?_
    rw [schedule_tasksAll]
    exact List.Subset.refl _
  · exact h

/-- `cancel` of a branch that is in the ready list. -/
theorem cancelAt_ready (parent : Bool) (h : (s.branch u).state = .ready) : s.cancelAt u parent =
    (s.modify u fun x => { x with top := if x.top = .frame then .task else x.top }).modify u
      fun x => { x with error := {} } := by
  unfold cancelAt
  dsimp only
  rw [if_pos (by simpa [Wait.modify] using h)]

/-- A branch that is in the ready list stays attached when it is cancelled. -/
theorem Tended.cancel (h : s.Tended) (hsafe : s.Attended (.cancel u)) : (s.cancel u).Tended := by
  unfold Wait.cancel
  split
  · exact h
  rename_i hqueue
  split
  · exact h
  rename_i hrun
  split
  · have hready : (s.branch u).state = .ready := hsafe (by simpa using hqueue) hrun
    have hs := Steady.cancelAt s u true
    rw [cancelAt_ready true hready] at hs ⊢
    have htop := h.toKept.modify (u := u)
      (f := fun x => { x with top := if x.top = .frame then .task else x.top }) rfl
      fun hnull => by simp [hnull]
    exact h.frame (htop.modify rfl id) hs id (List.Subset.refl _)
  · exact ⟨h.toKept.of_eq rfl rfl rfl h.ready rfl rfl, by simp, by simp, h.waiting⟩

theorem cancel_finalized (h : s.owner = .finalized) : (s.cancel u).owner = .finalized := by
  unfold cancel
  split
  · exact h
  split
  · exact h
  split
  · exact (Steady.cancelAt s u true).owner.mpr h
  · exact h

theorem Tended.report (h : s.Tended) (ht : s.report = some t) : t.Tended := by
  obtain ⟨u, hdone, rfl⟩ := Option.map_eq_some_iff.mp ht
  exact ⟨⟨h.members, h.nodup, h.size, h.ready, h.links u, h.links⟩, h.running, h.yielding, h.waiting⟩

/-- Either the `Wait` is finalized, and its owner is not in it, or it is tended. -/
structure Awaited (s : Wait τ) : Prop extends Inv s where
  tended : s.owner ≠ .finalized → s.Tended

theorem init_awaited (c : WaitCondition) (tag : TaskId → τ) : (init c tag).Awaited := by
  refine ⟨init_inv c tag, fun _ => ⟨⟨?_, List.nodup_nil, rfl, .none, .none, fun _ => .none⟩, ?_, ?_, ?_⟩⟩
    <;> simp [init]

theorem Awaited.not_stranded (h : s.Awaited) : ¬ s.Stranded := by
  intro hs
  exact (h.tended (by simp [hs.1])).not_stranded hs

theorem Awaited.step {a : WaitOp} (h : s.Awaited) (ha : s.Attended a) (ht : s.step a = some t) :
    t.Awaited := by
  refine ⟨h.toInv.step ht, fun hfin => ?_⟩
  have hcases := step_cases ht
  cases a with
  | branchCreate u =>
    obtain ⟨-, rfl⟩ := hcases
    exact (h.tended (mt (Steady.branchCreate s u).owner.mpr hfin)).branchCreate u
  | resume u e =>
    obtain ⟨-, rfl⟩ := hcases
    exact (h.tended (mt (Steady.resume s u e).owner.mpr hfin)).resume u e
  | cancel u =>
    obtain ⟨-, rfl⟩ := hcases
    exact (h.tended (mt cancel_finalized hfin)).cancel ha
  | setCondition c =>
    obtain ⟨-, rfl⟩ := hcases
    have hs := h.tended hfin
    exact ⟨hs.toKept.of_eq rfl rfl rfl hs.ready rfl rfl, hs.running, hs.yielding, hs.waiting⟩
  | report =>
    obtain ⟨-, hreport⟩ := hcases
    refine (h.tended ?_).report hreport
    rwa [← (report_frame hreport).2.2.2.2.2]
  | await =>
    obtain ⟨⟨-, howner⟩, rfl⟩ := hcases
    have hs := (h.tended (by simp [howner])).toKept
    exact Kept.asyncPoll (hs.of_eq rfl rfl rfl hs.ready rfl rfl) ha
  | resumeOwner =>
    obtain ⟨-, rfl⟩ := hcases
    have hs := h.tended (mt (Steady.resumeOwner s).owner.mpr hfin)
    refine hs.frame hs.toKept.resumeOwner (.resumeOwner s) resumeOwner_waiting ?_
    rw [resumeOwner_tasksAll]
    exact List.Subset.refl _
  | run =>
    obtain ⟨⟨-, howner⟩, rfl⟩ := hcases
    have hs := h.tended (by simp [howner])
    exact hs.toKept.asyncPoll (hs.waiting (.inr howner))
  | finished st raised =>
    obtain ⟨u, hloc, hrun, rfl⟩ := hcases
    have hs := h.tended (h.live (.inl hloc))
    exact hs.toKept.finished (hs.running hloc u hrun) (h.running hloc u hrun) raised
  | polled =>
    obtain ⟨u, hloc, rfl⟩ := hcases
    have hs := h.tended (h.live (.inr ⟨u, hloc⟩))
    exact hs.toKept.afterYield (hs.yielding u hloc)
  | awaiterDone =>
    obtain ⟨⟨-, -, hpaused⟩, rfl⟩ := hcases
    refine absurd ?_ hfin
    rw [asyncPoll, hpaused]
    rfl
  | finalize =>
    obtain ⟨-, rfl⟩ := hcases
    exact absurd rfl hfin

/-- Where the `Wait` is awaited only while a branch is attached, and no suspended branch is cancelled
    from outside, the owner is never suspended without a branch that can wake it. -/
theorem owner_not_stranded (c : WaitCondition) (tag : TaskId → τ) (as : List WaitOp)
    (h : Runs.Meets step Attended (init c tag) as) :
    Runs.Always step (fun s => ¬ s.Stranded) (init c tag) as :=
  Runs.always_of_meets (fun _ _ _ hs ha ht => hs.step ha ht) (fun _ hs => hs.not_stranded) as _
    (init_awaited c tag) h

/-- Two branches, of which one is cancelled while it is in the ready list. -/
theorem owner_not_stranded_cancel :
    Runs.Always step (fun s => ¬ s.Stranded) (init .allCompleted fun _ => ())
      [.branchCreate 1, .branchCreate 2, .await, .finished .exited none, .finished .suspended none,
        .resume 1 {}, .cancel 1, .run, .finished .exited none] :=
  owner_not_stranded _ _ _ (by decide)

/-- The owner is stranded when it awaits a `Wait` without branches, and when its last branch is
    cancelled while it is suspended. -/
theorem owner_stranded :
    (∃ s, exec (init .allCompleted fun _ => ()) [.await] = some s ∧ s.Stranded) ∧
    ∃ s, exec (init .allCompleted fun _ => ())
      [.branchCreate 1, .await, .finished .suspended none, .cancel 1] = some s ∧ s.Stranded := by
  refine ⟨⟨_, rfl, rfl, fun u => rfl⟩, ⟨_, rfl, rfl, fun u => ?_⟩⟩
  by_cases hu : u = 1
  · subst hu
    rfl
  · simp [init, branchCreate, push, Wait.schedule, pushReady, asyncPoll, taskQueueRun, nextTask,
      startRun, finished, suspend, cancel, cancelAt, pop, Wait.modify, hu]

end Wait

end Jinx.Sched
