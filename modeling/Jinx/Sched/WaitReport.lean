import Jinx.Lib.LinkedList
import Jinx.Sched.Wait
import Mathlib.Data.List.Perm.Basic

/-! What a `Wait` reports, and when it returns.

    A branch that has exited is in `_tasks_done` until `for_each` takes it out. The link of its node
    is not written in between: `schedule` refuses a task that has exited, so the node is not pushed
    to `_tasks_ready` again (`Quiet.settled`). This holds also where the ready list itself is in
    disorder, since only its own nodes are read there. Control goes back to the awaiter from
    `on_task_exit` only, that is directly after an exit. -/

namespace Jinx.Sched

open LinkedList

namespace Wait

variable {τ : Type*} {s t r : Wait τ} {u v : TaskId} {e : Error} {D : List TaskId}

/-- The branches that have exited while they were attached, with their tags and errors. -/
def exits : List (WaitEvent τ) → List (TaskId × τ × Error)
  | [] => []
  | .exited u g e :: l => (u, g, e) :: exits l
  | _ :: l => exits l

/-- What was passed to the argument of `for_each`. -/
def reports : List (WaitEvent τ) → List (TaskId × τ × Error)
  | [] => []
  | .reported u g e :: l => (u, g, e) :: reports l
  | _ :: l => reports l

/-- The exits since control went back to the awaiter the last time. -/
def exitsSince : List (WaitEvent τ) → List (TaskId × τ × Error)
  | [] => []
  | .returned _ _ :: _ => []
  | .exited u g e :: l => (u, g, e) :: exitsSince l
  | _ :: l => exitsSince l

/-- The condition the awaiter waits for, given the exits since it had control and the branches that
    are left. -/
def Met (exits : List (TaskId × τ × Error)) (left : List TaskId) : WaitCondition → Prop
  | .allCompleted => left = []
  | .firstCompleted => exits ≠ []
  | .firstException => (∃ x ∈ exits, x.2.2.isSet) ∨ left = []

/-- Whenever control went back to the awaiter, its condition was met. -/
def Justified : List (WaitEvent τ) → Prop
  | [] => True
  | .returned c left :: l => Met (exitsSince l) left c ∧ Justified l
  | _ :: l => Justified l

/-- What `for_each` passes on for a branch. -/
def entry (s : Wait τ) (u : TaskId) : TaskId × τ × Error :=
  (u, (s.branch u).tag, (s.branch u).error)

/-- Every branch exits once, and every exit was passed to `for_each` once, with the branch's tag and
    its error, or waits in `_tasks_done` for it, where none is left when the `Wait` is finalized; and
    the awaiter got control only when its condition was met. -/
structure Reported (s : Wait τ) : Prop where
  once : ∃ D, Links s.next some none s.tasksDone D ∧
    (exits s.log).Perm (reports s.log ++ D.map s.entry)
  all : s.owner = .finalized → (exits s.log).Perm (reports s.log)
  distinct : ((exits s.log).map Prod.fst).Nodup
  justified : Justified s.log

/-- The branch has exited. -/
def Settled (s : Wait τ) (u : TaskId) : Prop :=
  (s.branch u).state = .exited ∧ (s.branch u).top = .null

/-- `_tasks_done` holds the branches `D`. -/
structure Done (s : Wait τ) (D : List TaskId) : Prop where
  links : Links s.next some none s.tasksDone D
  nodup : D.Nodup
  size : s.doneSize = D.length
  settled : ∀ u ∈ D, s.Settled u
  account : (exits s.log).Perm (reports s.log ++ D.map s.entry)

/-- The log and `_tasks_done` agree. -/
structure Recorded (s : Wait τ) : Prop where
  done : ∃ D, s.Done D
  distinct : ((exits s.log).map Prod.fst).Nodup
  gone : ∀ x ∈ exits s.log, (s.branch x.1).top = .null
  justified : Justified s.log

/-- The run loop is between two interruptions. -/
structure Looping (s : Wait τ) : Prop extends Recorded s where
  size : s.tasksAll.length ≤ s.size
  live : s.owner ≠ .finalized

/-- A branch that is removed by `Wait::cancel` is still counted, so the size can only be too large. -/
structure Inv (s : Wait τ) : Prop extends Recorded s where
  running : s.loc = .body → ∀ u, s.runningTask = some u → (s.branch u).top ≠ .null
  size : s.tasksAll.length ≤ s.size
  live : s.loc = .body ∨ (∃ u, s.loc = .yieldPoll u) → s.owner ≠ .finalized
  drained : s.owner = .finalized → s.tasksDone = none

theorem Inv.reported (h : s.Inv) : s.Reported := by
  obtain ⟨D, hD⟩ := h.done
  refine ⟨⟨D, hD.links, hD.account⟩, fun hfin => ?_, h.distinct, h.justified⟩
  have hlinks := hD.links
  rw [h.drained hfin] at hlinks
  obtain rfl : D = [] := hlinks.eq_nil Option.some_ne_none
  simpa using hD.account

theorem init_inv (c : WaitCondition) (tag : TaskId → τ) : (init c tag).Inv where
  done := ⟨[], rfl, List.nodup_nil, rfl, by simp, by simp [init, exits, reports]⟩
  distinct := List.nodup_nil
  gone := by simp [init, exits]
  running := by simp [init]
  size := Nat.le_refl 0
  live := by simp [init]
  drained := by simp [init]
  justified := trivial

/-! ### What leaves the exited branches alone -/

/-- From `s` to `t` nothing exits, nothing is reported, and the records and links of the branches
    that have exited stay as they are. -/
structure Quiet (s t : Wait τ) : Prop where
  log : t.log = s.log
  tasksDone : t.tasksDone = s.tasksDone
  doneSize : t.doneSize = s.doneSize
  settled : ∀ u, s.Settled u → t.Settled u ∧ t.next u = s.next u ∧ t.entry u = s.entry u
  top : ∀ u, (s.branch u).top = .null → (t.branch u).top = .null

theorem Quiet.refl (s : Wait τ) : Quiet s s :=
  ⟨rfl, rfl, rfl, fun _ h => ⟨h, rfl, rfl⟩, fun _ => id⟩

theorem Quiet.trans (h : Quiet r s) (h' : Quiet s t) : Quiet r t where
  log := h'.log.trans h.log
  tasksDone := h'.tasksDone.trans h.tasksDone
  doneSize := h'.doneSize.trans h.doneSize
  settled u hu := by
    obtain ⟨hs, hnext, hentry⟩ := h.settled u hu
    obtain ⟨ht, hnext', hentry'⟩ := h'.settled u hs
    exact ⟨ht, hnext'.trans hnext, hentry'.trans hentry⟩
  top u hu := h'.top u (h.top u hu)

/-- The fields that neither the branches nor the links nor the log depend on. -/
theorem Quiet.of_eq (hlog : t.log = s.log) (hdone : t.tasksDone = s.tasksDone)
    (hsize : t.doneSize = s.doneSize) (hbranch : t.branch = s.branch) (hnext : t.next = s.next) :
    Quiet s t where
  log := hlog
  tasksDone := hdone
  doneSize := hsize
  settled u hu := by simpa [Settled, entry, hbranch, hnext] using hu
  top u hu := by rwa [hbranch]

theorem Quiet.atLoc (s : Wait τ) (loc : WaitLoc) : Quiet s { s with loc := loc } :=
  .of_eq rfl rfl rfl rfl rfl

/-- One record is changed, and its branch has not exited or keeps what `for_each` reads. -/
theorem Quiet.modify {f : Branch τ → Branch τ}
    (htop : (s.branch u).top = .null → (f (s.branch u)).top = .null)
    (hsettled : s.Settled u → (f (s.branch u)).state = .exited ∧
      (f (s.branch u)).tag = (s.branch u).tag ∧ (f (s.branch u)).error = (s.branch u).error) :
    Quiet s (s.modify u f) where
  log := rfl
  tasksDone := rfl
  doneSize := rfl
  settled v hv := by
    by_cases hvu : v = u
    · subst hvu
      obtain ⟨hstate, htag, herror⟩ := hsettled hv
      refine ⟨⟨by simpa [Wait.modify] using hstate, ?_⟩, rfl, ?_⟩
      · simpa [Wait.modify] using htop hv.2
      · simp [entry, Wait.modify, htag, herror]
    · simpa [Settled, entry, Wait.modify, hvu] using hv
  top v := by
    by_cases hvu : v = u
    · subst hvu
      simpa [Wait.modify] using htop
    · simp [Wait.modify, hvu]

theorem Quiet.pop (s : Wait τ) (u : TaskId) (parent : Bool) : Quiet s (s.pop u parent).1 := by
  unfold Wait.pop
  split
  · have hq : Quiet s (s.modify u fun x => { x with taskQueue := false }) :=
      .modify id fun h => ⟨h.1, rfl, rfl⟩
    exact hq.trans (.of_eq rfl rfl rfl rfl rfl)
  · exact .refl s

theorem Quiet.resumeOwner (s : Wait τ) : Quiet s s.resumeOwner := by
  unfold Wait.resumeOwner
  split
  · exact .of_eq rfl rfl rfl rfl rfl
  · exact .refl s

/-- The node that is pushed is not one that has exited. -/
theorem Quiet.pushReady (hu : ¬ s.Settled u) : Quiet s (s.pushReady u) where
  log := rfl
  tasksDone := rfl
  doneSize := rfl
  settled v hv := by
    have hvu : v ≠ u := by
      rintro rfl
      exact hu hv
    exact ⟨hv, by simp [Wait.pushReady, hvu], rfl⟩
  top _ := id

theorem Quiet.startRun (s : Wait τ) (u : TaskId) : Quiet s (s.startRun u) := by
  unfold Wait.startRun
  dsimp only
  split <;> exact .of_eq rfl rfl rfl rfl rfl

theorem Recorded.quiet (h : s.Recorded) (hq : Quiet s t) : t.Recorded where
  done := by
    obtain ⟨D, hD⟩ := h.done
    have hkeep : ∀ u ∈ D, t.Settled u ∧ t.next u = s.next u ∧ t.entry u = s.entry u :=
      fun u hu => hq.settled u (hD.settled u hu)
    refine ⟨D, ?_, hD.nodup, hq.doneSize.trans hD.size, fun u hu => (hkeep u hu).1, ?_⟩
    · rw [hq.tasksDone]
      exact hD.links.congr fun u hu => (hkeep u hu).2.1
    · rw [hq.log, List.map_congr_left fun u hu => (hkeep u hu).2.2]
      exact hD.account
  distinct := hq.log.symm ▸ h.distinct
  gone x hx := hq.top x.1 (h.gone x (hq.log ▸ hx))
  justified := hq.log.symm ▸ h.justified

/-! ### What the log records -/

/-- `for_each` takes a branch out of `_tasks_done`. -/
theorem Recorded.report (h : s.Recorded) (ht : s.report = some t) : t.Recorded := by
  obtain ⟨D, hD⟩ := h.done
  obtain ⟨u, hu, rfl⟩ := Option.map_eq_some_iff.mp ht
  cases D with
  | nil =>
    have hnone : s.tasksDone = none := hD.links
    simp [hnone] at hu
  | cons v D =>
    obtain ⟨hv, hlinks⟩ := hD.links
    obtain rfl : u = v := by simpa [hu] using hv
    refine ⟨⟨D, hlinks, (List.nodup_cons.mp hD.nodup).2, ?_, ?_, ?_⟩, h.distinct, h.gone,
      h.justified⟩
    · simp [Wait.emit, hD.size]
    · exact fun w hw => hD.settled w (List.mem_cons_of_mem _ hw)
    · have haccount := hD.account
      rw [List.map_cons] at haccount
      exact haccount.trans List.perm_middle

theorem Recorded.forEach (n : Nat) (h : s.Recorded) : (s.forEach n).Recorded := by
  induction n generalizing s with
  | zero => exact h
  | succ n ih =>
    unfold Wait.forEach
    split
    · exact h
    · rename_i hreport
      exact ih (h.report hreport)

/-- `for_each` ends when every exit has been reported. -/
theorem Done.forEach (h : s.Done D) : (s.forEach s.doneSize).tasksDone = none := by
  induction D generalizing s with
  | nil =>
    have hsize : s.doneSize = 0 := h.size
    have hnone : s.tasksDone = none := h.links
    rw [hsize]
    exact hnone
  | cons u D ih =>
    obtain ⟨hu, hlinks⟩ := h.links
    have hreport : s.report = some ({ s with tasksDone := s.next u, doneSize := s.doneSize - 1 }.emit
        (.reported u (s.branch u).tag (s.branch u).error)) := by
      simp [Wait.report, hu]
    have hsize : s.doneSize = D.length + 1 := h.size
    have hrest : Done ({ s with tasksDone := s.next u, doneSize := s.doneSize - 1 }.emit
        (.reported u (s.branch u).tag (s.branch u).error)) D := by
      refine ⟨hlinks, (List.nodup_cons.mp h.nodup).2, by simp [Wait.emit, hsize],
        fun w hw => h.settled w (List.mem_cons_of_mem _ hw), ?_⟩
      have haccount := h.account
      rw [List.map_cons] at haccount
      exact haccount.trans List.perm_middle
    have hnext := ih hrest
    rw [hsize]
    unfold Wait.forEach
    rw [hreport]
    simpa [Wait.emit, hsize] using hnext

/-- A branch that exits for the first time goes to `_tasks_done`. -/
theorem Recorded.complete (h : s.Recorded) (hnew : ∀ x ∈ exits s.log, x.1 ≠ u)
    (hu : s.Settled u) :
    ((s.emit (.exited u (s.branch u).tag (s.branch u).error)).pushDone u).Recorded := by
  obtain ⟨D, hD⟩ := h.done
  have hne : ∀ v ∈ D, v ≠ u := by
    rintro v hv rfl
    have hmem : s.entry v ∈ reports s.log ++ D.map s.entry :=
      List.mem_append_right _ (List.mem_map_of_mem hv)
    exact hnew _ (hD.account.mem_iff.mpr hmem) rfl
  refine ⟨⟨u :: D, ⟨rfl, ?_⟩, ?_, ?_, ?_, ?_⟩, ?_, ?_, h.justified⟩
  · simp only [emit, pushDone, Function.update_self]
    exact hD.links.congr fun v hv => Function.update_of_ne (hne v hv) _ _
  · exact List.nodup_cons.mpr ⟨fun hmem => hne u hmem rfl, hD.nodup⟩
  · simp [emit, pushDone, hD.size]
  · intro v hv
    rcases List.mem_cons.mp hv with rfl | hv
    · exact hu
    · exact hD.settled v hv
  · rw [List.map_cons]
    exact (hD.account.cons _).trans List.perm_middle.symm
  · refine List.nodup_cons.mpr ⟨fun hmem => ?_, h.distinct⟩
    obtain ⟨y, hy, hyu⟩ := List.mem_map.mp hmem
    exact hnew y hy hyu
  · intro y hy
    rcases List.mem_cons.mp hy with rfl | hy
    · exact hu.2
    · exact h.gone y hy

/-- Control goes back to the awaiter, whose condition is met. -/
theorem Recorded.pause (h : s.Recorded) (hmet : Met (exitsSince s.log) s.tasksAll s.condition) :
    s.pause.Recorded := by
  obtain ⟨D, hD⟩ := h.done
  exact ⟨⟨D, hD.links, hD.nodup, hD.size, hD.settled, hD.account⟩, h.distinct, h.gone, hmet,
    h.justified⟩

/-! ### Sizes, and the branch that runs -/

/-- Scheduling, and what user code does to the lists, leaves the run loop where it is. -/
structure Steady (s t : Wait τ) : Prop extends Quiet s t where
  alive : ∀ u, (s.branch u).top ≠ .null → (t.branch u).top ≠ .null
  loc : t.loc = s.loc
  runningTask : t.runningTask = s.runningTask
  size : s.tasksAll.length ≤ s.size → t.tasksAll.length ≤ t.size
  owner : t.owner = .finalized ↔ s.owner = .finalized

theorem Inv.steady (h : s.Inv) (hs : Steady s t) : t.Inv where
  toRecorded := h.toRecorded.quiet hs.toQuiet
  running hloc u hu := hs.alive u (h.running (hs.loc ▸ hloc) u (hs.runningTask ▸ hu))
  size := hs.size h.size
  live hloc hfin := h.live (hs.loc ▸ hloc) (hs.owner.mp hfin)
  drained hfin := hs.tasksDone.trans (h.drained (hs.owner.mp hfin))

theorem Looping.steady (h : s.Looping) (hs : Steady s t) : t.Looping where
  toRecorded := h.toRecorded.quiet hs.toQuiet
  size := hs.size h.size
  live hfin := h.live (hs.owner.mp hfin)

theorem Steady.refl (s : Wait τ) : Steady s s := ⟨.refl s, fun _ => id, rfl, rfl, id, .rfl⟩

theorem Steady.trans (h : Steady r s) (h' : Steady s t) : Steady r t where
  toQuiet := h.toQuiet.trans h'.toQuiet
  alive u hu := h'.alive u (h.alive u hu)
  loc := h'.loc.trans h.loc
  runningTask := h'.runningTask.trans h.runningTask
  size hr := h'.size (h.size hr)
  owner := h'.owner.trans h.owner

/-- The fields that only the run loop uses. -/
theorem Steady.of_eq (hq : Quiet s t) (hbranch : t.branch = s.branch) (hloc : t.loc = s.loc)
    (hrun : t.runningTask = s.runningTask) (hsize : t.size = s.size) (hall : t.tasksAll = s.tasksAll)
    (howner : t.owner = s.owner) : Steady s t where
  toQuiet := hq
  alive u hu := by rwa [hbranch]
  loc := hloc
  runningTask := hrun
  size h := by rwa [hsize, hall]
  owner := by rw [howner]

theorem Steady.modify {f : Branch τ → Branch τ} (hq : Quiet s (s.modify u f))
    (htop : (s.branch u).top ≠ .null → (f (s.branch u)).top ≠ .null) : Steady s (s.modify u f) where
  toQuiet := hq
  alive v hv := by
    by_cases hvu : v = u
    · subst hvu
      simpa [Wait.modify] using htop hv
    · simpa [Wait.modify, hvu] using hv
  loc := rfl
  runningTask := rfl
  size := id
  owner := .rfl

theorem Steady.resumeOwner (s : Wait τ) : Steady s s.resumeOwner := by
  have hq := Quiet.resumeOwner s
  unfold Wait.resumeOwner at hq ⊢
  split at hq
  · rename_i hsusp
    rw [if_pos hsusp]
    exact ⟨hq, fun _ => id, rfl, rfl, id, by simp [hsusp]⟩
  · rename_i hsusp
    rw [if_neg hsusp]
    exact .refl s

theorem Steady.schedule (s : Wait τ) (u : TaskId) (e : Error) : Steady s (s.schedule u e) := by
  unfold Wait.schedule
  dsimp only
  split
  · exact .refl s
  split
  · exact .refl s
  · rename_i hready hexited
    have hq : Quiet s (s.modify u fun x => { x with state := .ready, error := e }) :=
      .modify id fun h => absurd h.1 hexited
    have hnot : ¬ (s.modify u fun x => { x with state := .ready, error := e }).Settled u := by
      simp [Settled, Wait.modify]
    have hpush : Steady s
        ((s.modify u fun x => { x with state := .ready, error := e }).pushReady u) :=
      (Steady.modify hq id).trans (.of_eq (.pushReady hnot) rfl rfl rfl rfl rfl rfl)
    split
    · exact hpush.trans (.resumeOwner _)
    · exact hpush

theorem Steady.resume (s : Wait τ) (u : TaskId) (e : Error) : Steady s (s.resume u e) := by
  unfold Wait.resume
  split
  · exact .schedule s u e
  · exact .refl s

theorem Steady.push (s : Wait τ) (u : TaskId) : Steady s (s.push u).1 := by
  have hs : Steady s (s.modify u fun x => { x with taskQueue := true }) :=
    .modify (.modify id fun h => ⟨h.1, rfl, rfl⟩) id
  unfold Wait.push
  dsimp only
  split
  · exact hs
  · refine hs.trans ⟨.of_eq rfl rfl rfl rfl rfl, fun _ => id, rfl, rfl, fun h => ?_, .rfl⟩
    exact Nat.succ_le_succ h

theorem Steady.branchCreate (s : Wait τ) (u : TaskId) : Steady s (s.branchCreate u) := by
  have hs := Steady.push s u
  unfold Wait.branchCreate
  split
  · rename_i hpush
    rwa [hpush] at hs
  · rename_i hpush
    rw [hpush] at hs
    exact hs.trans (.schedule _ u {})

/-- The parent counts the removal for itself. -/
theorem pop_size (s : Wait τ) (u : TaskId) (parent : Bool) (h : s.tasksAll.length ≤ s.size) :
    (s.pop u parent).1.tasksAll.length ≤ (s.pop u parent).1.size := by
  unfold pop
  split
  · rename_i hu
    have hlen : (s.tasksAll.erase u).length = s.tasksAll.length - 1 := List.length_erase_of_mem hu
    change (s.tasksAll.erase u).length ≤ if parent then s.size else s.size - 1
    split <;> omega
  · exact h

theorem pop_frame (s : Wait τ) (u : TaskId) (parent : Bool) :
    (s.pop u parent).1.loc = s.loc ∧ (s.pop u parent).1.owner = s.owner ∧
      (s.pop u parent).1.runningTask = s.runningTask := by
  unfold pop
  split <;> exact ⟨rfl, rfl, rfl⟩

/-- Neither what `pop` nor what `cancel` does to a record makes its branch exit. -/
theorem Steady.pop (s : Wait τ) (u : TaskId) (parent : Bool) : Steady s (s.pop u parent).1 where
  toQuiet := .pop s u parent
  alive v hv := by
    have hs : Steady s (s.modify u fun x => { x with taskQueue := false }) :=
      .modify (.modify id fun h => ⟨h.1, rfl, rfl⟩) id
    unfold Wait.pop
    split
    · exact hs.alive v hv
    · exact hv
  loc := (pop_frame s u parent).1
  runningTask := (pop_frame s u parent).2.2
  size := pop_size s u parent
  owner := by rw [(pop_frame s u parent).2.1]

theorem Steady.cancelAt (s : Wait τ) (u : TaskId) (parent : Bool) :
    Steady s (s.cancelAt u parent) := by
  have hs : Steady s
      (s.modify u fun x => { x with top := if x.top = .frame then .task else x.top }) := by
    refine .modify (.modify (fun h => ?_) fun h => ⟨h.1, rfl, rfl⟩) fun h => ?_
    · simp [h]
    · split
      · nofun
      · exact h
  unfold Wait.cancelAt
  dsimp only
  split
  · rename_i hready
    refine hs.trans (.modify (.modify id fun h => ?_) id)
    rw [h.1] at hready
    cases hready
  · have hexit := Steady.modify
      (f := fun x : Branch τ => { x with state := .exited })
      (Quiet.modify (s := s.modify u fun x =>
        { x with top := if x.top = .frame then .task else x.top }) (u := u) id
        fun _ => ⟨rfl, rfl, rfl⟩) id
    exact (hs.trans hexit).trans (.pop _ u parent)

theorem Steady.foldl {f : Wait τ → TaskId → Wait τ} (hf : ∀ s u, Steady s (f s u))
    (l : List TaskId) (s : Wait τ) : Steady s (l.foldl f s) := by
  induction l generalizing s with
  | nil => exact .refl s
  | cons u l ih => exact (hf s u).trans (ih (f s u))

/-- `exit` cancels every branch, or stops because one is running. -/
theorem exit_cases (s : Wait τ) :
    Steady s s.exit ∨ s.exit = { s with loc := .aborted .exitFromRunningTask } := by
  unfold Wait.exit
  split
  · exact .inr rfl
  · let m := s.tasksAll.foldl (fun s u => s.cancelAt u false) s
    have hcancel : Steady s m := .foldl (fun s u => .cancelAt s u false) _ _
    have hdrain : Steady m { m with tasksReady := none } :=
      .of_eq (.of_eq rfl rfl rfl rfl rfl) rfl rfl rfl rfl rfl rfl
    exact .inl ((hcancel.trans hdrain).trans (.foldl (fun s u => .pop s u false) _ _))

theorem Inv.exit (h : s.Inv) : s.exit.Inv := by
  rcases exit_cases s with hs | heq
  · exact h.steady hs
  · rw [heq]
    refine ⟨h.toRecorded.quiet (.atLoc s _), ?_, h.size, ?_, h.drained⟩ <;> simp

theorem report_frame (ht : s.report = some t) :
    t.loc = s.loc ∧ t.runningTask = s.runningTask ∧ t.branch = s.branch ∧ t.size = s.size ∧
      t.tasksAll = s.tasksAll ∧ t.owner = s.owner := by
  obtain ⟨u, -, rfl⟩ := Option.map_eq_some_iff.mp ht
  exact ⟨rfl, rfl, rfl, rfl, rfl, rfl⟩

theorem forEach_frame (n : Nat) (s : Wait τ) :
    (s.forEach n).loc = s.loc ∧ (s.forEach n).size = s.size ∧
      (s.forEach n).tasksAll = s.tasksAll := by
  induction n generalizing s with
  | zero => exact ⟨rfl, rfl, rfl⟩
  | succ n ih =>
    unfold forEach
    split
    · exact ⟨rfl, rfl, rfl⟩
    · rename_i t hreport
      obtain ⟨hloc, -, -, hsize, hall, -⟩ := report_frame hreport
      obtain ⟨hloc', hsize', hall'⟩ := ih t
      exact ⟨hloc'.trans hloc, hsize'.trans hsize, hall'.trans hall⟩

/-! ### The run loop -/

/-- What the loop preserves until it is interrupted. -/
theorem Looping.inv (h : s.Looping)
    (hrun : s.loc = .body → ∀ u, s.runningTask = some u → (s.branch u).top ≠ .null) : s.Inv where
  toRecorded := h.toRecorded
  running := hrun
  size := h.size
  live _ := h.live
  drained hfin := absurd hfin h.live

/-- A branch is run only if it has something to run. -/
theorem Looping.startRun (h : s.Looping) (u : TaskId) : (s.startRun u).Inv := by
  have hrec := h.toRecorded.quiet (.startRun s u)
  unfold Wait.startRun at hrec ⊢
  dsimp only at hrec ⊢
  split at hrec
  · rename_i htop
    rw [if_pos htop]
    exact Looping.inv ⟨hrec, h.size, h.live⟩ (by simp)
  · rename_i htop
    rw [if_neg htop]
    refine Looping.inv ⟨hrec, h.size, h.live⟩ fun _ v hv => ?_
    obtain rfl : u = v := by simpa using hv
    exact htop

theorem Looping.suspend (h : s.Looping) : s.suspend.Inv := by
  have hrec : s.suspend.Recorded := h.toRecorded.quiet (.of_eq rfl rfl rfl rfl rfl)
  exact Looping.inv ⟨hrec, h.size, nofun⟩ (by simp [Wait.suspend])

theorem Looping.pause (h : s.Looping) (hmet : Met (exitsSince s.log) s.tasksAll s.condition) :
    s.pause.Inv :=
  Looping.inv ⟨h.toRecorded.pause hmet, h.size, nofun⟩ (by simp [Wait.pause, Wait.emit])

/-- What is not read by the loop invariant may change. -/
theorem Looping.of_eq (h : s.Looping) (hq : Quiet s t) (hsize : t.size = s.size)
    (hall : t.tasksAll = s.tasksAll) (howner : t.owner = s.owner) : t.Looping where
  toRecorded := h.toRecorded.quiet hq
  size := by rw [hsize, hall]; exact h.size
  live := by rw [howner]; exact h.live

theorem Looping.nextTask (h : s.Looping) : s.nextTask.Inv := by
  unfold Wait.nextTask
  split
  · exact h.suspend
  · rename_i u _
    have hq : Quiet s { s with tasksReady := s.next u } := .of_eq rfl rfl rfl rfl rfl
    exact (h.of_eq hq rfl rfl rfl).startRun u

theorem Looping.taskQueueRun (h : s.Looping) : s.taskQueueRun.Inv := by
  unfold Wait.taskQueueRun
  split
  · exact h.suspend
  · exact h.nextTask

theorem Looping.afterYield (h : s.Looping) (u : TaskId) : (s.afterYield u).Inv := by
  unfold Wait.afterYield
  split
  · exact h.startRun u
  · rename_i next _
    have hq : Quiet s { s with tasksReady := s.next next } := .of_eq rfl rfl rfl rfl rfl
    exact ((h.of_eq hq rfl rfl rfl).steady (.schedule _ u {})).startRun next

/-- After an exit: `run` returns if the condition of the awaiter is met. -/
theorem Looping.testCondition (h : s.Looping) (hu : s.entry u ∈ exitsSince s.log) :
    (s.testCondition u).Inv := by
  unfold Wait.testCondition
  split
  · rename_i hc
    refine h.pause ?_
    rw [hc.1]
    exact .inl ⟨_, hu, hc.2⟩
  split
  · rename_i hc
    refine h.pause ?_
    rw [hc]
    exact List.ne_nil_of_mem hu
  split
  · rename_i hzero
    have hsize := h.size
    have hnil : s.tasksAll = [] := List.eq_nil_of_length_eq_zero (by omega)
    refine h.pause ?_
    rw [hnil]
    cases s.condition with
    | allCompleted => rfl
    | firstCompleted => exact List.ne_nil_of_mem hu
    | firstException => exact .inr rfl
  · exact h.nextTask

theorem Looping.pop (h : s.Looping) (u : TaskId) : (s.pop u false).1.Looping where
  toRecorded := h.toRecorded.quiet (.pop s u false)
  size := pop_size s u false h.size
  live := by
    rw [(pop_frame s u false).2.1]
    exact h.live

/-- A branch is noted exactly if `on_task_exit` can pop it. -/
theorem Looping.onTaskExit (h : s.Looping) (hnew : ∀ x ∈ exits s.log, x.1 ≠ u)
    (hu : s.Settled u) : ((s.noteExit u).onTaskExit u).Inv := by
  have hq := Quiet.pop s u false
  have hpopped := h.pop u
  unfold noteExit
  split
  · rename_i hmem
    let t := (s.pop u false).1
    have hpop : (s.emit (.exited u (s.branch u).tag (s.branch u).error)).pop u false =
        (t.emit (.exited u (t.branch u).tag (t.branch u).error), .successful) := by
      simp [t, Wait.pop, hmem, emit, modify]
    have hrec : ((t.emit (.exited u (t.branch u).tag (t.branch u).error)).pushDone u).Recorded :=
      hpopped.toRecorded.complete (by rwa [hq.log]) (hq.settled u hu).1
    rw [Wait.onTaskExit, hpop]
    exact Looping.testCondition ⟨hrec, hpopped.size, hpopped.live⟩ List.mem_cons_self
  · rename_i hmem
    have hpop : s.pop u false = (s, .failed) := by simp [Wait.pop, hmem]
    rw [Wait.onTaskExit, hpop]
    exact (h.of_eq (.atLoc s (.aborted .notAttached)) rfl rfl rfl).inv (by simp)

theorem Looping.finished {st : ControlState} (h : s.Looping) (hu : (s.branch u).top ≠ .null)
    (raised : Option Error) : (s.finished u st raised).Inv := by
  have hrun : Quiet s { s with runningTask := none } := .of_eq rfl rfl rfl rfl rfl
  have hq : Quiet s ({ s with runningTask := none }.modify u fun x =>
      { x with
        state := st
        error := raised.getD x.error
        top := if st = ControlState.exited then .null else x.top }) := by
    refine hrun.trans (.modify (fun htop => absurd htop hu) fun hset => absurd hset.2 hu)
  have hmod := h.of_eq hq rfl rfl rfl
  have hnew : ∀ x ∈ exits s.log, x.1 ≠ u := by
    rintro x hx rfl
    exact hu (h.gone x hx)
  by_cases hst : st = .exited
  · have hset : Settled ({ s with runningTask := none }.modify u fun x =>
        { x with
          state := st
          error := raised.getD x.error
          top := if st = ControlState.exited then .null else x.top }) u := by
      simp [Settled, modify, hst]
    rw [Wait.finished, if_pos hst]
    exact hmod.onTaskExit hnew hset
  · rw [Wait.finished, if_neg hst]
    by_cases hyield : st = .yield
    · rw [if_pos hyield]
      exact (hmod.of_eq (.atLoc _ (.yieldPoll u)) rfl rfl rfl).inv (by simp)
    · rw [if_neg hyield]
      exact hmod.nextTask

/-! ### Runs -/

/-- The finalizer reports what is left. -/
theorem Inv.asyncFinalize (h : s.Inv) (hloc : s.loc = .outside) : s.asyncFinalize.Inv := by
  have hout : s.exit.loc ≠ .body ∧ ∀ u, s.exit.loc ≠ .yieldPoll u := by
    rcases exit_cases s with hs | heq
    · rw [hs.loc, hloc]
      simp
    · simp [heq]
  have hrec := Recorded.forEach s.exit.doneSize h.exit.toRecorded
  obtain ⟨hl, hs, ha⟩ := forEach_frame s.exit.doneSize s.exit
  refine ⟨hrec.quiet (.of_eq rfl rfl rfl rfl rfl), fun hbody => ?_, ?_, ?_, fun _ => ?_⟩
  · exact absurd (hl.symm.trans hbody) hout.1
  · change (s.exit.forEach s.exit.doneSize).tasksAll.length ≤ (s.exit.forEach s.exit.doneSize).size
    rw [hs, ha]
    exact h.exit.size
  · rintro (hbody | ⟨u, hyield⟩)
    · exact absurd (hl.symm.trans hbody) hout.1
    · exact absurd (hl.symm.trans hyield) (hout.2 u)
  · obtain ⟨D, hD⟩ := h.exit.done
    exact hD.forEach

theorem Inv.looping (h : s.Inv) (hloc : s.loc = .body ∨ ∃ u, s.loc = .yieldPoll u) : s.Looping :=
  ⟨h.toRecorded, h.size, h.live hloc⟩

theorem Inv.cancel (h : s.Inv) (u : TaskId) : (s.cancel u).Inv := by
  unfold Wait.cancel
  split
  · exact h
  split
  · exact h
  split
  · exact h.steady (.cancelAt s u true)
  · refine ⟨h.toRecorded.quiet (.atLoc s .crashed), ?_, h.size, ?_, h.drained⟩ <;> simp

theorem Inv.report (h : s.Inv) (ht : s.report = some t) : t.Inv := by
  obtain ⟨hloc, hrun, hbranch, hsize, hall, howner⟩ := report_frame ht
  refine ⟨h.toRecorded.report ht, ?_, ?_, ?_, fun hfin => ?_⟩
  · rw [hloc, hrun, hbranch]
    exact h.running
  · rw [hsize, hall]
    exact h.size
  · rw [hloc, howner]
    exact h.live
  · -- nothing is left to report after the finalizer
    have hnone := h.drained (howner ▸ hfin)
    simp [Wait.report, hnone] at ht

theorem Inv.asyncPoll (h : s.Inv) (hloc : s.loc = .outside) (hlive : s.owner ≠ .finalized)
    (reentry : Bool) : (s.asyncPoll reentry).Inv := by
  have hloop : s.Looping := ⟨h.toRecorded, h.size, hlive⟩
  unfold Wait.asyncPoll
  split
  · exact hloop.taskQueueRun
  split
  · have hq : Quiet s { s with paused := false } := .of_eq rfl rfl rfl rfl rfl
    exact (hloop.of_eq hq rfl rfl rfl).taskQueueRun
  · exact h.asyncFinalize hloc

/-- What the operation does, where it can happen. -/
def Steps (s t : Wait τ) : WaitOp → Prop
  | .branchCreate u => s.userCode ∧ t = s.branchCreate u
  | .resume u e => s.userCode ∧ t = s.resume u e
  | .cancel u => s.userCode ∧ t = s.cancel u
  | .setCondition c => s.userCode ∧ t = { s with condition := c }
  | .report => s.userCode ∧ s.report = some t
  | .await => (s.loc = .outside ∧ s.owner = .elsewhere) ∧ t = { s with started := true }.asyncPoll true
  | .resumeOwner => s.userCode ∧ t = s.resumeOwner
  | .run => (s.loc = .outside ∧ s.owner = .scheduled) ∧ t = s.asyncPoll true
  | .finished st raised => ∃ u, s.loc = .body ∧ s.runningTask = some u ∧ t = s.finished u st raised
  | .polled => ∃ u, s.loc = .yieldPoll u ∧ t = s.afterYield u
  | .awaiterDone => (s.loc = .outside ∧ s.owner = .elsewhere ∧ s.paused) ∧ t = s.asyncPoll false
  | .finalize => (s.loc = .outside ∧ s.owner ≠ .finalized ∧ s.started) ∧ t = s.asyncFinalize

/-- The one inversion of `step`; what it keeps is shown operation by operation. -/
theorem step_cases {a : WaitOp} (ht : s.step a = some t) : s.Steps t a := by
  cases a with
  | report => exact Option.ite_none_right_eq_some.mp ht
  | finished st raised =>
    simp only [Wait.step] at ht
    split at ht
    · rename_i u hloc hrun
      obtain ⟨-, ht⟩ := Option.ite_none_right_eq_some.mp ht
      exact ⟨u, hloc, hrun, (Option.some.inj ht).symm⟩
    · cases ht
  | polled =>
    simp only [Wait.step] at ht
    split at ht
    · rename_i u hloc
      exact ⟨u, hloc, (Option.some.inj ht).symm⟩
    · cases ht
  | branchCreate | resume | cancel | setCondition | await | resumeOwner | run | awaiterDone | finalize =>
    obtain ⟨hs, ht⟩ := Option.ite_none_right_eq_some.mp ht
    exact ⟨hs, (Option.some.inj ht).symm⟩

theorem Inv.step {a : WaitOp} (h : s.Inv) (ht : s.step a = some t) : t.Inv := by
  have hcases := step_cases ht
  cases a with
  | branchCreate u =>
    obtain ⟨-, rfl⟩ := hcases
    exact h.steady (.branchCreate s u)
  | resume u e =>
    obtain ⟨-, rfl⟩ := hcases
    exact h.steady (.resume s u e)
  | cancel u =>
    obtain ⟨-, rfl⟩ := hcases
    exact h.cancel u
  | setCondition c =>
    obtain ⟨-, rfl⟩ := hcases
    exact h.steady (.of_eq (.of_eq rfl rfl rfl rfl rfl) rfl rfl rfl rfl rfl rfl)
  | report => exact h.report hcases.2
  | await =>
    obtain ⟨⟨hloc, howner⟩, rfl⟩ := hcases
    have hs : Steady s { s with started := true } :=
      .of_eq (.of_eq rfl rfl rfl rfl rfl) rfl rfl rfl rfl rfl rfl
    exact (h.steady hs).asyncPoll hloc (by simp [howner]) true
  | resumeOwner =>
    obtain ⟨-, rfl⟩ := hcases
    exact h.steady (.resumeOwner s)
  | run =>
    obtain ⟨⟨hloc, howner⟩, rfl⟩ := hcases
    exact h.asyncPoll hloc (by simp [howner]) true
  | finished st raised =>
    obtain ⟨u, hloc, hrun, rfl⟩ := hcases
    exact (h.looping (.inl hloc)).finished (h.running hloc u hrun) raised
  | polled =>
    obtain ⟨u, hloc, rfl⟩ := hcases
    exact (h.looping (.inr ⟨u, hloc⟩)).afterYield u
  | awaiterDone =>
    obtain ⟨⟨hloc, howner, -⟩, rfl⟩ := hcases
    exact h.asyncPoll hloc (by simp [howner]) false
  | finalize =>
    obtain ⟨⟨hloc, -⟩, rfl⟩ := hcases
    exact h.asyncFinalize hloc

/-- Whatever the condition, the branches and the order of events, a `Wait` reports every exit once,
    and returns only when its condition is met. -/
theorem wait_reports (c : WaitCondition) (tag : TaskId → τ) (as : List WaitOp) :
    Runs.Always Wait.step Reported (init c tag) as := by
  refine Runs.always_of_meets (C := fun _ _ => True) (I := Inv) (fun _ _ _ h _ ht => h.step ht)
    (fun _ h => h.reported) as (init c tag) (init_inv c tag) (Runs.meets_true as _)

end Wait

end Jinx.Sched
