import Jinx.Sched.Queues

/-! `TaskQueue::spawn` and what is left of one that fails.

    `spawn` takes a reference, stores the queue in the task, links the task and schedules it, in this
    order. The linking and the scheduling can fail, and nothing that came before is taken back. The
    queues are those of `Queues`; beside them there is the reference count of every task. -/

namespace Jinx.Sched

/-- The queues, and `_refc` of every task. -/
structure Handles where
  queues : Queues := {}
  refc : TaskId → Int := fun _ => 1

namespace Handles

variable {s s' : Handles} {q : QueueId} {t : TaskId} {r : ResultGeneric}

/-- `PointerShared::ref`; `none` is `error::fatal`. -/
def ref (s : Handles) (t : TaskId) : Option Handles :=
  if s.refc t ≤ 0 then none else some { s with refc := Function.update s.refc t (s.refc t + 1) }

/-- `TaskQueue::push`. -/
def push (s : Handles) (q : QueueId) (t : TaskId) : Option (Handles × ResultGeneric) :=
  (s.ref t).bind fun s => (s.queues.push q t).map fun x => ({ s with queues := x.1 }, x.2)

/-- `TaskQueue::schedule`. -/
def scheduleTask (s : Handles) (q : QueueId) (t : TaskId) : Handles × ResultGeneric :=
  let x := s.queues.scheduleTask q t
  ({ s with queues := x.1 }, x.2)

/-- The virtual `schedule`. The one of `Loop` wakes the event engine; the one of `Wait` resumes the task
    that awaits, by the `schedule` of its queue, and answers what that does. `none` is a chain of `Wait`s
    that is longer than `fuel`. -/
def schedule : Nat → Handles → QueueId → TaskId → Option (Handles × ResultGeneric)
  | 0, _, _, _ => none
  | fuel + 1, s, q, t =>
    match s.scheduleTask q t with
    | (s, .failed) => some (s, .failed)
    | (s, .successful) =>
      match q with
      | .loop => some (s, .successful)
      | .wait w =>
        match s.queues.owner w with
        | none => some (s, .failed)
        | some o =>
          match (s.queues.member o).taskQueue with
          | none => some (s, .failed)
          | some q => schedule fuel s q o

/-- `TaskQueue::spawn`. -/
def spawn (fuel : Nat) (s : Handles) (q : QueueId) (t : TaskId) : Option (Handles × ResultGeneric) :=
  match s.push q t with
  | none => none
  | some (s, .failed) => some (s, .failed)
  | some (s, .successful) => s.schedule fuel q t

/-- `is_inserted` of the task's node. -/
def IsInserted (s : Handles) (t : TaskId) : Prop :=
  s.queues.nodes.prev t ≠ .null ∨ s.queues.nodes.next t ≠ .null

instance : Decidable (s.IsInserted t) := inferInstanceAs (Decidable (_ ∨ _))

/-- `_tasks_all` and `_tasks_ready` of every queue, and what the task knows, are as they were. -/
structure Unchanged (s s' : Handles) (t : TaskId) : Prop where
  tasksAll : s'.queues.nodes = s.queues.nodes
  tasksReady : s'.queues.tasksReady = s.queues.tasksReady
  refc : s'.refc t = s.refc t
  state : (s'.queues.member t).state = (s.queues.member t).state
  taskQueue : (s'.queues.member t).taskQueue = (s.queues.member t).taskQueue

/-- The reference is taken and the pointer set whatever comes of it. -/
theorem push_spec (h : s.push q t = some (s', r)) :
    (r = .failed ↔ s.IsInserted t) ∧ s'.refc t = s.refc t + 1 ∧
      s'.queues.owner = s.queues.owner ∧ s'.queues.member = Function.update s.queues.member t
        { s.queues.member t with taskQueue := some q } := by
  obtain ⟨s₁, hs₁, h⟩ := Option.bind_eq_some_iff.mp h
  obtain ⟨⟨n, r'⟩, hn, h⟩ := Option.map_eq_some_iff.mp h
  obtain ⟨rfl, rfl⟩ := Prod.mk.inj h
  simp only [ref, Option.ite_none_left_eq_some, Option.some.injEq] at hs₁
  obtain ⟨-, rfl⟩ := hs₁
  obtain ⟨⟨m, r''⟩, hm, h⟩ := Option.map_eq_some_iff.mp hn
  obtain ⟨rfl, rfl⟩ := Prod.mk.inj h
  exact ⟨(Nodes.pushFront_failed_iff hm).trans or_comm, by simp, rfl, rfl⟩

/-- The state allows to schedule the task. -/
def Free (s : Handles) (t : TaskId) : Prop :=
  (s.queues.member t).state ≠ .ready ∧ (s.queues.member t).state ≠ .exited

instance : Decidable (s.Free t) := inferInstanceAs (Decidable (_ ∧ _))

/-- When the tasks `seen` are ready, all who wait for the queue can be resumed, up to the `Loop`. -/
inductive Resumes (s : Handles) : List TaskId → QueueId → Prop
  | loop (seen : List TaskId) : Resumes s seen .loop
  | wait {seen : List TaskId} {w : WaitId} {o : TaskId} {q : QueueId}
      (owner : s.queues.owner w = some o) (attached : (s.queues.member o).taskQueue = some q)
      (fresh : o ∉ seen) (free : s.Free o) (rest : Resumes s (o :: seen) q) :
      Resumes s seen (.wait w)

theorem resumes_wait_iff {seen : List TaskId} {w : WaitId} {o : TaskId}
    (howner : s.queues.owner w = some o) : Resumes s seen (.wait w) ↔
      o ∉ seen ∧ ∃ q, (s.queues.member o).taskQueue = some q ∧ s.Free o ∧ Resumes s (o :: seen) q := by
  constructor
  · intro h
    cases h with
    | wait howner' attached fresh free rest =>
      obtain rfl := Option.some.inj (howner.symm.trans howner')
      exact ⟨fresh, _, attached, free, rest⟩
  · rintro ⟨fresh, q, attached, free, rest⟩
    exact .wait howner attached fresh free rest

/-- Only what is not ready yet is looked at. -/
theorem Resumes.congr {seen : List TaskId} (h : Resumes s seen q)
    (hmember : ∀ u, u ∉ seen → s'.queues.member u = s.queues.member u)
    (howner : s'.queues.owner = s.queues.owner) : Resumes s' seen q := by
  induction h with
  | loop seen => exact .loop seen
  | wait owner attached fresh free _ ih =>
    refine .wait (by rw [howner, owner]) (by rw [hmember _ fresh, attached]) fresh
      (by simpa [Free, hmember _ fresh] using free) (ih fun u hu => hmember u ?_)
    simp only [List.mem_cons, not_or] at hu
    exact hu.2

/-- A chain of calls of `schedule` from `s` has reached `s'`: it has made the tasks `seen` ready. -/
structure Scheduling (s s' : Handles) (seen : List TaskId) : Prop where
  ready : ∀ u ∈ seen, (s'.queues.member u).state = .ready
  others : ∀ u, u ∉ seen → s'.queues.member u = s.queues.member u
  owner : s'.queues.owner = s.queues.owner
  refc : s'.refc = s.refc

theorem scheduleTask_of_free (h : s.Free t) :
    s.scheduleTask q t = ({ s with queues := { s.queues with
      member := Function.update s.queues.member t { s.queues.member t with state := .ready }
      tasksReady := Function.update s.queues.tasksReady q (t :: s.queues.tasksReady q) } },
      .successful) := by
  simp [scheduleTask, Queues.scheduleTask, h.1, h.2, Queues.modify]

theorem scheduleTask_of_not_free (h : ¬ s.Free t) : s.scheduleTask q t = (s, .failed) := by
  simp only [scheduleTask, Queues.scheduleTask]
  split
  · rfl
  split
  · rfl
  · exact absurd ⟨‹_›, ‹_›⟩ h

/-- One more task is ready. -/
theorem Scheduling.next {seen : List TaskId} (h : Scheduling s s' seen) {q : QueueId} (o : TaskId)
    (hfree : s'.Free o) : Scheduling s (s'.scheduleTask q o).1 (o :: seen) := by
  rw [scheduleTask_of_free hfree]
  refine ⟨fun u hu => ?_, fun u hu => ?_, h.owner, h.refc⟩
  · by_cases huo : u = o
    · subst huo
      simp
    · have hseen : u ∈ seen := by simpa [huo] using hu
      simpa [huo] using h.ready u hseen
  · simp only [List.mem_cons, not_or] at hu
    simpa [hu.1] using h.others u hu.2

/-- A chain of calls of `schedule` is successful exactly where everyone in it can be resumed. -/
theorem Scheduling.schedule {fuel : Nat} {seen : List TaskId} {o : TaskId} {u : Handles}
    (h : Scheduling s s' seen) (hrun : Handles.schedule fuel s' q o = some (u, r)) :
    u.refc = s.refc ∧ (r = .successful ↔ o ∉ seen ∧ s.Free o ∧ Resumes s (o :: seen) q) := by
  induction fuel generalizing s' seen q o with
  | zero => cases hrun
  | succ fuel ih =>
    by_cases hfree : s'.Free o
    · have hnext := h.next (q := q) o hfree
      have hseen : o ∉ seen := fun hmem => hfree.1 (h.ready o hmem)
      have hs : s.Free o := by simpa [Free, h.others o hseen] using hfree
      have hstep : s'.scheduleTask q o = ((s'.scheduleTask q o).1, .successful) := by
        rw [scheduleTask_of_free hfree]
      rw [Handles.schedule, hstep] at hrun
      simp only [hseen, hs, not_false_eq_true, true_and]
      cases q with
      | loop =>
        obtain ⟨rfl, rfl⟩ : (s'.scheduleTask .loop o).1 = u ∧ ResultGeneric.successful = r := by
          simpa using hrun
        exact ⟨hnext.refc, iff_of_true rfl (.loop _)⟩
      | wait w =>
        simp only [hnext.owner] at hrun
        cases howner : s.queues.owner w with
        | none =>
          obtain ⟨rfl, rfl⟩ : (s'.scheduleTask (.wait w) o).1 = u ∧ ResultGeneric.failed = r := by
            simpa [howner] using hrun
          refine ⟨hnext.refc, iff_of_false (by simp) fun hres => ?_⟩
          cases hres with
          | wait howner' => simp [howner] at howner'
        | some o' =>
          simp only [howner] at hrun
          rw [resumes_wait_iff howner]
          cases htq : ((s'.scheduleTask (.wait w) o).1.queues.member o').taskQueue with
          | none =>
            obtain ⟨rfl, rfl⟩ : (s'.scheduleTask (.wait w) o).1 = u ∧ ResultGeneric.failed = r := by
              simpa [htq] using hrun
            refine ⟨hnext.refc, iff_of_false (by simp) ?_⟩
            rintro ⟨hfresh, q', hq', -⟩
            rw [hnext.others o' hfresh, hq'] at htq
            cases htq
          | some q' =>
            simp only [htq] at hrun
            obtain ⟨hrefc, hiff⟩ := ih hnext hrun
            refine ⟨hrefc, hiff.trans (and_congr_right fun hfresh => ?_)⟩
            rw [hnext.others o' hfresh] at htq
            simp [htq]
    · rw [Handles.schedule, scheduleTask_of_not_free hfree] at hrun
      obtain ⟨rfl, rfl⟩ : s' = u ∧ ResultGeneric.failed = r := by simpa using hrun
      refine ⟨h.refc, iff_of_false (by simp) ?_⟩
      rintro ⟨hseen, hs, -⟩
      exact hfree (by simpa [Free, h.others o hseen] using hs)

/-- What a `spawn` that comes to an end has done: the reference is taken, and it is successful exactly
    where the task was in no list and could be scheduled. -/
theorem spawn_spec {fuel : Nat} (h : s.spawn fuel q t = some (s', r)) :
    s'.refc t = s.refc t + 1 ∧
      (r = .successful ↔ ¬ s.IsInserted t ∧ s.Free t ∧ Resumes s [t] q) := by
  unfold spawn at h
  cases hpush : s.push q t with
  | none => simp [hpush] at h
  | some x =>
    obtain ⟨s₁, r₁⟩ := x
    obtain ⟨hfailed, hrefc, howner, hmember⟩ := push_spec hpush
    cases r₁ with
    | failed =>
      obtain ⟨rfl, rfl⟩ : s₁ = s' ∧ ResultGeneric.failed = r := by simpa [hpush] using h
      exact ⟨hrefc, iff_of_false (by simp) fun hfree => hfree.1 (hfailed.mp rfl)⟩
    | successful =>
      simp only [hpush] at h
      have hinserted : ¬ s.IsInserted t := fun hins => by simpa using hfailed.mpr hins
      have hothers : ∀ u, u ∉ [t] → s₁.queues.member u = s.queues.member u := by
        intro u hu
        rw [hmember, Function.update_of_ne (by simpa using hu)]
      have hstart : Scheduling s₁ s₁ [] := ⟨by simp, fun _ _ => rfl, rfl, rfl⟩
      obtain ⟨hkeep, hiff⟩ := hstart.schedule h
      refine ⟨by rw [hkeep, hrefc], hiff.trans ?_⟩
      have hfree : s₁.Free t ↔ s.Free t := by simp [Free, hmember]
      have hresumes : Resumes s₁ [t] q ↔ Resumes s [t] q :=
        ⟨fun hr => hr.congr (fun u hu => (hothers u hu).symm) howner.symm,
          fun hr => hr.congr hothers howner⟩
      simp [hinserted, hfree, hresumes]

/-- A `spawn` that fails has changed something: it leaves everything as it was exactly where it does not
    fail. -/
theorem spawn_atomic_iff (fuel : Nat) (h : s.spawn fuel q t = some (s', r)) :
    (r = .failed → Unchanged s s' t) ↔ ¬ s.IsInserted t ∧ s.Free t ∧ Resumes s [t] q := by
  obtain ⟨hrefc, hiff⟩ := spawn_spec h
  rw [← hiff]
  constructor
  · intro hkeep
    cases r with
    | successful => rfl
    | failed =>
      have hsame := (hkeep rfl).refc
      omega
  · rintro rfl hfailed
    cases hfailed

/-- A new task in the `Loop`. -/
theorem spawn_atomic_new : ∃ s', spawn 1 {} .loop 0 = some (s', .successful) ∧
    (ResultGeneric.successful = .failed → Unchanged {} s' 0) :=
  ⟨_, rfl, (spawn_atomic_iff (s := {}) (q := .loop) (t := 0) 1 rfl).mpr
    ⟨by decide, by decide, .loop [0]⟩⟩

/-- A task that is spawned a second time, and one that has exited: both calls fail. The first leaves a
    reference too many, the second one also leaves the task in the list. -/
theorem failed_spawn_changes :
    let exited : Handles := { queues := { member := fun _ => { state := .exited } } }
    ((spawn 1 {} .loop 0).map fun x => (x.2, x.1.refc 0)) = some (.successful, 2) ∧
    (((spawn 1 {} .loop 0).bind fun x => spawn 1 x.1 .loop 0).map fun x => (x.2, x.1.refc 0)) =
      some (.failed, 3) ∧
    ((spawn 1 exited .loop 0).map fun x =>
      (x.2, x.1.refc 0, (x.1.queues.member 0).taskQueue, x.1.queues.nodes.size .loop)) =
      some (.failed, 2, some .loop, 1) :=
  ⟨rfl, rfl, rfl⟩

end Handles

end Jinx.Sched
