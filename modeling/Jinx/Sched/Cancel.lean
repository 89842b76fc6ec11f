import Jinx.Sched.ReadyList

/-! What `cancel` and `exit` do to the frames of a task, and what the run loop does to that task
    afterwards.

    A frame that was pushed and is no longer on the stack of its task is dead. `Grows` is what any
    piece of the scheduler does between two states: the log only grows, it never mentions a dead
    frame again, and the log stays in agreement with the stacks and with `_tasks_all`. A cancelled
    task that has not left `_tasks_all` yet is `Pending`: its stack is empty and its state word says
    `Ready`, so the ready list still holds it.

    The run loop keeps a pointer to the task that yielded while it polls. If that task is cancelled
    there and nothing else is ready, the loop runs it although it is gone; `Undisturbed` excludes
    exactly this poll, and the labels that already disturb the ready list. -/

namespace Jinx.Sched

/-- The frame whose code runs when the event is logged. -/
def Event.frame : Event → Option (TaskId × Frame)
  | .callback t f _ => some (t, f)
  | .finalized t f => some (t, f)
  | .pushed _ => none
  | .popped _ => none

/-- The event is about a frame of `u`. -/
def Event.isFrameOf (u : TaskId) (e : Event) : Bool := e.frame.any fun p => p.1 = u

namespace Loop

variable {s t m : Loop} {u v : TaskId} {f : Frame}

/-- The frame was pushed and has left the stack. -/
def Dead (s : Loop) (u : TaskId) (f : Frame) : Prop :=
  f < (s.task u).nextFrame ∧ f ∉ (s.task u).stack

/-- The log agrees with the stacks and with `_tasks_all`. -/
structure Ledger (s : Loop) : Prop where
  nodup : ∀ u, (s.task u).stack.Nodup
  lt : ∀ u, ∀ f ∈ (s.task u).stack, f < (s.task u).nextFrame
  dead : ∀ u f, Event.finalized u f ∈ s.log → s.Dead u f
  balance : ∀ u, s.log.count (.popped u) + s.tasksAll.count u = s.log.count (.pushed u)

/-- The task was cancelled while it was ready and has not been popped yet. -/
def Pending (s : Loop) (u : TaskId) : Prop :=
  u ∈ s.tasksAll ∧ (s.task u).stack = [] ∧ (s.task u).state = .ready

/-- What happens between two states of the scheduler, as far as frames and the log go. -/
structure Grows (s t : Loop) : Prop where
  log : ∃ l, t.log = s.log ++ l ∧ ∀ u f, s.Dead u f → ∀ e ∈ l, e.frame ≠ some (u, f)
  dead : ∀ u f, s.Dead u f → t.Dead u f
  ledger : s.Ledger → t.Ledger
  pending : ∀ u, s.Pending u → t.Pending u ∨ s.log.count (.popped u) < t.log.count (.popped u)

namespace Grows

theorem refl (s : Loop) : Grows s s :=
  ⟨⟨[], by simp⟩, fun _ _ h => h, id, fun _ h => .inl h⟩

theorem count_le (h : Grows s t) (e : Event) : s.log.count e ≤ t.log.count e := by
  obtain ⟨l, hl, -⟩ := h.log
  rw [hl, List.count_append]; omega

theorem trans (h₁ : Grows s m) (h₂ : Grows m t) : Grows s t := by
  refine ⟨?_, fun u f h => h₂.dead u f (h₁.dead u f h), fun h => h₂.ledger (h₁.ledger h), ?_⟩
  · obtain ⟨l₁, hl₁, hd₁⟩ := h₁.log
    obtain ⟨l₂, hl₂, hd₂⟩ := h₂.log
    refine ⟨l₁ ++ l₂, by rw [hl₂, hl₁, List.append_assoc], fun u f hd e he => ?_⟩
    rcases List.mem_append.mp he with he | he
    · exact hd₁ u f hd e he
    · exact hd₂ u f (h₁.dead u f hd) e he
  · intro u hu
    rcases h₁.pending u hu with hm | hm
    · have hle := h₁.count_le (.popped u)
      rcases h₂.pending u hm with ht | ht
      · exact .inl ht
      · exact .inr (by omega)
    · have hle := h₂.count_le (.popped u)
      exact .inr (by omega)

/-- Only the records, `_tasks_all` and the log matter. -/
theorem frame {t' : Loop} (h : Grows s t) (htask : t'.task = t.task)
    (hall : t'.tasksAll = t.tasksAll) (hlog : t'.log = t.log) : Grows s t' := by
  have hdead : ∀ u f, t'.Dead u f ↔ t.Dead u f := fun u f => by simp [Dead, htask]
  refine ⟨by rw [hlog]; exact h.log, fun u f hd => (hdead u f).mpr (h.dead u f hd), ?_, ?_⟩
  · intro hs
    have hl := h.ledger hs
    refine ⟨by rw [htask]; exact hl.nodup, by rw [htask]; exact hl.lt, ?_, ?_⟩
    · rw [hlog]; exact fun u f he => (hdead u f).mpr (hl.dead u f he)
    · rw [hlog, hall]; exact hl.balance
  · intro u hu
    simpa [Pending, htask, hall, hlog] using h.pending u hu

/-- A record is written, its stack left alone; the state word of a pending task may only change
    when the task has been popped. -/
theorem modify {g : Task → Task} (h : Grows s t) (u : TaskId)
    (hstack : (g (t.task u)).stack = (t.task u).stack)
    (hnext : (g (t.task u)).nextFrame = (t.task u).nextFrame)
    (hstate : s.log.count (.popped u) = t.log.count (.popped u) → t.Pending u →
      (g (t.task u)).state = .ready) : Grows s (t.modify u g) := by
  have hst : ∀ v, ((t.modify u g).task v).stack = (t.task v).stack := fun v => by
    rcases eq_or_ne v u with rfl | hv <;> simp_all
  have hnx : ∀ v, ((t.modify u g).task v).nextFrame = (t.task v).nextFrame := fun v => by
    rcases eq_or_ne v u with rfl | hv <;> simp_all
  have hdead : ∀ v f, (t.modify u g).Dead v f ↔ t.Dead v f := fun v f => by
    simp only [Dead, hst, hnx]
  refine ⟨h.log, fun v f hd => (hdead v f).mpr (h.dead v f hd), fun hs => ?_, fun v hv => ?_⟩
  · have hl := h.ledger hs
    refine ⟨fun v => ?_, fun v f hf => ?_, fun v f he => (hdead v f).mpr (hl.dead v f he),
      hl.balance⟩
    · rw [hst]; exact hl.nodup v
    · rw [hnx]; exact hl.lt v f (by rwa [hst] at hf)
  · rcases h.pending v hv with hp | hc
    · rcases Nat.lt_or_eq_of_le (h.count_le (.popped v)) with hlt | heq
      · exact .inr hlt
      · refine .inl ⟨hp.1, (hst v).trans hp.2.1, ?_⟩
        rcases eq_or_ne v u with rfl | hne
        · simpa using hstate heq hp
        · simpa [hne] using hp.2.2
    · exact .inr hc

theorem schedule (s : Loop) (u : TaskId) (e : Error) : Grows s (s.schedule u e).1 := by
  rcases s.schedule_cases u e with ⟨-, heq⟩ | ⟨-, -, heq⟩
  · rw [heq]; exact refl s
  · rw [heq]
    exact (modify (g := fun x => { x with state := .ready, error := e }) (refl s) u rfl rfl
      fun _ _ => rfl).frame rfl rfl rfl

theorem resume (s : Loop) (u : TaskId) (e : Error) : Grows s (s.resume u e).1 := by
  unfold Loop.resume
  split
  · exact schedule s u e
  · exact refl s

/-- `_tasks_all` and the log change together. -/
theorem member (s : Loop) {all : List TaskId} {e : Event} (hframe : e.frame = none)
    (hbal : ∀ v, [e].count (.popped v) + all.count v =
      s.tasksAll.count v + [e].count (.pushed v))
    (hpend : ∀ v, s.Pending v → v ∈ all ∨ e = .popped v) :
    Grows s { s with tasksAll := all, log := s.log ++ [e] } := by
  refine ⟨⟨[e], rfl, by simp [hframe]⟩, fun v f h => h, fun h => ?_, fun v hv => ?_⟩
  · refine ⟨h.nodup, h.lt, fun v f he => h.dead v f ?_, fun v => ?_⟩
    · rcases List.mem_append.mp he with he | he
      · exact he
      · obtain rfl : Event.finalized v f = e := by simpa using he
        simp [Event.frame] at hframe
    · have h₁ := h.balance v
      have h₂ := hbal v
      simp only [List.count_append]
      omega
  · rcases hpend v hv with hv' | rfl
    · exact .inl ⟨hv', hv.2⟩
    · exact .inr (by simp)

theorem push (s : Loop) (u : TaskId) : Grows s (s.push u).1 := by
  have hm : Grows s (s.modify u fun x => { x with taskQueue := true }) :=
    modify (refl s) u rfl rfl fun _ h => h.2.2
  unfold Loop.push
  simp only
  split
  · exact hm
  · refine hm.trans (member _ rfl (fun v => ?_) fun v hv => .inl (List.mem_cons_of_mem _ hv.1))
    rcases eq_or_ne u v with rfl | hv <;> simp [*]

theorem spawn (s : Loop) (u : TaskId) : Grows s (s.spawn u).1 := by
  have hp := push s u
  unfold Loop.spawn
  split
  · next s' heq => rwa [heq] at hp
  · next s' heq => rw [heq] at hp; exact hp.trans (schedule s' u {})

/-- A record is written and its task popped: whatever was written, a pending task leaves here. -/
theorem leave {g : Task → Task} (s : Loop) (u : TaskId)
    (hstack : ∀ x, (g x).stack = x.stack) (hnext : ∀ x, (g x).nextFrame = x.nextFrame) :
    Grows s ((s.modify u g).pop u).1 := by
  by_cases hu : u ∈ s.tasksAll
  · have hpop : Grows s { s with tasksAll := s.tasksAll.erase u, log := s.log ++ [.popped u] } := by
      refine member s rfl (fun v => ?_) fun v hv => ?_
      · rcases eq_or_ne u v with rfl | hv
        · have := List.count_pos_iff.mpr hu
          simp only [List.count_cons_self, List.count_nil, List.count_erase_self]
          simp; omega
        · simp [List.count_erase_of_ne hv.symm, hv]
      · rcases eq_or_ne u v with rfl | hne
        · exact .inr rfl
        · exact .inl ((List.mem_erase_of_ne hne.symm).mpr hv.1)
    rw [pop_attached (by simpa using hu)]
    have hg := hpop.modify (g := g) u (hstack _) (hnext _) fun h => by simp at h
    exact (hg.modify (g := fun x => { x with taskQueue := false }) u rfl rfl
      fun h => by simp at h).frame rfl rfl rfl
  · rw [pop_detached (by simpa using hu)]
    exact (refl s).modify u (hstack _) (hnext _) fun _ hp => absurd hp.1 hu

theorem pop (s : Loop) (u : TaskId) : Grows s (s.pop u).1 := by
  have h := leave (g := id) s u (fun _ => rfl) fun _ => rfl
  have hid : s.modify u id = s := by
    simp only [Loop.modify, id, ite_self]
  rwa [hid] at h

/-- The stack is unwound: its frames are finalized from the top down and are dead afterwards. -/
theorem unwind (s : Loop) (u : TaskId) : Grows s (s.unwind u) := by
  have hdead : ∀ v f, (s.unwind u).Dead v f ↔
      f < (s.task v).nextFrame ∧ (v = u ∨ f ∉ (s.task v).stack) := fun v f => by
    rcases eq_or_ne v u with rfl | hv <;> simp [Dead, unwind_task, *]
  refine ⟨⟨(s.task u).stack.map (.finalized u), rfl, ?_⟩, ?_, fun h => ?_, fun v hv => .inl ?_⟩
  · rintro v f hd e he hef
    obtain ⟨g, hg, rfl⟩ := List.mem_map.mp he
    obtain ⟨rfl, rfl⟩ : u = v ∧ g = f := by simpa [Event.frame] using hef
    exact hd.2 hg
  · exact fun v f hd => (hdead v f).mpr ⟨hd.1, .inr hd.2⟩
  · refine ⟨fun v => ?_, fun v f hf => ?_, fun v f he => (hdead v f).mpr ?_, fun v => ?_⟩
    · rcases eq_or_ne v u with rfl | hv
      · simp
      · rw [unwind_stack_ne s hv]; exact h.nodup v
    · rcases eq_or_ne v u with rfl | hv
      · simp at hf
      · rw [unwind_stack_ne s hv] at hf
        simpa [unwind_task, hv] using h.lt v f hf
    · rcases List.mem_append.mp he with he | he
      · exact ⟨(h.dead v f he).1, .inr (h.dead v f he).2⟩
      · obtain ⟨g, hg, hgf⟩ := List.mem_map.mp he
        obtain ⟨rfl, rfl⟩ : u = v ∧ g = f := by simpa using hgf
        exact ⟨h.lt u g hg, .inl rfl⟩
    · have hc : ∀ e, (∀ f, e ≠ Event.finalized u f) →
          ((s.task u).stack.map (Event.finalized u)).count e = 0 := fun e he =>
        List.count_eq_zero.mpr fun hm => by
          obtain ⟨f, -, rfl⟩ := List.mem_map.mp hm
          exact he f rfl
      have := h.balance v
      simpa [Loop.unwind, List.count_append, hc] using this
  · rcases eq_or_ne v u with rfl | hne
    · exact ⟨hv.1, by simp, by simpa using hv.2.2⟩
    · exact ⟨hv.1, by rw [unwind_stack_ne s hne]; exact hv.2.1, by simpa using hv.2.2⟩

theorem cancel (s : Loop) (u : TaskId) : Grows s (s.cancel u).1 := by
  by_cases hrun : s.runningTask = some u
  · rw [cancel_running hrun]; exact refl s
  · rcases cancel_cases s hrun with ⟨hr, heq⟩ | ⟨-, heq⟩
    · rw [heq]
      exact (unwind s u).modify (g := fun x => { x with error := {} }) u rfl rfl
        fun _ hp => hp.2.2
    · rw [heq]
      exact (unwind s u).trans (leave _ u (fun _ => rfl) fun _ => rfl)

theorem exit (s : Loop) : Grows s s.exit := by
  rcases hrun : s.runningTask with _ | r
  · have hcancel : Grows s (s.cancelAll s.tasksAll) :=
      Runs.foldl_invariant (I := Grows s) (fun m u h => h.trans (cancel m u)) _ s (refl s)
    rw [exit_eq hrun]
    exact Runs.foldl_invariant (I := Grows s) (fun m u h => h.trans (pop m u)) _ _
      (hcancel.frame rfl rfl rfl)
  · rw [exit_running (by simp [hrun])]
    exact (refl s).frame rfl rfl rfl

theorem nextTask (s : Loop) : Grows s s.nextTask := by
  unfold Loop.nextTask
  split <;> exact (refl s).frame rfl rfl rfl

theorem loopHead (s : Loop) : Grows s s.loopHead := by
  unfold Loop.loopHead
  split
  · exact (refl s).frame rfl rfl rfl
  · exact nextTask s

/-- `onTaskExit` pops first, so what was written before may be anything. -/
theorem onTaskExit {g : Task → Task} (s : Loop) (u : TaskId)
    (hstack : ∀ x, (g x).stack = x.stack) (hnext : ∀ x, (g x).nextFrame = x.nextFrame) :
    Grows s ((s.modify u g).onTaskExit u) := by
  have hl := leave s u hstack hnext
  unfold Loop.onTaskExit
  split
  · next t heq => rw [heq] at hl; exact hl.frame rfl rfl rfl
  · next t heq =>
    rw [heq] at hl
    split
    · have ho : Grows s { t with loc := .outside } := hl.frame rfl rfl rfl
      simp only
      split
      · exact ho.trans (exit _)
      · exact ho
    · exact hl.trans (nextTask t)

theorem finished (s : Loop) (u : TaskId) (st : ControlState) (e : Option Error)
    (hst : st = .exited ↔ (s.task u).stack = []) : Grows s (s.finished u st e) := by
  have hs : Grows s { s with runningTask := none } := (refl s).frame rfl rfl rfl
  unfold Loop.finished
  simp only
  split
  · exact hs.trans (onTaskExit _ u (fun _ => rfl) fun _ => rfl)
  · next hne =>
    have hm := hs.modify (g := fun x => { x with state := st, error := e.getD x.error }) u rfl rfl
      fun _ hp => absurd (hst.mpr hp.2.1) hne
    split
    · exact hm.frame rfl rfl rfl
    · exact hm.trans (nextTask _)

theorem afterYield (s : Loop) (u : TaskId) : Grows s (s.afterYield u) := by
  unfold Loop.afterYield
  split
  · exact (refl s).frame rfl rfl rfl
  · next next rest _ =>
    have hs : Grows s { s with tasksReady := rest } := (refl s).frame rfl rfl rfl
    exact (hs.trans (schedule _ u {})).frame rfl rfl rfl

/-- The running task changes its own stack. No frame that is dead comes back: a pushed frame has a
    new number, and the rest is taken from the old stack. -/
theorem setStack {g : Task → Task} {l : List Event} {k : List Frame} {n : Frame} (s : Loop)
    (u : TaskId) (hlive : (s.task u).stack ≠ []) (hk : (g (s.task u)).stack = k)
    (hn : (g (s.task u)).nextFrame = n)
    (hlog : ∀ e ∈ l, ∃ f ∈ (s.task u).stack, e.frame = some (u, f))
    (hdead : ∀ f, f < (s.task u).nextFrame → f ∉ (s.task u).stack → f < n ∧ f ∉ k)
    (hledger : s.Ledger → k.Nodup ∧ (∀ f ∈ k, f < n) ∧
      ∀ f, Event.finalized u f ∈ l → f < n ∧ f ∉ k) :
    Grows s { s.modify u g with log := s.log ++ l } := by
  subst hk hn
  have hd : ∀ v f, s.Dead v f → Dead { s.modify u g with log := s.log ++ l } v f := by
    rintro v f ⟨hlt, hf⟩
    rcases eq_or_ne v u with rfl | hv
    · simpa [Dead] using hdead f hlt hf
    · simpa [Dead, hv] using And.intro hlt hf
  refine ⟨⟨l, rfl, ?_⟩, hd, fun h => ?_, fun v hv => .inl ?_⟩
  · rintro v f hvf e he hef
    obtain ⟨k, hk, hek⟩ := hlog e he
    obtain ⟨rfl, rfl⟩ : u = v ∧ k = f := by simpa using hek.symm.trans hef
    exact hvf.2 hk
  · obtain ⟨hnodup, hlt, hfin⟩ := hledger h
    refine ⟨fun v => ?_, fun v => ?_, fun v f he => ?_, fun v => ?_⟩
    · rcases eq_or_ne v u with rfl | hv
      · simpa using hnodup
      · simpa [hv] using h.nodup v
    · rcases eq_or_ne v u with rfl | hv
      · simpa using hlt
      · simpa [hv] using h.lt v
    · rcases List.mem_append.mp he with hold | hnew
      · exact hd v f (h.dead v f hold)
      · obtain ⟨k, -, hek⟩ := hlog _ hnew
        obtain ⟨rfl, rfl⟩ : v = u ∧ f = k := by simpa [Event.frame] using hek
        simpa [Dead] using hfin f hnew
    · have hc : ∀ e : Event, e.frame = none → l.count e = 0 := fun e he =>
        List.count_eq_zero.mpr fun hm => by
          obtain ⟨k, -, hek⟩ := hlog e hm
          simp [he] at hek
      have := h.balance v
      simpa [List.count_append, hc (.popped v) rfl, hc (.pushed v) rfl] using this
  · rcases eq_or_ne v u with rfl | hne
    · exact absurd hv.2.1 hlive
    · simpa [Pending, hne] using hv

theorem bodyStep (s : Loop) (u : TaskId) {op : Op} (hstep : s.bodyStep u op = some t) :
    Grows s t := by
  cases op with
  | call =>
    simp only [Loop.bodyStep] at hstep
    split at hstep
    · simp at hstep
    · next hne =>
      cases hstep
      refine (setStack (l := []) (n := (s.task u).nextFrame + 1) (g := fun x =>
        { x with stack := x.nextFrame :: (s.task u).stack, nextFrame := x.nextFrame + 1 })
        s u hne rfl rfl (by simp) (fun f hlt hf => ?_) fun h => ⟨?_, ?_, by simp⟩).frame
          rfl rfl (by simp)
      · simp only [List.mem_cons, not_or]
        exact ⟨Nat.lt_succ_of_lt hlt, Nat.ne_of_lt hlt, hf⟩
      · exact List.nodup_cons.mpr ⟨fun hc => Nat.lt_irrefl _ (h.lt u _ hc), h.nodup u⟩
      · rintro f hf
        rcases List.mem_cons.mp hf with rfl | hf
        · exact Nat.lt_succ_self _
        · exact Nat.lt_succ_of_lt (h.lt u f hf)
  | callback handler =>
    simp only [Loop.bodyStep] at hstep
    split at hstep
    · simp at hstep
    · next f rest hst =>
      cases hstep
      refine (setStack (g := id) (l := [.callback u f handler]) s u (by simp [hst]) rfl rfl
        ?_ (fun _ hlt hf => ⟨hlt, hf⟩) fun h => ⟨h.nodup u, h.lt u, by simp⟩).frame
          (by simp [Loop.modify]) rfl rfl
      simp [Event.frame, hst]
  | finalize =>
    simp only [Loop.bodyStep] at hstep
    split at hstep
    · simp at hstep
    · next f rest hst =>
      cases hstep
      refine setStack (k := rest) s u (by simp [hst]) rfl rfl (by simp [Event.frame, hst])
        (fun g hlt hg => ⟨hlt, fun hc => hg (by simp [hst, hc])⟩) fun h => ?_
      have hnodup := h.nodup u
      have hlt := h.lt u
      rw [hst] at hnodup hlt
      obtain ⟨hf, hrest⟩ := List.nodup_cons.mp hnodup
      refine ⟨hrest, fun g hg => hlt g (List.mem_cons_of_mem _ hg), fun g hg => ?_⟩
      obtain rfl : g = f := by simpa using hg
      exact ⟨hlt g List.mem_cons_self, hf⟩
  | reorder frames =>
    simp only [Loop.bodyStep] at hstep
    split at hstep
    · next hperm =>
      cases hstep
      refine (setStack (l := []) (g := fun x => { x with stack := frames }) s u
        (fun hc => hperm.1 (by simpa [hc] using hperm.2)) rfl rfl (by simp)
        (fun f hlt hf => ⟨hlt, fun hc => hf (hperm.2.mem_iff.mp hc)⟩) fun h => ⟨?_, ?_, by simp⟩).frame
          rfl rfl (by simp)
      · exact hperm.2.nodup_iff.mpr (h.nodup u)
      · exact fun f hf => h.lt u f (hperm.2.mem_iff.mp hf)
    · simp at hstep
  | finished st e =>
    simp only [Loop.bodyStep] at hstep
    split at hstep
    · next hst => cases hstep; exact finished s u st e hst.1
    · simp at hstep
  | spawn | resume | cancel | exit | run | polled => simp [Loop.bodyStep] at hstep

end Grows

/-- Every step grows the log in this sense, whatever the label. -/
theorem step_grows {op : Op} (hstep : s.step op = some t) : Grows s t := by
  cases op with
  | spawn u =>
    simp only [Loop.step] at hstep
    split at hstep
    · cases hstep; exact .spawn s u
    · simp at hstep
  | resume u e =>
    simp only [Loop.step] at hstep
    split at hstep
    · cases hstep; exact .resume s u e
    · simp at hstep
  | cancel u =>
    simp only [Loop.step] at hstep
    split at hstep
    · cases hstep; exact .cancel s u
    · simp at hstep
  | exit =>
    simp only [Loop.step] at hstep
    split at hstep
    · cases hstep; exact .exit s
    · simp at hstep
  | run =>
    simp only [Loop.step] at hstep
    split at hstep
    · cases hstep; exact .loopHead s
    · simp at hstep
  | polled =>
    simp only [Loop.step] at hstep
    split at hstep
    · cases hstep; exact .loopHead s
    · next u _ => cases hstep; exact .afterYield s u
    · simp at hstep
  | call | callback | finalize | reorder | finished =>
    simp only [Loop.step] at hstep
    split at hstep
    · next u _ _ => exact .bodyStep s u hstep
    · simp at hstep

/-- Cancelling one task leaves the others attached. -/
theorem cancel_mem_tasksAll (hvu : v ≠ u) (hv : v ∈ s.tasksAll) : v ∈ (s.cancel u).1.tasksAll := by
  by_cases hrun : s.runningTask = some u
  · rwa [cancel_running hrun]
  · rcases cancel_cases s hrun with ⟨-, heq⟩ | ⟨-, heq⟩
    · rw [heq]; exact hv
    · rw [heq, pop_tasksAll]
      exact (List.mem_erase_of_ne hvu).mpr hv

theorem exec_grows : ∀ (ops : List Op) (s t : Loop), s.exec ops = some t → Grows s t
  | [], s, t, hrun => by
    obtain rfl : s = t := by simpa [Loop.exec, Runs.exec] using hrun
    exact .refl s
  | op :: ops, s, t, hrun => by
    obtain ⟨m, hm, hmt⟩ := Runs.exec_cons.mp hrun
    exact (step_grows hm).trans (exec_grows ops m t hmt)

theorem Ledger.init : Loop.init.Ledger :=
  { nodup := by simp [Loop.init], lt := by simp [Loop.init], dead := by simp [Loop.init],
    balance := by simp [Loop.init] }

end Loop

/-! ### Which tasks the run loop holds -/

/-- The labels that disturb neither the ready list nor the task that has yielded: when the poll
    after a yield leaves nothing to switch to, the task that yielded must still be attached. -/
def Undisturbed (s : Loop) : Op → Prop
  | .polled =>
    match s.loc with
    | .yieldPoll v => s.tasksReady = [] → v ∈ s.tasksAll
    | _ => True
  | op => Orderly s op

theorem Undisturbed.orderly {s : Loop} {op : Op} (h : Undisturbed s op) : Orderly s op := by
  cases op <;> first | exact h | exact trivial

theorem undisturbed_polled {s : Loop} :
    Undisturbed s .polled ↔ ∀ v, s.loc = .yieldPoll v → s.tasksReady = [] → v ∈ s.tasksAll := by
  cases hloc : s.loc <;> simp [Undisturbed, hloc]

instance Undisturbed.decidable (s : Loop) : ∀ op, Decidable (Undisturbed s op)
  | .polled =>
    match hloc : s.loc with
    | .yieldPoll v =>
      decidable_of_iff (s.tasksReady = [] → v ∈ s.tasksAll) (by simp [undisturbed_polled, hloc])
    | .outside | .body | .idlePoll | .aborted _ => .isTrue (by simp [undisturbed_polled, hloc])
  | .spawn u => inferInstanceAs (Decidable (Orderly s (.spawn u)))
  | .resume u e => inferInstanceAs (Decidable (Orderly s (.resume u e)))
  | .cancel _ | .exit | .run | .call | .callback _ | .finalize | .reorder _ | .finished _ _ =>
    .isTrue trivial

namespace Loop

variable {s t : Loop} {u v : TaskId} {f : Frame}

/-- The task that is run is attached, and the run loop has not given up. -/
structure Safe (s : Loop) : Prop extends Inv s where
  attached : ∀ u, s.runningTask = some u → u ∈ s.tasksAll
  loc_ne : s.loc ≠ .aborted .notAttached

@[simp] theorem schedule_runningTask (s : Loop) (e : Error) :
    (s.schedule u e).1.runningTask = s.runningTask := by
  rcases s.schedule_cases u e with ⟨-, heq⟩ | ⟨-, -, heq⟩ <;> rw [heq]; rfl

@[simp] theorem schedule_loc (s : Loop) (e : Error) : (s.schedule u e).1.loc = s.loc := by
  rcases s.schedule_cases u e with ⟨-, heq⟩ | ⟨-, -, heq⟩ <;> rw [heq]; rfl

@[simp] theorem schedule_tasksAll (s : Loop) (e : Error) :
    (s.schedule u e).1.tasksAll = s.tasksAll := by
  rcases s.schedule_cases u e with ⟨-, heq⟩ | ⟨-, -, heq⟩ <;> rw [heq]; rfl

/-- A state whose running task, if any, is one that ran and is attached already. -/
theorem Safe.of_same (h : s.Safe) (ht : t.Inv) (hrun : t.runningTask = s.runningTask)
    (hloc : t.loc = s.loc) (hall : ∀ u, s.runningTask = some u → u ∈ s.tasksAll → u ∈ t.tasksAll) :
    t.Safe :=
  { ht with
    attached := fun u hu => hall u (hrun ▸ hu) (h.attached u (hrun ▸ hu))
    loc_ne := by rw [hloc]; exact h.loc_ne }

theorem Safe.of_none (h : s.Inv) (hrun : s.runningTask = none) (hloc : s.loc ≠ .aborted .notAttached) :
    s.Safe :=
  { h with attached := by simp [hrun], loc_ne := hloc }

theorem Safe.nextTask (h : s.Inv) (hrun : s.runningTask = none) : s.nextTask.Safe := by
  have hn := h.nextTask hrun
  refine { hn with attached := fun u hu => ?_, loc_ne := ?_ }
  · unfold Loop.nextTask at hu ⊢
    rcases heq : s.tasksReady with _ | ⟨v, rest⟩
    · simp [heq, hrun] at hu
    · obtain rfl : v = u := by simpa [heq, startRun] using hu
      exact (h.sound v (by simp [heq])).2.2
  · unfold Loop.nextTask
    split <;> simp [startRun]

theorem Safe.loopHead (h : s.Inv) (hrun : s.runningTask = none) : s.loopHead.Safe := by
  unfold Loop.loopHead
  split
  · exact .of_none (h.setLoc hrun (by simp)) hrun (by simp)
  · exact .nextTask h hrun

/-- The exit of an attached task: it is popped and the loop goes on. -/
theorem Safe.onTaskExit (h : s.Inv) (hrun : s.runningTask = none) (hnot : u ∉ s.tasksReady)
    (hloc : ∀ v, s.loc ≠ .yieldPoll v) (hu : u ∈ s.tasksAll) : (s.onTaskExit u).Safe := by
  have hinv := h.onTaskExit hrun hnot hloc
  have hpop : (s.pop u).1.Inv := h.pop hnot fun hc => by simp [Holds, hrun, hloc] at hc
  unfold Loop.onTaskExit at hinv ⊢
  rw [pop_attached hu] at hinv hpop ⊢
  simp only at hinv hpop ⊢
  split at hinv
  · next herr =>
    simp only [herr, if_true]
    split at hinv
    · next hexit =>
      simp only [hexit, if_true]
      exact .of_none hinv (exit_runningTask hrun) (by rw [exit_loc (by exact hrun)]; simp)
    · next hexit =>
      simp only [hexit, if_false]
      exact .of_none hinv hrun (by simp)
  · next herr =>
    simp only [herr]
    exact .nextTask hpop hrun

theorem Safe.finished (h : s.Safe) (hrun : s.runningTask = some u) (hloc : s.loc = .body)
    {st : ControlState} (hst : st ≠ .ready) (hstack : st = .yield → (s.task u).stack ≠ [])
    (e : Option Error) : (s.finished u st e).Safe := by
  have hinv := h.toInv.finished hrun hloc hst hstack e
  have hput := h.toInv.putDown hrun hst e hloc
  have hnot : u ∉ s.tasksReady := fun hc => (h.sound u hc).2.1 hrun
  unfold Loop.finished at hinv ⊢
  simp only at hinv ⊢
  split
  · exact .onTaskExit hput rfl hnot (by simp [hloc]) (h.attached u hrun)
  · next hne =>
    rw [if_neg hne] at hinv
    split
    · next hy =>
      rw [if_pos hy] at hinv
      exact .of_none hinv rfl (by simp)
    · exact .nextTask hput rfl

theorem Safe.afterYield (h : s.Safe) (hloc : s.loc = .yieldPoll u)
    (hu : s.tasksReady = [] → u ∈ s.tasksAll) : (s.afterYield u).Safe := by
  have hinv := h.toInv.afterYield hloc
  have hrun := h.toInv.idle (.inr (.inr ⟨u, hloc⟩))
  rcases hready : s.tasksReady with _ | ⟨next, rest⟩
  · refine { hinv with attached := fun v hv => ?_, loc_ne := ?_ }
    · simp only [Loop.afterYield, hready, startRun] at hv ⊢
      obtain rfl : u = v := by simpa using hv
      exact hu hready
    · simp [Loop.afterYield, hready, startRun]
  · have hn := Safe.nextTask h.toInv hrun
    rw [afterYield_cons hready] at hinv ⊢
    exact hn.of_same hinv (by simp) (by simp) fun v _ hv => by simpa using hv

theorem bodyStep_same {op : Op} (hstep : s.bodyStep u op = some t)
    (hop : ∀ st e, op ≠ .finished st e) :
    t.runningTask = s.runningTask ∧ t.loc = s.loc ∧ t.tasksAll = s.tasksAll := by
  cases op with
  | finished st e => exact absurd rfl (hop st e)
  | _ =>
    simp only [Loop.bodyStep] at hstep
    try split at hstep
    all_goals cases hstep
    all_goals exact ⟨rfl, rfl, rfl⟩

/-- One step keeps the loop safe, where the label disturbs nothing. -/
theorem Safe.step (h : s.Safe) {op : Op} (hop : Undisturbed s op) (hstep : s.step op = some t) :
    t.Safe := by
  have hinv := h.toInv.step hop.orderly hstep
  cases op with
  | spawn u =>
    simp only [Loop.step] at hstep
    split at hstep
    · cases hstep
      rcases Classical.em (u ∈ s.tasksAll) with hu | hu
      · simp only [Loop.spawn, push_attached h.toInv hu]; exact h
      · simp only [Loop.spawn, push_detached hu] at hinv ⊢
        exact h.of_same hinv (by simp) (by simp) fun v _ hv => by simp [hv]
    · simp at hstep
  | resume u e =>
    simp only [Loop.step] at hstep
    split at hstep
    · cases hstep
      unfold Loop.resume at hinv ⊢
      split
      · next hq =>
        rw [if_pos hq] at hinv
        exact h.of_same hinv (by simp) (by simp) fun v _ hv => by simpa using hv
      · exact h
    · simp at hstep
  | cancel u =>
    simp only [Loop.step] at hstep
    split at hstep
    · cases hstep
      refine h.of_same hinv (by simp) (by simp) fun v hv hall => ?_
      rcases eq_or_ne v u with rfl | hne
      · rw [cancel_running hv]; exact hall
      · exact cancel_mem_tasksAll hne hall
    · simp at hstep
  | exit =>
    simp only [Loop.step] at hstep
    split at hstep
    · cases hstep
      rcases hrun : s.runningTask with _ | r
      · exact .of_none hinv (exit_runningTask hrun) (by rw [exit_loc hrun]; exact h.loc_ne)
      · have heq := exit_running (s := s) (by simp [hrun])
        rw [heq] at hinv ⊢
        exact { hinv with attached := h.attached, loc_ne := by simp }
    · simp at hstep
  | run =>
    simp only [Loop.step] at hstep
    split at hstep
    · next hloc => cases hstep; exact .loopHead h.toInv (h.toInv.idle (.inl hloc))
    · simp at hstep
  | polled =>
    simp only [Loop.step] at hstep
    split at hstep
    · next hloc => cases hstep; exact .loopHead h.toInv (h.toInv.idle (.inr (.inl hloc)))
    · next u hloc =>
      cases hstep
      exact h.afterYield hloc (by simpa [Undisturbed, hloc] using hop)
    · simp at hstep
  | finished st e =>
    simp only [Loop.step] at hstep
    split at hstep
    · next u hloc hrun =>
      simp only [Loop.bodyStep] at hstep
      split at hstep
      · next hst =>
        cases hstep
        refine h.finished hrun hloc ?_ ?_ e
        · rintro rfl; simp at hst
        · rintro rfl; simpa using hst.1
      · simp at hstep
    · simp at hstep
  | call | callback | finalize | reorder =>
    simp only [Loop.step] at hstep
    split at hstep
    · next u hloc hrun =>
      obtain ⟨hr, hl, ha⟩ := bodyStep_same hstep (by simp)
      exact h.of_same hinv hr hl fun v _ hv => by rwa [ha]
    · simp at hstep

theorem Safe.init : Loop.init.Safe :=
  { Inv.init with attached := by simp [Loop.init], loc_ne := by simp [Loop.init] }

theorem Safe.exec (h : s.Safe) {ops : List Op} (hrun : s.exec ops = some t)
    (hmeets : Runs.Meets Loop.step Undisturbed s ops) : t.Safe :=
  Runs.exec_invariant (fun _ _ _ hi hop hs => Safe.step hi hop hs) ops s t hrun hmeets h

/-! ### Cancellation -/

/-- The call `op` cancels `u`. A running task cannot be cancelled, and `exit` gives up while a task
    runs. -/
def Cancels (s : Loop) (u : TaskId) : Op → Prop
  | .cancel v => v = u ∧ u ∈ s.tasksAll ∧ s.runningTask ≠ some u
  | .exit => u ∈ s.tasksAll ∧ s.runningTask = none
  | _ => False

theorem filter_map_finalized (u v : TaskId) (frames : List Frame) :
    (frames.map (Event.finalized v)).filter (·.isFrameOf u) =
      if v = u then frames.map (.finalized v) else [] := by
  split
  · next h =>
    rw [List.filter_eq_self]
    rintro e he
    obtain ⟨f, -, rfl⟩ := List.mem_map.mp he
    simp [Event.isFrameOf, Event.frame, h]
  · next h =>
    rw [List.filter_eq_nil_iff]
    rintro e he
    obtain ⟨f, -, rfl⟩ := List.mem_map.mp he
    simp [Event.isFrameOf, Event.frame, h]

theorem pop_frames (s : Loop) (u v : TaskId) :
    (s.pop v).1.log.filter (·.isFrameOf u) = s.log.filter (·.isFrameOf u) := by
  unfold Loop.pop
  split
  · simp [Event.isFrameOf, Event.frame]
  · rfl

/-- The events of `u`'s frames that `cancel v` logs. -/
theorem cancel_frames (hrun : s.runningTask ≠ some v) :
    (s.cancel v).1.log.filter (·.isFrameOf u) =
      s.log.filter (·.isFrameOf u) ++ if v = u then (s.task u).stack.map (.finalized u) else [] := by
  have hu : (s.unwind v).log.filter (·.isFrameOf u) =
      s.log.filter (·.isFrameOf u) ++ if v = u then (s.task u).stack.map (.finalized u) else [] := by
    simp only [Loop.unwind, List.filter_append, filter_map_finalized]
    rcases eq_or_ne v u with rfl | hv <;> simp [*]
  rcases cancel_cases s hrun with ⟨-, heq⟩ | ⟨-, heq⟩
  · rw [heq]; exact hu
  · rw [heq, pop_frames]; exact hu

theorem cancelAll_frames (hrun : s.runningTask = none) (l : List TaskId) :
    (s.cancelAll l).log.filter (·.isFrameOf u) =
      s.log.filter (·.isFrameOf u) ++ if u ∈ l then (s.task u).stack.map (.finalized u) else [] := by
  induction l generalizing s with
  | nil => simp [cancelAll]
  | cons v l ih =>
    have hcons : s.cancelAll (v :: l) = (s.cancel v).1.cancelAll l := rfl
    rw [hcons, ih (by simpa using hrun), cancel_frames (by simp [hrun])]
    rcases eq_or_ne u v with rfl | hne
    · simp [(cancel_cancelled (s := s) (u := u) (by simp [hrun])).1]
    · simp [cancel_task_ne s hne, hne, hne.symm]

theorem exit_frames (hrun : s.runningTask = none) (hu : u ∈ s.tasksAll) :
    s.exit.log.filter (·.isFrameOf u) =
      s.log.filter (·.isFrameOf u) ++ (s.task u).stack.map (.finalized u) := by
  rw [exit_eq hrun]
  have hpop := Runs.foldl_frame (g := fun s : Loop => s.log.filter (·.isFrameOf u))
    (fun s v => pop_frames s u v) (s.cancelAll s.tasksAll).tasksAll
    { s.cancelAll s.tasksAll with tasksReady := [] }
  refine hpop.trans ?_
  rw [cancelAll_frames hrun, if_pos hu]

/-- The call finalizes the frames of `u`, from the top down, and no other frame of it. -/
theorem Cancels.frames {op : Op} (h : s.Cancels u op) (hstep : s.step op = some t) :
    t.log.filter (·.isFrameOf u) =
      s.log.filter (·.isFrameOf u) ++ (s.task u).stack.map (.finalized u) := by
  cases op with
  | cancel v =>
    obtain ⟨rfl, -, hrun⟩ := h
    simp only [Loop.step] at hstep
    split at hstep
    · cases hstep; rw [cancel_frames hrun, if_pos rfl]
    · simp at hstep
  | exit =>
    simp only [Loop.step] at hstep
    split at hstep
    · cases hstep; exact exit_frames h.2 h.1
    · simp at hstep
  | _ => exact h.elim

/-- The call pops `u`, or leaves it pending. -/
theorem Cancels.pending {op : Op} (h : s.Cancels u op) (hstep : s.step op = some t)
    (hinv : s.Inv) : t.Pending u ∨ u ∉ t.tasksAll := by
  cases op with
  | cancel v =>
    obtain ⟨rfl, hall, hrun⟩ := h
    simp only [Loop.step] at hstep
    split at hstep
    · cases hstep
      rcases cancel_cases s hrun with ⟨hr, heq⟩ | ⟨-, heq⟩
      · rw [heq]; exact .inl ⟨hall, by simp, by simpa using hr⟩
      · rw [heq, pop_tasksAll]; exact .inr hinv.allNodup.not_mem_erase
    · simp at hstep
  | exit =>
    simp only [Loop.step] at hstep
    split at hstep
    · cases hstep; rw [exit_tasksAll h.2]; exact .inr List.not_mem_nil
    · simp at hstep
  | _ => exact h.elim

theorem Cancels.undisturbed {op : Op} (h : s.Cancels u op) : Undisturbed s op := by
  cases op <;> first | exact trivial | exact h.elim

theorem Cancels.attached {op : Op} (h : s.Cancels u op) : u ∈ s.tasksAll := by
  cases op <;> first | exact h.2.1 | exact h.1 | exact h.elim

theorem nextTask_tasksAll (s : Loop) : s.nextTask.tasksAll = s.tasksAll := by
  unfold Loop.nextTask
  split <;> rfl

/-- `exit` attaches no task. -/
theorem exit_notMem (hu : u ∉ s.tasksAll) : u ∉ s.exit.tasksAll := by
  rcases hrun : s.runningTask with _ | r
  · rw [exit_tasksAll hrun]; exact List.not_mem_nil
  · rw [exit_running (by simp [hrun])]; exact hu

/-- A task that exits is no longer attached, whatever the run loop does next. -/
theorem onTaskExit_tasksAll (hnodup : s.tasksAll.Nodup) : u ∉ (s.onTaskExit u).tasksAll := by
  have ht : u ∉ (s.pop u).1.tasksAll := by
    rw [pop_tasksAll]; exact hnodup.not_mem_erase
  unfold Loop.onTaskExit
  split
  · next t heq => rw [heq] at ht; exact ht
  · next t heq =>
    rw [heq] at ht
    split
    · dsimp only
      split
      · exact exit_notMem ht
      · exact ht
    · rw [nextTask_tasksAll]; exact ht

/-- A pending task that the run loop takes up has nothing to do but exit: it leaves `_tasks_all`
    with the next step. -/
theorem Pending.departs (h : s.Pending u) (hinv : s.Inv) (hrun : s.runningTask = some u) {op : Op}
    (hstep : s.step op = some t) : u ∉ t.tasksAll := by
  obtain ⟨hall, hstack, -⟩ := h
  have hcode : s.userCode = false := by
    rw [Bool.eq_false_iff]
    exact fun hc => (userCode_running hc hrun hinv).2 hstack
  have hidle : ∀ l, s.loc = l → l ≠ .outside ∧ l ≠ .idlePoll ∧ ∀ v, l ≠ .yieldPoll v := by
    rintro l rfl
    refine ⟨fun hl => ?_, fun hl => ?_, fun v hl => ?_⟩
    all_goals simpa [hrun] using hinv.idle (by simp [hl])
  cases op with
  | spawn | resume | cancel | exit => simp [Loop.step, hcode] at hstep
  | run => simp [Loop.step, (hidle _ rfl).1] at hstep
  | polled =>
    simp only [Loop.step] at hstep
    split at hstep
    · next hloc => exact absurd rfl (hidle _ hloc).2.1
    · next v hloc => exact absurd rfl ((hidle _ hloc).2.2 v)
    · simp at hstep
  | finished st e =>
    simp only [Loop.step] at hstep
    split at hstep
    · next v hloc hv =>
      obtain rfl : u = v := Option.some.inj (hrun.symm.trans hv)
      simp only [Loop.bodyStep] at hstep
      split at hstep
      · next hst =>
        cases hstep
        rw [hst.1.mpr hstack]
        exact onTaskExit_tasksAll (s := { s with runningTask := none }.modify u _) hinv.allNodup
      · simp at hstep
    · simp at hstep
  | call | callback | finalize | reorder =>
    simp only [Loop.step] at hstep
    split at hstep
    · next v hloc hv =>
      obtain rfl : u = v := Option.some.inj (hrun.symm.trans hv)
      simp [Loop.bodyStep, hstack] at hstep
    · simp at hstep

/-- What it means that `u`, cancelled by the call that led from `s` to `s'`, was cancelled cleanly,
    seen from a later state `t`. -/
structure CleanlyCancelled (s s' t : Loop) (u : TaskId) : Prop where
  /-- the call finalizes the frames on the stack from the top down to the root -/
  unwound : s'.log.filter (·.isFrameOf u) =
    s.log.filter (·.isFrameOf u) ++ (s.task u).stack.map (.finalized u)
  /-- each of them is finalized once in the whole run -/
  once : ∀ f ∈ (s.task u).stack, t.log.count (.finalized u f) = 1
  /-- and none of them is polled or handles an error after the call -/
  silent : ∃ l, t.log = s'.log ++ l ∧
    ∀ f ∈ (s.task u).stack, ∀ e ∈ l, e.frame ≠ some (u, f)
  /-- `u` has left `_tasks_all` once more than it entered it, unless it is still there -/
  leaves : ∃ l, t.log = s.log ++ l ∧
    l.count (.popped u) + (if u ∈ t.tasksAll then 1 else 0) = l.count (.pushed u) + 1
  /-- until it leaves it is scheduled, and it leaves as soon as it is run -/
  scheduled : t.log.count (.popped u) = s.log.count (.popped u) →
    u ∈ t.tasksReady ∨ t.runningTask = some u ∧ ∀ op t', t.step op = some t' → u ∉ t'.tasksAll
  /-- the run loop does not give up -/
  loc_ne : t.loc ≠ .aborted .notAttached

theorem CleanlyCancelled.of_call {s s' t : Loop} {u : TaskId} {op : Op} (hs : s.Safe)
    (hledger : s.Ledger) (hcall : s.Cancels u op) (hstep : s.step op = some s')
    (hgrows : Grows s' t) (ht : t.Safe) : CleanlyCancelled s s' t u := by
  have hall := hcall.attached
  have hframes := hcall.frames hstep
  have hst := step_grows hstep
  have hledger' := hst.ledger hledger
  have hst' := hst.trans hgrows
  -- a frame on the stack was never finalized, and the call finalizes it once
  have hcount : ∀ f ∈ (s.task u).stack, s'.log.count (.finalized u f) = 1 := fun f hf => by
    have hp : Event.isFrameOf u (.finalized u f) = true := by simp [Event.isFrameOf, Event.frame]
    have hzero : (s.log.filter (·.isFrameOf u)).count (.finalized u f) = 0 :=
      List.count_eq_zero.mpr fun hm => (hledger.dead u f (List.mem_of_mem_filter hm)).2 hf
    have hone : ((s.task u).stack.map (Event.finalized u)).count (.finalized u f) = 1 :=
      List.count_eq_one_of_mem ((hledger.nodup u).map fun a b h => by simpa using h)
        (List.mem_map_of_mem hf)
    rw [← List.count_filter hp, hframes, List.count_append, hzero, hone]
  have hdead : ∀ f ∈ (s.task u).stack, s'.Dead u f := fun f hf =>
    hledger'.dead u f (List.count_pos_iff.mp (by rw [hcount f hf]; exact Nat.one_pos))
  obtain ⟨l, hl, hsilent⟩ := hgrows.log
  obtain ⟨k, hk, -⟩ := hst'.log
  refine ⟨hframes, fun f hf => ?_, ⟨l, hl, fun f hf e he => hsilent u f (hdead f hf) e he⟩,
    ⟨k, hk, ?_⟩, fun hcount' => ?_, ht.loc_ne⟩
  · have hzero : l.count (.finalized u f) = 0 := List.count_eq_zero.mpr fun hm =>
      hsilent u f (hdead f hf) _ hm rfl
    rw [hl, List.count_append, hcount f hf, hzero]
  · have h₁ := hledger.balance u
    have h₂ := (hst'.ledger hledger).balance u
    rw [List.count_eq_one_of_mem hs.allNodup hall] at h₁
    rw [ht.allNodup.count, hk, List.count_append, List.count_append] at h₂
    omega
  · have hp' : s'.Pending u := by
      rcases hcall.pending hstep hs.toInv with hp | hp
      · exact hp
      · -- popped: the log has the event, against `hcount'`
        have h₁ := hledger.balance u
        have h₂ := hledger'.balance u
        have h₃ := hst.count_le (.pushed u)
        have h₄ := hgrows.count_le (.popped u)
        rw [List.count_eq_one_of_mem hs.allNodup hall] at h₁
        rw [List.count_eq_zero.mpr hp] at h₂
        omega
    have hp : t.Pending u := by
      have h₁ := hst.count_le (.popped u)
      rcases hgrows.pending u hp' with hp | hlt
      · exact hp
      · omega
    by_cases hrun : t.runningTask = some u
    · exact .inr ⟨hrun, fun op t' ht' => hp.departs ht.toInv hrun ht'⟩
    · exact .inl (ht.complete u hp.1 hp.2.2 hrun)

end Loop

/-- The condition cannot be dropped: where the poll after a yield took the yielded task away and left
    nothing ready, the loop runs that task, and all it can do then is give up. -/
theorem Loop.Inv.polled_detached {s : Loop} {v : TaskId} (h : s.Inv) (hloc : s.loc = .yieldPoll v)
    (hready : s.tasksReady = []) (hv : v ∉ s.tasksAll) :
    ∃ m, s.step .polled = some m ∧ (∃ op t, m.step op = some t) ∧
      ∀ op t, m.step op = some t → t.loc = .aborted .notAttached := by
  have hstack : (s.task v).stack = [] := by
    by_contra hc
    exact hv ((h.held v (.inr hloc)).live hc)
  have hm : s.step .polled = some (s.startRun v) := by
    simp [Loop.step, hloc, Loop.afterYield, hready]
  have hexit : ∀ e, (s.startRun v).step (.finished .exited e) =
      some ((s.startRun v).finished v .exited e) := fun e => by
    simp [Loop.step, Loop.bodyStep, Loop.startRun, hstack]
  refine ⟨_, hm, ⟨.finished .exited none, _, hexit none⟩, fun op t hstep => ?_⟩
  cases op with
  | finished st e =>
    obtain rfl : st = .exited := by
      simp only [Loop.step, Loop.bodyStep, Loop.startRun, hstack] at hstep
      split at hstep
      · next hst => exact hst.1.mpr trivial
      · simp at hstep
    cases (hexit e).symm.trans hstep
    simp [Loop.finished, Loop.onTaskExit, Loop.startRun, Loop.pop, hv]
  | spawn | resume | cancel | exit =>
    simp [Loop.step, Loop.startRun, Loop.userCode, hstack] at hstep
  | run | polled => simp [Loop.step, Loop.startRun] at hstep
  | call | callback | finalize | reorder =>
    simp [Loop.step, Loop.bodyStep, Loop.startRun, hstack] at hstep

end Jinx.Sched
