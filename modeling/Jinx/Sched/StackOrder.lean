import Jinx.Sched.ReadyList

/-! The ready list is a stack: what has been ready for longer waits for what became ready after it.

    A step puts tasks on top of the list, or takes the top one and runs it, or `exit` empties the list.
    So the tasks below a task stay where they are until that one has run, and two tasks that yield in turn
    keep every task below them from running for as long as they do. -/

namespace Jinx.Sched.Loop

variable {s t : Loop} {u v a b : TaskId} {ops more : List Op} {xs ys rest : List TaskId}

/-- What a step does to the ready list. -/
inductive ListStep (s t : Loop) : Prop
  | emptied (h : t.tasksReady = [])
  | grown (xs : List TaskId) (h : t.tasksReady = xs ++ s.tasksReady)
  | taken (v : TaskId) (xs rest : List TaskId) (h : s.tasksReady = v :: rest)
    (h' : t.tasksReady = xs ++ rest) (hrun : t.runningTask = some v)

theorem schedule_grown (s : Loop) (u : TaskId) (e : Error) :
    ∃ xs, (s.schedule u e).1.tasksReady = xs ++ s.tasksReady := by
  obtain ⟨-, heq⟩ | ⟨-, -, heq⟩ := s.schedule_cases u e
  · exact ⟨[], by rw [heq]; rfl⟩
  · exact ⟨[u], by rw [heq]; rfl⟩

theorem push_tasksReady (s : Loop) (u : TaskId) : (s.push u).1.tasksReady = s.tasksReady := by
  unfold Loop.push
  dsimp only
  split <;> rfl

theorem spawn_grown (s : Loop) (u : TaskId) : ∃ xs, (s.spawn u).1.tasksReady = xs ++ s.tasksReady := by
  have hpush := push_tasksReady s u
  unfold Loop.spawn
  split
  case h_1 r heq =>
    rw [heq] at hpush
    exact ⟨[], hpush⟩
  case h_2 r heq =>
    rw [heq] at hpush
    obtain ⟨xs, hxs⟩ := schedule_grown r u {}
    exact ⟨xs, hxs.trans (congrArg (xs ++ ·) hpush)⟩

theorem cancel_tasksReady (s : Loop) (u : TaskId) : (s.cancel u).1.tasksReady = s.tasksReady := by
  by_cases hrun : s.runningTask = some u
  · rw [cancel_running hrun]
  · unfold Loop.cancel
    rw [if_neg hrun]
    dsimp only
    split
    · rfl
    · rw [pop_tasksReady]
      rfl

theorem nextTask_step (s : Loop) : ListStep s s.nextTask := by
  unfold Loop.nextTask
  split
  case h_1 hnil => exact .emptied hnil
  case h_2 v rest hcons => exact .taken v [] rest hcons rfl rfl

theorem ListStep.of_eq {s' : Loop} (h : ListStep s' t) (heq : s'.tasksReady = s.tasksReady) : ListStep s t := by
  cases h with
  | emptied h => exact .emptied h
  | grown xs h => exact .grown xs (heq ▸ h)
  | taken v xs rest h h' hrun => exact .taken v xs rest (heq ▸ h) h' hrun

theorem exit_step (s : Loop) : ListStep s s.exit := by
  cases hrun : s.runningTask with
  | none => exact .emptied (exit_tasksReady hrun)
  | some u =>
    rw [exit_running (by simp [hrun])]
    exact .grown [] rfl

theorem onTaskExit_step (s : Loop) (u : TaskId) : ListStep s (s.onTaskExit u) := by
  have hpop := pop_tasksReady (u := u) s
  unfold Loop.onTaskExit
  split
  case h_1 r heq =>
    rw [heq] at hpop
    exact .grown [] hpop
  case h_2 r heq =>
    rw [heq] at hpop
    dsimp only
    split
    · split
      · exact (exit_step _).of_eq hpop
      · exact .grown [] hpop
    · exact r.nextTask_step.of_eq hpop

theorem finished_step (s : Loop) (u : TaskId) (st : ControlState) (raised : Option Error) :
    ListStep s (s.finished u st raised) := by
  unfold Loop.finished
  dsimp only
  split
  · exact (onTaskExit_step _ u).of_eq rfl
  · split
    · exact .grown [] rfl
    · exact (nextTask_step _).of_eq rfl

/-- The task that has yielded is put on top of what is left. -/
theorem afterYield_step (s : Loop) (u : TaskId) : ListStep s (s.afterYield u) := by
  unfold Loop.afterYield
  split
  case h_1 hnil => exact .emptied hnil
  case h_2 v rest hcons =>
    obtain ⟨xs, hxs⟩ := schedule_grown { s with tasksReady := rest } u {}
    exact .taken v xs rest hcons hxs rfl

theorem loopHead_step (s : Loop) : ListStep s s.loopHead := by
  unfold Loop.loopHead
  split
  · exact .grown [] rfl
  · exact s.nextTask_step

theorem step_list {op : Op} (hstep : s.step op = some t) : ListStep s t := by
  cases op with
  | spawn u =>
    obtain ⟨-, hs⟩ := Option.ite_none_right_eq_some.mp hstep
    obtain rfl := Option.some.inj hs
    obtain ⟨xs, hxs⟩ := s.spawn_grown u
    exact .grown xs hxs
  | resume u e =>
    obtain ⟨-, hs⟩ := Option.ite_none_right_eq_some.mp hstep
    obtain rfl := Option.some.inj hs
    unfold Loop.resume
    split
    · obtain ⟨xs, hxs⟩ := s.schedule_grown u e
      exact .grown xs hxs
    · exact .grown [] rfl
  | cancel u =>
    obtain ⟨-, hs⟩ := Option.ite_none_right_eq_some.mp hstep
    obtain rfl := Option.some.inj hs
    exact .grown [] (s.cancel_tasksReady u)
  | exit =>
    obtain ⟨-, hs⟩ := Option.ite_none_right_eq_some.mp hstep
    obtain rfl := Option.some.inj hs
    exact s.exit_step
  | run =>
    obtain ⟨-, hs⟩ := Option.ite_none_right_eq_some.mp hstep
    obtain rfl := Option.some.inj hs
    exact s.loopHead_step
  | polled =>
    simp only [Loop.step] at hstep
    split at hstep
    case h_1 =>
      obtain rfl := Option.some.inj hstep
      exact s.loopHead_step
    case h_2 u _ =>
      obtain rfl := Option.some.inj hstep
      exact s.afterYield_step u
    case h_3 => cases hstep
  | call | callback handler | finalize =>
    simp only [Loop.step] at hstep
    split at hstep
    case h_2 => cases hstep
    case h_1 u _ _ =>
      simp only [Loop.bodyStep] at hstep
      split at hstep
      · cases hstep
      · obtain rfl := Option.some.inj hstep
        exact .grown [] rfl
  | reorder frames =>
    simp only [Loop.step] at hstep
    split at hstep
    case h_2 => cases hstep
    case h_1 u _ _ =>
      obtain ⟨-, hs⟩ := Option.ite_none_right_eq_some.mp hstep
      obtain rfl := Option.some.inj hs
      exact .grown [] rfl
  | finished st raised =>
    simp only [Loop.step] at hstep
    split at hstep
    case h_2 => cases hstep
    case h_1 u _ _ =>
      obtain ⟨-, hs⟩ := Option.ite_none_right_eq_some.mp hstep
      obtain rfl := Option.some.inj hs
      exact s.finished_step u st raised

/-- The tasks from `u` down stay in the list, until `u` runs or the list is emptied. -/
theorem below_step {op : Op} (hlist : u :: ys <:+ s.tasksReady) (hstep : s.step op = some t)
    (hrun : t.runningTask ≠ some u) (hne : t.tasksReady ≠ []) : u :: ys <:+ t.tasksReady := by
  cases step_list hstep with
  | emptied h => exact absurd h hne
  | grown xs h => exact h ▸ hlist.trans (List.suffix_append xs _)
  | taken v xs rest h h' hv =>
    obtain ⟨zs, hzs⟩ := hlist
    cases zs with
    | nil =>
      obtain ⟨rfl, -⟩ := List.cons.inj (hzs.trans h)
      exact absurd hv hrun
    | cons z zs =>
      obtain ⟨-, hrest⟩ := List.cons.inj (hzs.trans h)
      refine h' ▸ List.IsSuffix.trans ?_ (List.suffix_append xs rest)
      exact ⟨zs, hrest⟩

theorem below_run : ∀ (more : List Op) (s t : Loop), u :: ys <:+ s.tasksReady → s.exec more = some t →
    Runs.Always Loop.step (fun x => x.runningTask ≠ some u ∧ x.tasksReady ≠ []) s more →
    u :: ys <:+ t.tasksReady
  | [], s, t, hlist, hrun, _ => by
    obtain rfl : s = t := by simpa [Loop.exec] using hrun
    exact hlist
  | op :: more, s, t, hlist, hrun, ⟨_, hall⟩ => by
    obtain ⟨m, hm, hmt⟩ := Runs.exec_cons.mp hrun
    obtain ⟨hu, hne⟩ := (hall m hm).head
    exact below_run more m t (below_step hlist hm hu hne) hmt (hall m hm)

/-- A task does not run before the ones that became ready after it: while `u` has not run and the list is
    not emptied, the tasks below it are where they were, and none of them runs. -/
theorem stack_order (ops more : List Op) (s t : Loop) (hrun : Loop.init.exec ops = some s)
    (hmore : s.exec more = some t) (horderly : Runs.Meets Loop.step Orderly Loop.init (ops ++ more))
    (hlist : s.tasksReady = xs ++ u :: ys)
    (hkept : Runs.Always Loop.step (fun x => x.runningTask ≠ some u ∧ x.tasksReady ≠ []) s more) :
    u :: ys <:+ t.tasksReady ∧ ∀ v ∈ u :: ys, t.runningTask ≠ some v := by
  have hbelow : u :: ys <:+ t.tasksReady := below_run more s t ⟨xs, hlist.symm⟩ hmore hkept
  have hinv : t.Inv := Runs.exec_invariant (fun _ _ _ h hop hstep => h.step hop hstep) (ops ++ more)
    Loop.init t (Runs.exec_trans hrun hmore) horderly Inv.init
  exact ⟨hbelow, fun v hv => (hinv.sound v (hbelow.mem hv)).2.1⟩

/-- Task 0 spawns 1 and then 2 and yields. -/
def lastFirst : List Op :=
  [.spawn 0, .run, .callback false, .spawn 1, .spawn 2, .finished .yield none]

/-- Task 2 runs and yields, and then 0 runs again before 1 has run. -/
theorem stack_order_lastFirst : ∃ s t, Loop.init.exec lastFirst = some s ∧
    s.exec [.polled, .finished .yield none, .polled] = some t ∧ [1] <:+ t.tasksReady :=
  ⟨_, _, rfl, rfl, (stack_order lastFirst [.polled, .finished .yield none, .polled] _ _ rfl rfl (by decide)
    (show _ = [2] ++ 1 :: [] from rfl) (by decide)).1⟩

/-! ### Two tasks that yield -/

/-- `a` has yielded and `b` is next. -/
structure Waits (s : Loop) (a b : TaskId) (rest : List TaskId) : Prop where
  loc : s.loc = .yieldPoll a
  running : s.runningTask = none
  list : s.tasksReady = b :: rest
  state : (s.task a).state = .yield
  alive : (s.task a).stack ≠ [] ∧ (s.task b).stack ≠ []

/-- `b` runs and `a` is next. -/
structure Goes (s : Loop) (a b : TaskId) (rest : List TaskId) : Prop where
  loc : s.loc = .body
  running : s.runningTask = some b
  list : s.tasksReady = a :: rest
  alive : (s.task a).stack ≠ [] ∧ (s.task b).stack ≠ []

theorem Waits.step (h : Waits s a b rest) : ∃ t, s.step .polled = some t ∧ Goes t a b rest := by
  have hstep : s.step .polled = some (s.afterYield a) := by simp only [Loop.step, h.loc]
  obtain ⟨hst, -⟩ | ⟨-, -, heq⟩ := ({ s with tasksReady := rest } : Loop).schedule_cases a {}
  · have hstate : (({ s with tasksReady := rest } : Loop).task a).state = .yield := h.state
    rw [hstate] at hst
    rcases hst with hst | hst <;> cases hst
  · have hafter : s.afterYield a = (({ s with tasksReady := rest }.schedule a {}).1).startRun b := by
      simp only [Loop.afterYield, h.list]
    rw [heq] at hafter
    refine ⟨_, hstep, ?_⟩
    rw [hafter]
    refine ⟨rfl, rfl, rfl, ?_, ?_⟩
    · simpa [Loop.startRun] using h.alive.1
    · simp only [Loop.startRun, modify_task]
      split
      · exact h.alive.2
      · exact h.alive.2

theorem Goes.step (h : Goes s a b rest) (hne : a ≠ b) :
    ∃ t, s.step (.finished .yield none) = some t ∧ Waits t b a rest := by
  have hstep : s.step (.finished .yield none) = some (s.finished b .yield none) := by
    simp [Loop.step, h.loc, h.running, Loop.bodyStep, h.alive.2]
  refine ⟨_, hstep, ?_⟩
  refine ⟨rfl, rfl, h.list, ?_, ?_, ?_⟩
  · simp [Loop.finished]
  · simpa [Loop.finished] using h.alive.2
  · simpa [Loop.finished, hne] using h.alive.1

/-- The turns, by the number of steps that are done: `b` and `a` run, each after a poll. -/
def Turns (a b : TaskId) (rest : List TaskId) (n : Nat) (s : Loop) : Prop :=
  match n % 4 with
  | 0 => Waits s a b rest
  | 1 => Goes s a b rest
  | 2 => Waits s b a rest
  | _ => Goes s b a rest

/-- The engine is polled, and the task that runs yields again. -/
def turn (n : Nat) : Op := if n % 2 = 0 then .polled else .finished .yield none

theorem turns_step (hne : a ≠ b) (n : Nat) (s : Loop) (h : Turns a b rest n s) :
    ∃ t, s.step (turn n) = some t ∧ Turns a b rest (n + 1) t := by
  have hcases : n % 4 = 0 ∨ n % 4 = 1 ∨ n % 4 = 2 ∨ n % 4 = 3 := by omega
  rcases hcases with hn | hn | hn | hn
  · simp only [Turns, hn] at h
    simp only [Turns, turn, show n % 2 = 0 by omega, show (n + 1) % 4 = 1 by omega, if_true]
    exact h.step
  · simp only [Turns, hn] at h
    simp only [Turns, turn, show n % 2 = 1 by omega, show (n + 1) % 4 = 2 by omega, Nat.one_ne_zero, if_false]
    exact h.step hne
  · simp only [Turns, hn] at h
    simp only [Turns, turn, show n % 2 = 0 by omega, show (n + 1) % 4 = 3 by omega, if_true]
    exact h.step
  · simp only [Turns, hn] at h
    simp only [Turns, turn, show n % 2 = 1 by omega, show (n + 1) % 4 = 0 by omega, Nat.one_ne_zero, if_false]
    exact h.step hne.symm

theorem Turns.kept {n : Nat} (h : Turns a b rest n s) :
    rest <:+ s.tasksReady ∧ (s.runningTask = none ∨ s.runningTask = some a ∨ s.runningTask = some b) := by
  unfold Turns at h
  split at h
  · exact ⟨⟨[b], h.list.symm⟩, .inl h.running⟩
  · exact ⟨⟨[a], h.list.symm⟩, .inr (.inr h.running)⟩
  · exact ⟨⟨[a], h.list.symm⟩, .inl h.running⟩
  · exact ⟨⟨[b], h.list.symm⟩, .inr (.inl h.running)⟩

/-- When a task has yielded and another one is ready, the two can go on in turn forever: the engine is
    polled before each turn, and each of them runs at every other turn. Whatever else is ready stays in
    the list and never runs. -/
theorem yielding_starves (ops : List Op) (s : Loop) (hrun : Loop.init.exec ops = some s)
    (horderly : Runs.Meets Loop.step Orderly Loop.init ops) (hloc : s.loc = .yieldPoll a)
    (hlist : s.tasksReady = b :: rest) (hstate : (s.task a).state = .yield)
    (halive : (s.task a).stack ≠ [] ∧ (s.task b).stack ≠ []) :
    ∃ run : Nat → Loop, run 0 = s ∧
      Runs.Forever Loop.step run (fun n => if n % 2 = 0 then .polled else .finished .yield none) ∧
      (∀ n, (run (4 * n + 1)).runningTask = some b ∧ (run (4 * n + 3)).runningTask = some a) ∧
      ∀ n, ∀ v ∈ rest, v ∈ (run n).tasksReady ∧ (run n).runningTask ≠ some v := by
  have hinv : s.Inv := Runs.exec_invariant (fun _ _ _ h hop hstep => h.step hop hstep) ops
    Loop.init s hrun horderly Inv.init
  have hready : ∀ v ∈ b :: rest, v ≠ a := by
    rintro v hv rfl
    rw [(hinv.sound v (hlist ▸ hv)).1] at hstate
    cases hstate
  have hwaits : Waits s a b rest := ⟨hloc, hinv.idle (.inr (.inr ⟨a, hloc⟩)), hlist, hstate, halive⟩
  obtain ⟨run, hzero, hforever, hturns⟩ := Runs.exists_forever (I := Turns a b rest)
    (turns_step (hready b List.mem_cons_self).symm) hwaits
  refine ⟨run, hzero, hforever, fun n => ⟨?_, ?_⟩, fun n v hv => ?_⟩
  · have h := hturns (4 * n + 1)
    simp only [Turns, show (4 * n + 1) % 4 = 1 by omega] at h
    exact h.running
  · have h := hturns (4 * n + 3)
    simp only [Turns, show (4 * n + 3) % 4 = 3 by omega] at h
    exact h.running
  · obtain ⟨hbelow, hrunning⟩ := (hturns n).kept
    have hva : v ≠ a := hready v (List.mem_cons_of_mem b hv)
    have hvb : v ≠ b := by
      rintro rfl
      exact (List.nodup_cons.mp (hlist ▸ hinv.nodup)).1 hv
    refine ⟨hbelow.mem hv, fun hv' => ?_⟩
    rw [hv'] at hrunning
    rcases hrunning with hrunning | hrunning | hrunning
    · cases hrunning
    · exact hva (Option.some.inj hrunning)
    · exact hvb (Option.some.inj hrunning)

theorem yielding_starves_lastFirst : ∃ run : Nat → Loop, Loop.init.exec lastFirst = some (run 0) ∧
    Runs.Forever Loop.step run (fun n => if n % 2 = 0 then .polled else .finished .yield none) ∧
      (∀ n, (run (4 * n + 1)).runningTask = some 2 ∧ (run (4 * n + 3)).runningTask = some 0) ∧
      ∀ n, 1 ∈ (run n).tasksReady ∧ (run n).runningTask ≠ some 1 := by
  obtain ⟨run, hzero, hforever, hturns, hstarved⟩ := yielding_starves (a := 0) (b := 2) lastFirst _ rfl
    (by decide) rfl (show _ = 2 :: [1] from rfl) rfl ⟨by decide, by decide⟩
  exact ⟨run, hzero ▸ rfl, hforever, hturns, fun n => hstarved n 1 List.mem_cons_self⟩

end Jinx.Sched.Loop
