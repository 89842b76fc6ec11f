import Jinx.Await.Inline
import Jinx.Await.Nest

/-! A program runs to the end, whatever waits, with the log that `eval` says; what is visible of it
    is the log of the run in which every callee finishes inside `async_call`. -/

namespace Jinx.Await

/-- The log of a whole run, its first event first. -/
def Code.log (p : Code) : List Event :=
  let o := p.eval 0 .start 1
  .called .task 0 :: o.events ++ [.exited (o.error.getD {})]

/-- The task has exited, and nothing goes on. -/
structure Config.Exited (c : Config) : Prop where
  state : c.m.state = .exited
  ctl : c.m.ctl = .stopped
  drive : c.drive = none

/-- The entry is polled once the task was spawned. -/
theorem Config.init_ready (p : Code) : ∃ c : Config, Config.Reaches (.init p) c ∧
    Ready c 0 .task [] .start ∧ c.code 0 = p ∧ c.m.log = [.called .task 0] ∧ c.fresh = 1 := by
  let c : Config := .init p
  let b : Config := { c with m := { c.m with ctl := .running } }
  have hb : c.drive = some b := rfl
  have htick : b.m.tick = some { b.m with stack := [⟨0, none⟩], ctl := .entering } := rfl
  refine ⟨_, .head hb (.single (drive_tick htick (by simp [b]))), ?_, rfl, rfl, rfl⟩
  exact {
    task := rfl, caller := rfl, plain := rfl, lt := Nat.zero_lt_one
    new := fun i hi => if_neg (Nat.ne_of_gt hi)
    taskError := rfl, awaiter := .inl rfl, below := .inl rfl, error := rfl, ctl := rfl
    stack := ⟨none, rfl⟩, routine := rfl, bound := by simp }

theorem Code.exits (p : Code) :
    ∃ d, Config.Reaches (.init p) d ∧ d.Exited ∧ d.m.log.reverse = p.log := by
  obtain ⟨c, hc, hready, hcode, hlog, hfresh⟩ := Config.init_ready p
  obtain ⟨d, hd, hdelivered⟩ := Config.code_runs p c 0 .task [] .start hready hcode
  obtain ⟨hctl, hstack, htop, herror⟩ := hdelivered.toTask rfl
  have htick : d.m.tick = some (({ d.m with
      top := .null, state := .exited, ctl := .stopped } : Machine).emit (.exited d.m.taskError)) := by
    simp [Machine.tick, hctl, Machine.runTop, htop]
  refine ⟨_, hc.trans (hd.trans (.single (Config.drive_tick htick (by simp [hctl])))), ?_, ?_⟩
  · exact ⟨rfl, rfl, rfl⟩
  · simp [Code.log, hdelivered.log, hlog, herror, hfresh]

/-- The log obeys the discipline. -/
theorem Code.disciplined (p : Code) : Disciplined p.log := by
  obtain ⟨started, -, hread⟩ := p.nests 0 1 [] .start [0] (by simp)
  generalize ho : p.eval 0 .start 1 = o at hread
  have hlast : Nest.read ⟨[], o.mode, started⟩ [.exited (o.error.getD {})] =
      some ⟨[], .over, started⟩ := by
    cases herr : o.error <;> simp [Nest.read, Runs.exec, Nest.step, Outcome.mode, herr]
  have hfirst : Nest.step {} (.called .task 0) = some ⟨[0], .due, [0]⟩ := rfl
  have hlog : p.log = .called .task 0 :: (o.events ++ [.exited (o.error.getD {})]) := by
    simp [Code.log, ho]
  rw [hlog]
  exact Nest.disciplined (Runs.exec_cons.mpr ⟨_, hfirst, Runs.exec_trans hread hlast⟩) rfl rfl

/-- Synchronous and suspended completion are indistinguishable: a program runs to the exit of its
    task, whatever waits; its log is the one `eval` gives and obeys the discipline, and without the
    polls that ended by waiting it is the log of the program that never waits. -/
theorem completion_indistinguishable (p : Code) :
    ∃ d d' : Config, Config.Reaches (.init p) d ∧ d.Exited ∧
      Config.Reaches (.init p.inline) d' ∧ d'.Exited ∧ (∀ f, .waited f ∉ d'.m.log) ∧
      visible d.m.log = d'.m.log ∧ d.m.log.reverse = p.log ∧ Disciplined d.m.log.reverse := by
  obtain ⟨d, hd, hexited, hlog⟩ := p.exits
  obtain ⟨d', hd', hexited', hlog'⟩ := p.inline.exits
  have hvisible := p.eval_visible 0 .start 1
  have hwaits : ∀ f, .waited f ∉ d'.m.log := by
    intro f hf
    rw [← List.mem_reverse, hlog'] at hf
    simp [Code.log, hvisible.waits] at hf
  refine ⟨d, d', hd, hexited, hd', hexited', hwaits, ?_, hlog, hlog ▸ p.disciplined⟩
  have hrev : d.m.log = .exited ((p.eval 0 .start 1).error.getD {}) ::
      ((p.eval 0 .start 1).events.reverse ++ [.called .task 0]) := by
    rw [← List.reverse_reverse d.m.log, hlog]
    simp [Code.log]
  have hrev' : d'.m.log = .exited ((p.inline.eval 0 .start 1).error.getD {}) ::
      ((p.inline.eval 0 .start 1).events.reverse ++ [.called .task 0]) := by
    rw [← List.reverse_reverse d'.m.log, hlog']
    simp [Code.log]
  rw [hrev, hrev', hvisible.error]
  exact congrArg _ (hvisible.events [.called .task 0])

end Jinx.Await
