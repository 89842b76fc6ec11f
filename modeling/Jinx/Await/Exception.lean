import Jinx.Await.Machine

/-! A C++ exception in a callback, compared with `async_throw(ErrorAwaitable::CXXException)`.

    The `catch` block of `Awaitable::run` stores the error and goes on with state `Raise`, but it
    leaves `_task->_top` alone. While inline calls nest, `_top` is the frame that `Task::run` called,
    not the frame that is polled: a frame that throws while it is polled for the first time inside
    `async_call` is finalized without having handled its error, and so are its callers up to `_top`,
    which is polled again. Two states are compared by the logs their runs can show. -/

namespace Jinx.Await

namespace Machine

variable {s t u : Machine} {f : ObjId} {rest : List Activation}

/-- At a point inside the library nothing but the library goes on. -/
theorem step_internal {l : Label} (hstop : s.ctl ≠ .stopped) (huser : s.userCode = false)
    (h : s.step l = some t) : l = .tick := by
  cases l with
  | tick => rfl
  | act a =>
    simp only [step] at h
    split at h
    · simp at h
    · simp [huser] at h
  | _ => simp [step, hstop, huser] at h

/-- The C++ exception and the call of `async_throw` lead to the same state when the frame is the
    top of the task. -/
theorem catchException_eq (htask : (s.obj f).task = true) (htop : s.top = .obj f) :
    s.catchException f = s.asyncThrow f (makeError .cxxException) := by
  have hs : ({ s with top := .obj f } : Machine) = s := by rw [← htop]
  simp [catchException, asyncThrow, htask, hs, makeError, ErrorAwaitable.toInt]

/-- A frame that is not the top of the task is finalized right after its exception was caught. -/
theorem catchException_finalized (htask : (s.obj f).task = true) (htop : s.top ≠ .obj f)
    (hstack : s.stack = ⟨f, none⟩ :: rest) :
    ∃ v, (s.catchException f).tick = some v ∧ v.log = .finalized f :: s.log := by
  have hcatch : s.catchException f = { s.set f (fun o => { o with error := makeError .cxxException })
      with ctl := .returned .raise } := by simp [catchException, htask]
  refine ⟨(s.catchException f).afterCallback ⟨f, none⟩ .raise rest, ?_, ?_⟩
  · rw [hcatch]; simp [tick, hstack]
  · have hstops : ControlState.stops .raise = false := rfl
    rw [hcatch]
    simp [afterCallback, hstops, htask, htop, deliver_log, finalize]

/-- After `async_throw` the next event is the frame's own `handle_error`. -/
theorem asyncThrow_handled {e : Error} (htask : (s.obj f).task = true) (he : e.isSet = true)
    (hstack : s.stack = ⟨f, none⟩ :: rest) {ls : List Label}
    (hrun : (s.asyncThrow f e).exec ls = some t) :
    t.log = s.log ∨ .handled f e :: s.log <:+ t.log := by
  have hval : e.value ≠ 0 := by simpa using he
  have hthrow : s.asyncThrow f e = { s.set f (fun o => { o with error := e })
      with top := .obj f, ctl := .returned .raise } := by
    simp [asyncThrow, htask, hval, set]
  have hstops : ControlState.stops .raise = false := rfl
  rcases ls with _ | ⟨l₁, ls⟩
  · obtain rfl : s.asyncThrow f e = t := by simpa [exec, Runs.exec] using hrun
    exact .inl (asyncThrow_log s f e)
  · -- the loop goes on, since the frame is the top now
    obtain ⟨m, hm, hmt⟩ := Runs.exec_cons.mp hrun
    clear hrun
    obtain rfl := step_internal (by simp [hthrow]) (by simp [hthrow, userCode]) hm
    have hm' : m = { s.asyncThrow f e with ctl := .entering } := by
      rw [hthrow] at hm ⊢
      simpa [step, tick, hstack, afterCallback, hstops, htask, eq_comm] using hm
    rcases ls with _ | ⟨l₂, ls⟩
    · obtain rfl : m = t := by simpa [Runs.exec] using hmt
      exact .inl (by rw [hm']; exact asyncThrow_log s f e)
    · obtain ⟨v, hv, hvt⟩ := Runs.exec_cons.mp hmt
      obtain rfl := step_internal (by simp [hm']) (by simp [hm', userCode]) hv
      have hlog : v.log = .handled f e :: s.log := by
        rw [hm', hthrow] at hv
        simp only [step, tick, set_stack, hstack] at hv
        cases hv
        simp [enter, he]
      exact .inr (by rw [← hlog]; exact exec_log ls v t hvt)

/-- Where the frame is not the top of the task, the runs after the exception show a log that the runs
    after `async_throw` do not show. -/
theorem catchException_differs (htask : (s.obj f).task = true) (htop : s.top ≠ .obj f)
    (hstack : s.stack = ⟨f, none⟩ :: rest) :
    ¬ ∀ log, Runs.Shows step Machine.log (s.catchException f) log ↔
      Runs.Shows step Machine.log (s.asyncThrow f (makeError .cxxException)) log := by
  intro h
  obtain ⟨v, hv, hlog⟩ := catchException_finalized htask htop hstack
  obtain ⟨ls, w, hw, hwlog⟩ := (h (.finalized f :: s.log)).mp
    ⟨[.tick], v, by simp [Runs.exec, step, hv], hlog⟩
  rcases asyncThrow_handled htask (by decide) hstack hw with heq | hsuffix
  · simp [hwlog] at heq
  · rw [hwlog] at hsuffix
    have heq := hsuffix.eq_of_length (by simp)
    simp at heq

end Machine

/-- CORRECT: a callback that throws a C++ exception is followed by the same runs as one that calls
    `async_throw(ErrorAwaitable::CXXException)` if and only if its frame is the top of the task at
    that moment. -/
theorem exception_like_throw_iff (s t u : Machine) (f : ObjId) (rest : List Activation)
    (hctl : s.ctl = .polling) (hstack : s.stack = ⟨f, none⟩ :: rest)
    (htask : (s.obj f).task = true) (ht : s.step (.act .exception) = some t)
    (hu : s.step (.act (.throw (makeError .cxxException))) = some u) :
    (∀ log, Runs.Shows Machine.step Machine.log t log ↔ Runs.Shows Machine.step Machine.log u log) ↔
      s.top = .obj f := by
  obtain rfl : s.catchException f = t := by
    simpa [Machine.step, hstack, Machine.userCode, hctl, Machine.act] using ht
  obtain rfl : s.asyncThrow f (makeError .cxxException) = u := by
    simpa [Machine.step, hstack, Machine.userCode, hctl, Machine.act] using hu
  constructor
  · intro h
    by_contra htop
    exact Machine.catchException_differs htask htop hstack h
  · intro htop
    rw [Machine.catchException_eq htask htop]
    exact fun _ => Iff.rfl

/-- The entry of the task throws. -/
theorem exception_like_throw_entry :
    ∃ s t u, (Machine.init fun _ => false).exec [.spawn 0, .run, .tick, .tick] = some s ∧
      s.step (.act .exception) = some t ∧
      s.step (.act (.throw (makeError .cxxException))) = some u ∧
      ((∀ log, Runs.Shows Machine.step Machine.log t log ↔
        Runs.Shows Machine.step Machine.log u log) ↔ s.top = .obj 0) :=
  ⟨_, _, _, rfl, rfl, rfl, exception_like_throw_iff _ _ _ 0 [] rfl rfl rfl rfl rfl⟩

/-- The entry awaits awaitable `1`, which throws in its first poll: it is finalized, no
    `handle_error` is called, and the entry's next callback runs. -/
theorem exception_like_throw_inline :
    ∃ s t u v, (Machine.init fun _ => false).exec
        [.spawn 0, .run, .tick, .tick, .act (.call 1), .tick] = some s ∧
      s.step (.act .exception) = some t ∧
      s.step (.act (.throw (makeError .cxxException))) = some u ∧
      t.exec [.tick, .tick, .tick] = some v ∧
      v.log = [.polled 0 .later, .finalized 1, .polled 1 .start, .called (.obj 0) 1,
        .polled 0 .start, .called .task 0] ∧
      ¬ ∀ log, Runs.Shows Machine.step Machine.log t log ↔
        Runs.Shows Machine.step Machine.log u log :=
  ⟨_, _, _, _, rfl, rfl, rfl, rfl, rfl, Machine.catchException_differs rfl (by decide) rfl⟩

end Jinx.Await
