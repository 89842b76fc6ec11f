import Jinx.Await.Resume

/-! Using a pausable awaitable again.

    `MixinPausable::async_poll` tells a new awaitable from a paused one by `_prev`, and no finalizer
    of the library clears it. An awaitable that is finalized while it is paused therefore keeps
    `_prev`, and the next await of it does not reach its callback: it returns at once when the new
    caller happens to be what `_prev` points to, and otherwise walks the call chain to look for the
    frame above it, which is not there. -/

namespace Jinx.Await

namespace Machine

variable {s t : Machine} {f P : ObjId} {a : Activation} {rest : List Activation}

/-- `P` was finalized, or never used, and is initialized. -/
structure Initialized (s : Machine) (P : ObjId) : Prop where
  pausable : (s.obj P).pausable = true
  task : (s.obj P).task = false
  routine : (s.obj P).routine = .start

/-- `P` with the null `_prev` of a new object; nothing else tells an initialized object from one. -/
def renew (s : Machine) (P : ObjId) : Machine := s.set P fun o => { o with prev := .null }

/-- Awaiting `P` polls its start callback, with nothing in between, and ends in the same state as
    awaiting a new object. -/
def AwaitStarts (s : Machine) (P : ObjId) : Prop :=
  ∃ n t f, s.stack.head?.map Activation.self = some f ∧
    s.exec (.act (.call P) :: List.replicate n .tick) = some t ∧
    (s.renew P).exec (.act (.call P) :: List.replicate n .tick) = some t ∧
    t.ctl = .polling ∧ t.log = .polled P .start :: .called (.obj f) P :: s.log

/-- What an await of a paused `P` goes through: nothing but the call was logged yet, or something
    else than the start of `P` was logged next. -/
def NotStarted (log : List Event) (f P : ObjId) (rest : List Activation) (s : Machine) : Prop :=
  (s.log = log ∧ (s.ctl = .crashed ∨
    s.stack = ⟨P, none⟩ :: rest ∧ (s.obj P).isPaused = true ∧ (s.obj P).caller = .obj f ∧
      (s.obj P).error.isSet = false ∧
      (s.ctl = .entering ∨ s.ctl = .returned .ready ∧ s.top = .obj f ∨ ∃ c, s.ctl = .walking c)))
  ∨ ∃ x, x ≠ .polled P .start ∧ x :: log <:+ s.log

theorem NotStarted.tick {log : List Event} (hne : f ≠ P) (h : NotStarted log f P rest s)
    (ht : s.tick = some t) : NotStarted log f P rest t := by
  rcases h with ⟨rfl, hctl | ⟨hstack, hpaused, hcaller, herr, hctl | ⟨hctl, htop⟩ | ⟨c, hctl⟩⟩⟩ |
    ⟨x, hx, hlog⟩
  · simp [Machine.tick, hctl] at ht
  · simp only [Machine.tick, hctl, hstack, Option.some.injEq] at ht
    subst ht
    simp only [enter, herr, Bool.false_eq_true, if_false, poll, hpaused, if_true]
    split
    · split
      · exact .inl ⟨rfl, .inl rfl⟩
      · split
        · exact .inr ⟨.reentered P, by simp,
            swapDone_first { s with stack := ⟨P, none⟩ :: rest } P _⟩
        · exact .inl ⟨rfl, .inr ⟨rfl, hpaused, hcaller, herr, .inr (.inr ⟨_, rfl⟩)⟩⟩
    · unfold asyncReturn
      split
      · exact .inl ⟨rfl, .inr ⟨rfl, hpaused, hcaller, herr, .inr (.inl ⟨rfl, hcaller⟩)⟩⟩
      · exact .inl ⟨rfl, .inl rfl⟩
  · simp only [Machine.tick, hctl, hstack, Option.some.injEq] at ht
    subst ht
    have hstops : ControlState.stops .ready = false := rfl
    have htop' : s.top ≠ .obj P := by simpa [htop] using hne
    simp only [afterCallback, hstops, Bool.false_eq_true, if_false, htop']
    split
    · exact .inl ⟨rfl, .inl rfl⟩
    · refine .inr ⟨.finalized P, by simp, ?_⟩
      rw [deliver_log]
      exact List.suffix_refl _
  · simp only [Machine.tick, hctl, hstack, Option.some.injEq] at ht
    subst ht
    unfold walk
    split
    · exact .inl ⟨rfl, .inl rfl⟩
    · split
      · have hfirst := swapDone_first (s.repairPrev P c) P c
        rw [repairPrev_log] at hfirst
        exact .inr ⟨.reentered P, by simp, hfirst⟩
      · exact .inl ⟨rfl, .inr ⟨hstack, hpaused, hcaller, herr, .inr (.inr ⟨_, rfl⟩)⟩⟩
  · exact .inr ⟨x, hx, hlog.trans (tick_log ht)⟩

theorem NotStarted.ticks {log : List Event} (hne : f ≠ P) :
    ∀ (n : Nat) (s : Machine), NotStarted log f P rest s →
      s.exec (List.replicate n .tick) = some t → NotStarted log f P rest t
  | 0, s, h, hrun => by
    obtain rfl : s = t := by simpa [exec, Runs.exec] using hrun
    exact h
  | n + 1, s, h, hrun => by
    obtain ⟨m, hm, hmt⟩ := Runs.exec_cons.mp hrun
    exact NotStarted.ticks hne n m (h.tick hne hm) hmt

/-- Awaiting is enabled in user code. -/
theorem step_call (huser : s.userCode = true) (hstack : s.stack = a :: rest) (g : ObjId) :
    s.step (.act (.call g)) = some (s.asyncCall a.self g) := by
  simp [Machine.step, hstack, huser, Machine.act]

/-- An awaitable that kept `_prev` does not start. -/
theorem not_awaitStarts (huser : s.userCode = true) (hstack : s.stack = a :: rest)
    (hne : a.self ≠ P) (hinit : s.Initialized P) (herr : s.NoError)
    (hprev : (s.obj P).prev ≠ .null) : ¬ s.AwaitStarts P := by
  rintro ⟨n, t, f, hf, hrun, -, -, hlog⟩
  obtain rfl : a.self = f := by simpa [hstack] using hf
  have hrun' : (s.asyncCall a.self P).exec (List.replicate n .tick) = some t := by
    simpa [exec, Runs.exec, step_call huser hstack] using hrun
  have hbegin : NotStarted (.called (.obj a.self) P :: s.log) a.self P s.stack
      (s.asyncCall a.self P) := by
    refine .inl ⟨rfl, .inr ⟨rfl, ?_, by simp [asyncCall], ?_, .inl rfl⟩⟩
    · simpa [asyncCall, Obj.isPaused, set_obj_ne _ _ hne.symm, hinit.pausable] using hprev
    · simpa [asyncCall, set_obj_ne _ _ hne.symm] using herr P
  rcases NotStarted.ticks hne n _ hbegin hrun' with ⟨heq, -⟩ | ⟨x, hx, hx'⟩
  · simp [hlog] at heq
  · rw [hlog] at hx'
    have heq := hx'.eq_of_length (by simp)
    exact hx (by simpa using heq)

/-- An awaitable whose `_prev` is null starts. -/
theorem awaitStarts (huser : s.userCode = true) (hstack : s.stack = a :: rest)
    (hne : a.self ≠ P) (hinit : s.Initialized P) (herr : s.NoError)
    (hprev : (s.obj P).prev = .null) : s.AwaitStarts P := by
  have hrenew : s.renew P = s := by
    simp only [renew, set]
    congr 1
    funext j
    rcases eq_or_ne j P with rfl | hj
    · simp [← hprev]
    · simp [hj]
  have hpolled : (s.asyncCall a.self P).tick = some ({ (s.asyncCall a.self P) with
      ctl := .polling }.emit (.polled P .start)) := by
    have herr' : (s.obj P).error.value = 0 := by simpa [Error.isSet] using herr P
    simp [Machine.tick, asyncCall, enter, poll, callback, Obj.isPaused, set_obj_ne _ _ hne.symm,
      herr', hprev, hinit.routine, emit]
  have hrun : s.exec [.act (.call P), .tick] = some ({ (s.asyncCall a.self P) with
      ctl := .polling }.emit (.polled P .start)) := by
    exact Runs.exec_cons.mpr ⟨_, step_call huser hstack P, Runs.exec_cons.mpr ⟨_, hpolled, rfl⟩⟩
  exact ⟨1, _, a.self, by simp [hstack], hrun, by rw [hrenew]; exact hrun, rfl, rfl⟩

/-- A walk that stays among pointers whose `_caller` is not `P` never ends. -/
theorem walk_forever {C : List Ptr} (hC : ∀ c ∈ C, c ≠ .null ∧ s.next c ≠ .obj a.self ∧ s.next c ∈ C)
    {c : Ptr} (hc : c ∈ C) (hctl : s.ctl = .walking c) (hstack : s.stack = a :: rest) (n : Nat) :
    ∃ d ∈ C, s.exec (List.replicate n .tick) = some { s with ctl := .walking d } := by
  induction n generalizing s c with
  | zero => exact ⟨c, hc, by simp [exec, ← hctl]⟩
  | succ n ih =>
    obtain ⟨hnull, hnext, hmem⟩ := hC c hc
    have hstep : s.step .tick = some { s with ctl := .walking (s.next c) } := by
      simp [step, Machine.tick, hctl, hstack, walk, hnull, hnext]
    obtain ⟨d, hd, hrun⟩ := ih (s := { s with ctl := .walking (s.next c) }) hC hmem rfl hstack
    exact ⟨d, hd, by rw [List.replicate_succ]; exact Runs.exec_cons.mpr ⟨_, hstep, hrun⟩⟩

end Machine

/-- CORRECT: an awaitable that was finalized and initialized starts as a new one when it is awaited
    if and only if its `_prev` is null, that is, if it was not paused when it was finalized. -/
theorem await_starts_iff (p : ObjId → Bool) (ls : List Label) (s : Machine) (a : Activation)
    (rest : List Activation) (P : ObjId) (hrun : (Machine.init p).exec ls = some s)
    (huser : s.userCode = true) (hstack : s.stack = a :: rest)
    (hcaller : (s.obj a.self).task = true) (hinit : s.Initialized P) :
    s.AwaitStarts P ↔ (s.obj P).prev = .null := by
  have herr : s.NoError := Machine.noError_of_exec hrun (.inl huser)
  have hne : a.self ≠ P := by
    intro hc
    simp [hc, hinit.task] at hcaller
  constructor
  · intro h
    by_contra hprev
    exact Machine.not_awaitStarts huser hstack hne hinit herr hprev h
  · exact Machine.awaitStarts huser hstack hne hinit herr

/-- Awaitable `1` is paused by its first callback, its awaiter, the entry `0`, returns, and it is
    finalized while it is paused. -/
def pauseAndReturn : List Label :=
  [.spawn 0, .run, .tick, .tick, .act (.call 1), .tick, .act .pause, .tick, .tick, .tick, .act .ret,
    .tick, .tick, .tick, .tick, .tick]

/-- A new task is spawned, whose entry `2` uses awaitable `1` again. -/
def useAgain : List Label := [.start 1, .spawn 2, .run, .tick, .tick]

/-- Awaitable `1` returns without having paused, and its awaiter `0` initializes it again. -/
def returnAndRenew : List Label :=
  [.spawn 0, .run, .tick, .tick, .act (.call 1), .tick, .act .ret, .tick, .tick, .tick, .start 1]

theorem await_starts_again :
    ∃ s, (Machine.init fun i => i == 1).exec returnAndRenew = some s ∧ .finalized 1 ∈ s.log ∧
      s.AwaitStarts 1 := by
  refine ⟨_, rfl, by decide, ?_⟩
  exact (await_starts_iff (fun i => i == 1) returnAndRenew _ ⟨0, none⟩ [] 1 rfl rfl rfl rfl
    ⟨rfl, rfl, rfl⟩).mpr rfl

/-- There the await of `1` does not poll its start callback: it walks the call chain for ever. -/
theorem await_starts_after_pause :
    ∃ s t, (Machine.init fun i => i == 1).exec (pauseAndReturn ++ useAgain) = some s ∧
      s.Initialized 1 ∧ ¬ s.AwaitStarts 1 ∧ s.exec [.act (.call 1), .tick] = some t ∧
      ∀ n, ∃ d, t.exec (List.replicate n .tick) = some { t with ctl := .walking d } := by
  refine ⟨_, _, rfl, ⟨rfl, rfl, rfl⟩, ?_, rfl, fun n => ?_⟩
  · refine Machine.not_awaitStarts (a := ⟨2, none⟩) rfl rfl (by decide) ⟨rfl, rfl, rfl⟩ ?_ (by decide)
    exact Machine.noError_of_exec (rfl : (Machine.init fun i => i == 1).exec
      (pauseAndReturn ++ useAgain) = some _) (.inl rfl)
  · exact (Machine.walk_forever (a := ⟨1, none⟩) (C := [.task, .obj 2]) (by decide)
      (List.mem_cons_self) rfl rfl n).imp fun _ h => h.2

end Jinx.Await
