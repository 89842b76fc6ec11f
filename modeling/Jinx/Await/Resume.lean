import Jinx.Await.Machine

/-! Resuming a suspended task with an error.

    `TaskQueue::schedule` stores the error in the task, `Awaitable::run` looks for it in the
    awaitable. An awaitable's own `_error` is only ever set on its way from the frame that raises to
    the frame that handles: by the frame that throws, or by a callee for its caller, and then that
    frame is entered next. So nobody has an error while the task is suspended, and a resumed task
    polls its top again. -/

namespace Jinx.Await

namespace Machine

variable {s t : Machine} {f g i : ObjId} {a : Activation} {rest : List Activation}

/-- No awaitable has an error. -/
def NoError (s : Machine) : Prop := ∀ i, (s.obj i).error.isSet = false

/-- The awaitable whose `_error` may be set, according to where control is. -/
def MayHold (s : Machine) (i : ObjId) : Prop :=
  match s.ctl with
  | .crashed => True
  | .running => s.top = .obj i
  | .returned .ready => s.top = .obj i
  | .entering => s.stack.head?.map Activation.self = some i
  | .returned .raise => s.stack.head?.map Activation.self = some i
  | _ => False

/-- Errors are only where the next `run` of the library picks them up. -/
def ErrorInTransit (s : Machine) : Prop := ∀ i, (s.obj i).error.isSet = true → s.MayHold i

theorem NoError.inTransit (h : s.NoError) : s.ErrorInTransit := fun i hi => by simp [h i] at hi

/-- A record is written and keeps its error. -/
theorem NoError.set (h : s.NoError) {k : Obj → Obj} (hk : ∀ o, (k o).error = o.error) :
    (s.set f k).NoError := fun i => by
  rcases eq_or_ne i f with rfl | hi
  · simpa [hk] using h i
  · simpa [set_obj_ne s k hi] using h i

theorem NoError.setCaller (h : s.NoError) (p q : Ptr) : (s.setCaller p q).NoError := by
  cases p with
  | obj c => exact h.set (k := fun o => { o with caller := q }) fun _ => rfl
  | _ => exact h

theorem NoError.finalize (h : s.NoError) (f : ObjId) : (s.finalize f).NoError := fun i => by
  rcases eq_or_ne i f with rfl | hi
  · simp [Machine.finalize]
  · simpa [Machine.finalize, set_obj_ne s _ hi] using h i

/-- The frame that throws is the innermost one. -/
theorem NoError.asyncThrow (h : s.NoError) (e : Error) (hstack : s.stack = a :: rest) :
    (s.asyncThrow a.self e).ErrorInTransit := by
  intro i hi
  have hctl : (s.asyncThrow a.self e).ctl = .returned .raise := rfl
  have hst : (s.asyncThrow a.self e).stack = a :: rest := by
    unfold Machine.asyncThrow; simp only; split <;> exact hstack
  rcases eq_or_ne i a.self with rfl | hne
  · simp [MayHold, hctl, hst]
  · have : ((s.asyncThrow a.self e).obj i).error = (s.obj i).error := by
      unfold Machine.asyncThrow; simp only; split <;> simp [set_obj_ne _ _ hne]
    rw [this, h i] at hi
    simp at hi

theorem NoError.catchException (h : s.NoError) (hstack : s.stack = a :: rest) :
    (s.catchException a.self).ErrorInTransit := by
  unfold Machine.catchException
  split
  · intro i hi
    rcases eq_or_ne i a.self with rfl | hne
    · simp [MayHold, hstack]
    · simp [set_obj_ne _ _ hne, h i] at hi
  · exact NoError.inTransit (s := s.crash) h

theorem NoError.callback (h : s.NoError) (hstack : s.stack = a :: rest) :
    (s.callback a.self).ErrorInTransit := by
  unfold Machine.callback
  simp only
  split
  · exact NoError.asyncThrow (s := s.emit _) h _ hstack
  · exact NoError.inTransit (s := { s.emit _ with ctl := .polling }) h

theorem NoError.swapDone (h : s.NoError) (c : Ptr) (hstack : s.stack = a :: rest) :
    (s.swapDone a.self c).ErrorInTransit := by
  have h' := (h.setCaller c (s.obj a.self).prev).set (f := a.self)
    (k := fun o => { o with prev := .null }) fun _ => rfl
  exact NoError.callback (s := (Machine.set _ a.self _).emit _) h' (by simpa using hstack)

theorem NoError.asyncReturn (h : s.NoError) (f : ObjId) : (s.asyncReturn f).NoError := by
  unfold Machine.asyncReturn; split <;> exact h

theorem NoError.poll (h : s.NoError) (hstack : s.stack = a :: rest) :
    (s.poll a.self).ErrorInTransit := by
  unfold Machine.poll
  simp only
  split
  · split
    · split
      · exact NoError.inTransit (s := s.crash) h
      · split
        · exact h.swapDone _ hstack
        · exact NoError.inTransit (s := { s with ctl := .walking _ }) h
    · exact (h.asyncReturn _).inTransit
  · exact h.callback hstack

theorem NoError.repairPrev (h : s.NoError) (f : ObjId) (c : Ptr) :
    (s.repairPrev f c).NoError := by
  unfold Machine.repairPrev
  split
  · split
    · exact h.set (k := fun o => { o with prev := (s.obj f).prev }) fun _ => rfl
    · exact h
  · exact h

theorem NoError.walk (h : s.NoError) (c : Ptr) (hstack : s.stack = a :: rest) :
    (s.walk a.self c).ErrorInTransit := by
  unfold Machine.walk
  split
  · exact NoError.inTransit (s := s.crash) h
  · split
    · exact (h.repairPrev a.self c).swapDone c (by simpa using hstack)
    · exact NoError.inTransit (s := { s with ctl := .walking _ }) h

/-- The error of the innermost frame is taken out before anything else happens. -/
theorem ErrorInTransit.enter (h : s.ErrorInTransit) (hctl : s.ctl = .entering)
    (hstack : s.stack = a :: rest) : (s.enter a.self rest).ErrorInTransit := by
  have hself : ∀ i, i ≠ a.self → (s.obj i).error.isSet = false := fun i hi => by
    rw [Bool.eq_false_iff]
    intro hc
    have := h i hc
    simp only [MayHold, hctl, hstack, List.head?_cons, Option.map_some, Option.some.injEq] at this
    exact hi this.symm
  unfold Machine.enter
  simp only
  split
  · refine NoError.inTransit fun i => ?_
    rcases eq_or_ne i a.self with rfl | hi
    · simp
    · simpa [set_obj_ne _ _ hi] using hself i hi
  · next hclear =>
    refine NoError.poll (s := { s with stack := ⟨a.self, none⟩ :: rest }) (a := ⟨a.self, none⟩)
      (fun i => ?_) rfl
    rcases eq_or_ne i a.self with rfl | hi
    · exact Bool.eq_false_iff.mpr hclear
    · exact hself i hi

/-- `deliver` goes on with the code it is given, whoever runs next. -/
theorem NoError.deliver (h : s.NoError) (st : ControlState) (rest : List Activation) :
    (s.deliver st rest).NoError := by
  unfold Machine.deliver
  split
  · split <;> exact h
  · exact h

/-- The caller that got the error is the top of the task, so `Task::run` or the loop of the caller's
    own activation goes on with it. -/
theorem deliver_ready (hother : ∀ i, (s.obj i).error.isSet = true → s.top = .obj i)
    (rest : List Activation) : (s.deliver .ready rest).ErrorInTransit := by
  unfold Machine.deliver
  split
  · exact fun i hi => hother i hi
  · exact fun i hi => hother i hi

theorem propagate_inTransit (hother : ∀ i, i ≠ f → (s.obj i).error.isSet = false) (e : Error)
    (rest : List Activation) : (s.propagate f e rest).ErrorInTransit := by
  unfold Machine.propagate
  simp only
  split
  · exact fun _ _ => trivial
  · refine deliver_ready (fun i hi => ?_) rest
    rcases eq_or_ne i f with rfl | hif
    · simp [Machine.finalize] at hi
    · have hclear := hother i hif
      rcases hc : (s.obj f).caller with _ | _ | c
      · simp_all
      · simp [Machine.finalize, set_obj_ne _ _ hif, hc, setError, hclear] at hi
      · rcases eq_or_ne i c with rfl | hic
        · simp [Machine.finalize]
        · simp [Machine.finalize, set_obj_ne _ _ hif, hc, setError, set_obj_ne _ _ hic, hclear] at hi

/-- What the state `returned st` says about errors. -/
theorem ErrorInTransit.returned (h : s.ErrorInTransit) {st : ControlState}
    (hctl : s.ctl = .returned st) (hstack : s.stack = a :: rest) (hi : (s.obj i).error.isSet = true) :
    st = .raise ∧ i = a.self ∨ st = .ready ∧ s.top = .obj i := by
  have hm := h i hi
  cases st with
  | raise => exact .inl ⟨rfl, by simpa [MayHold, hctl, hstack, eq_comm] using hm⟩
  | ready => exact .inr ⟨rfl, by simpa [MayHold, hctl] using hm⟩
  | _ => simp [MayHold, hctl] at hm

theorem ErrorInTransit.afterCallback (h : s.ErrorInTransit) {st : ControlState}
    (hctl : s.ctl = .returned st) (hstack : s.stack = a :: rest) :
    (s.afterCallback a st rest).ErrorInTransit := by
  have hret : ∀ i, (s.obj i).error.isSet = true →
      st = .raise ∧ i = a.self ∨ st = .ready ∧ s.top = .obj i := fun i hi =>
    h.returned hctl hstack hi
  have hother : st ≠ .ready → ∀ i, i ≠ a.self → (s.obj i).error.isSet = false := by
    intro hst i hi
    rw [Bool.eq_false_iff]
    intro hc
    rcases hret i hc with ⟨-, h'⟩ | ⟨h', -⟩
    · exact hi h'
    · exact hst h'
  have hfin : ∀ i, ((s.finalize a.self).obj i).error.isSet = true →
      st = .ready ∧ s.top = .obj i := fun i hi => by
    rcases eq_or_ne i a.self with rfl | hne
    · simp [Machine.finalize] at hi
    · have hi' : (s.obj i).error.isSet = true := by
        simpa [Machine.finalize, set_obj_ne s _ hne] using hi
      rcases hret i hi' with ⟨-, h'⟩ | h'
      · exact absurd h' hne
      · exact h'
  have hready := eq_or_ne st .ready
  unfold Machine.afterCallback
  split
  · exact propagate_inTransit (hother (by simp)) _ _
  · exact propagate_inTransit (hother (by simp)) _ _
  · split
    · next hstops =>
      refine NoError.inTransit (NoError.deliver (fun i => ?_) _ _)
      rw [Bool.eq_false_iff]
      intro hc
      rcases hret i hc with ⟨rfl, -⟩ | ⟨rfl, -⟩ <;> simp [ControlState.stops, ControlState.toInt] at hstops
    · split
      · exact fun _ _ => trivial
      · split
        · next htop =>
          intro i hi
          rcases hret i hi with ⟨-, rfl⟩ | ⟨-, h'⟩
          · simp [MayHold, hstack]
          · obtain rfl : a.self = i := by simpa using htop.symm.trans h'
            simp [MayHold, hstack]
        · rcases hready with rfl | hst
          · exact deliver_ready (fun i hi => (hfin i hi).2) rest
          · refine NoError.inTransit (NoError.deliver (fun i => ?_) _ _)
            rw [Bool.eq_false_iff]
            exact fun hc => hst (hfin i hc).1

/-- Outside the library nobody has an error. -/
theorem ErrorInTransit.noError (h : s.ErrorInTransit)
    (hctl : s.userCode = true ∨ s.ctl = .stopped ∨ s.ctl = .cancelling ∨ ∃ c, s.ctl = .walking c) :
    s.NoError := by
  intro i
  rw [Bool.eq_false_iff]
  intro hi
  have hm := h i hi
  rcases hctl with hu | hc | hc | ⟨c, hc⟩
  · unfold userCode at hu
    cases hc : s.ctl <;> simp_all [MayHold]
  all_goals simp [MayHold, hc] at hm

theorem ErrorInTransit.tick (h : s.ErrorInTransit) (ht : s.tick = some t) : t.ErrorInTransit := by
  unfold Machine.tick at ht
  split at ht
  · next hctl =>
    cases ht
    unfold runTop
    split
    · exact fun _ _ => trivial
    · next htop =>
      refine NoError.inTransit fun i => ?_
      rw [Bool.eq_false_iff]
      intro hi
      have hm := h i hi
      simp [MayHold, hctl, htop] at hm
    · next f htop =>
      intro i hi
      have hm := h i hi
      simpa [MayHold, hctl, htop] using hm
  · next hctl =>
    cases ht
    have hn := h.noError (.inr (.inr (.inl hctl)))
    unfold unwind
    split
    · next f _ => exact NoError.inTransit (s := { s.finalize f with top := _ }) (hn.finalize f)
    · split
      · exact NoError.inTransit (s := { s with taskError := {}, ctl := .stopped }) hn
      · exact NoError.inTransit (s := { s with state := .exited, ctl := .stopped }) hn
  · next hctl hstack => cases ht; exact h.enter hctl hstack
  · next c _ _ hctl hstack =>
    cases ht
    exact (h.noError (.inr (.inr (.inr ⟨c, hctl⟩)))).walk c hstack
  · next hctl hstack => cases ht; exact h.afterCallback hctl hstack
  · simp at ht

theorem NoError.act (h : s.NoError) (hstack : s.stack = a :: rest) {k : Act}
    (ht : s.act a.self k = some t) : t.ErrorInTransit := by
  cases k with
  | call g =>
    cases ht
    have h' := (h.set (f := a.self) (k := fun o => { o with routine := .later }) fun _ => rfl)
    exact NoError.inTransit (s := (asyncCall s a.self g))
      (h'.set (f := g) (k := fun o => { o with caller := .obj a.self, task := _ }) fun _ => rfl)
  | ret => cases ht; exact (h.asyncReturn _).inTransit
  | throw e => cases ht; exact h.asyncThrow e hstack
  | suspend | yield =>
    cases ht
    unfold asyncWait
    split
    · exact NoError.inTransit (s := Machine.emit { s with top := _, ctl := _ } _) h
    · exact NoError.inTransit (s := s.crash) h
  | pause =>
    simp only [Machine.act] at ht
    split at ht
    · cases ht
      unfold asyncPause
      simp only
      split
      · exact NoError.inTransit (s := s.crash) h
      · split
        · have h₁ := (h.set (f := a.self)
            (k := fun o => { o with prev := s.next (s.obj a.self).caller }) fun _ => rfl).setCaller
              (s.obj a.self).caller (.obj a.self)
          have h₂ := NoError.set (s := { Machine.setCaller _ _ _ with top := (s.obj a.self).caller })
            (f := a.self) h₁ (k := fun o => { o with caller := s.next (s.obj a.self).caller })
            fun _ => rfl
          exact NoError.inTransit h₂
        · exact NoError.inTransit (s := s.crash) h
    · simp at ht
  | propagate =>
    simp only [Machine.act] at ht
    split at ht
    · cases ht; exact NoError.inTransit (s := { s with ctl := _ }) h
    · simp at ht
  | exception =>
    simp only [Machine.act] at ht
    split at ht
    · cases ht; exact h.catchException hstack
    · simp at ht

theorem ErrorInTransit.step (h : s.ErrorInTransit) {l : Label} (ht : s.step l = some t) :
    t.ErrorInTransit := by
  cases l with
  | tick => exact h.tick ht
  | act k =>
    simp only [Machine.step] at ht
    split at ht
    · simp at ht
    · next hstack =>
      split at ht
      · next hu => exact (h.noError (.inl hu)).act hstack ht
      · simp at ht
  | start f =>
    simp only [Machine.step] at ht
    split at ht
    · next hc =>
      cases ht
      have hn := h.noError (hc.1.imp id .inl)
      exact (hn.set (k := fun o => { o with routine := .start }) fun _ => rfl).inTransit
    · simp at ht
  | spawn r =>
    simp only [Machine.step] at ht
    split at ht
    · next hc =>
      cases ht
      have hn := (h.noError (.inr (.inl hc.1))).set (f := r)
        (k := fun o => { o with task := true, caller := .task }) fun _ => rfl
      exact NoError.inTransit (s := Machine.emit { s.set r _ with
        entry := .obj r, top := .obj r, taskError := {}, state := .ready } _) hn
    · simp at ht
  | resume e =>
    simp only [Machine.step] at ht
    split at ht
    · next hc =>
      have hn := h.noError (.inr (.inl hc))
      split at ht
      · cases ht; exact h
      · cases ht; exact NoError.inTransit (s := { s with state := .ready, taskError := e }) hn
    · simp at ht
  | run =>
    simp only [Machine.step] at ht
    split at ht
    · next hc =>
      cases ht
      exact NoError.inTransit (s := { s with ctl := .running }) (h.noError (.inr (.inl hc.1)))
    · simp at ht
  | cancel =>
    simp only [Machine.step] at ht
    split at ht
    · next hc =>
      cases ht
      exact NoError.inTransit (s := { s with ctl := .cancelling }) (h.noError (.inr (.inl hc.1)))
    · simp at ht

theorem ErrorInTransit.init (p : ObjId → Bool) : (Machine.init p).ErrorInTransit :=
  NoError.inTransit fun _ => rfl

theorem ErrorInTransit.of_exec {p : ObjId → Bool} {ls : List Label}
    (hrun : (Machine.init p).exec ls = some s) : s.ErrorInTransit :=
  Runs.exec_invariant (C := fun _ _ => True) (fun _ _ _ hi _ hs => ErrorInTransit.step hi hs) ls _ s
    hrun (Runs.meets_true ls _) (.init p)

theorem noError_of_exec {p : ObjId → Bool} {ls : List Label}
    (hrun : (Machine.init p).exec ls = some s) (hctl : s.userCode = true ∨ s.ctl = .stopped) :
    s.NoError :=
  (ErrorInTransit.of_exec hrun).noError (hctl.imp id .inl)

/-! ### A resumed task -/

/-- The task is resumed with `e` and run; the first thing that happens is that `A` handles `e`. -/
def RaisedAtSuspension (s : Machine) (A : ObjId) (e : Error) : Prop :=
  ∃ n t, s.exec (.resume e :: .run :: List.replicate n .tick) = some t ∧
    t.log = .handled A e :: s.log

/-- What a resumed task goes through: nothing was logged yet and `A`, which has no error, is entered,
    or something else than `A` handling `e` was logged first. -/
def NotRaised (log : List Event) (A : ObjId) (e : Error) (s : Machine) : Prop :=
  (s.log = log ∧ s.NoError ∧ (s.ctl = .crashed ∨ s.ctl = .running ∧ s.top = .obj A ∨
    s.stack = [⟨A, none⟩] ∧ (s.ctl = .entering ∨ s.ctl = .returned .ready ∨ ∃ c, s.ctl = .walking c)))
  ∨ ∃ x, x ≠ .handled A e ∧ x :: log <:+ s.log

section NotRaised

variable {A : ObjId} {e : Error}

theorem callback_first (s : Machine) (f : ObjId) :
    .polled f (s.obj f).routine :: s.log <:+ (s.callback f).log := by
  unfold Machine.callback
  simp only
  split
  · rw [asyncThrow_log]; exact List.suffix_refl _
  · exact List.suffix_refl _

theorem swapDone_first (s : Machine) (f : ObjId) (c : Ptr) :
    .reentered f :: s.log <:+ (s.swapDone f c).log := by
  refine List.IsSuffix.trans ?_ (callback_log _ f)
  simp

theorem NoError.poll_notRaised (h : s.NoError) (hstack : s.stack = [⟨A, none⟩]) :
    NotRaised s.log A e (s.poll A) := by
  unfold Machine.poll
  simp only
  split
  · split
    · split
      · exact .inl ⟨rfl, h, .inl rfl⟩
      · split
        · exact .inr ⟨_, by simp, swapDone_first s A _⟩
        · exact .inl ⟨rfl, h, .inr (.inr ⟨hstack, .inr (.inr ⟨_, rfl⟩)⟩)⟩
    · refine .inl ⟨asyncReturn_log s A, h.asyncReturn A, ?_⟩
      unfold Machine.asyncReturn
      split
      · exact .inr (.inr ⟨hstack, .inr (.inl rfl)⟩)
      · exact .inl rfl
  · exact .inr ⟨_, by simp, callback_first s A⟩

theorem NotRaised.tick {log : List Event} (h : NotRaised log A e s) (ht : s.tick = some t) :
    NotRaised log A e t := by
  rcases h with ⟨rfl, hn, hctl | ⟨hctl, htop⟩ | ⟨hstack, hctl | hctl | ⟨c, hctl⟩⟩⟩ | ⟨x, hx, hlog⟩
  · simp [Machine.tick, hctl] at ht
  · simp only [Machine.tick, hctl, runTop, htop, Option.some.injEq] at ht
    subst ht
    exact .inl ⟨rfl, hn, .inr (.inr ⟨rfl, .inl rfl⟩)⟩
  · simp only [Machine.tick, hctl, hstack, Option.some.injEq] at ht
    subst ht
    have heq : s.enter A [] = ({ s with stack := [⟨A, none⟩] } : Machine).poll A := by
      simp [Machine.enter, hn A]
    rw [heq]
    exact NoError.poll_notRaised (s := { s with stack := [⟨A, none⟩] }) hn rfl
  · simp only [Machine.tick, hctl, hstack, Option.some.injEq] at ht
    subst ht
    have hstops : ControlState.stops .ready = false := rfl
    simp only [Machine.afterCallback, hstops]
    simp only [Bool.false_eq_true, if_false]
    split
    · exact .inl ⟨rfl, hn, .inl rfl⟩
    · split
      · exact .inl ⟨rfl, hn, .inr (.inr ⟨hstack, .inl rfl⟩)⟩
      · exact .inr ⟨.finalized A, by simp, List.suffix_refl _⟩
  · simp only [Machine.tick, hctl, hstack, Option.some.injEq] at ht
    subst ht
    unfold Machine.walk
    split
    · exact .inl ⟨rfl, hn, .inl rfl⟩
    · split
      · have hfirst := swapDone_first (s.repairPrev A c) A c
        rw [repairPrev_log] at hfirst
        exact .inr ⟨_, by simp, hfirst⟩
      · exact .inl ⟨rfl, hn, .inr (.inr ⟨hstack, .inr (.inr ⟨_, rfl⟩)⟩)⟩
  · exact .inr ⟨x, hx, hlog.trans (tick_log ht)⟩

theorem NotRaised.ticks {log : List Event} :
    ∀ (n : Nat) (s : Machine), NotRaised log A e s → s.exec (List.replicate n .tick) = some t →
      NotRaised log A e t
  | 0, s, h, hrun => by
    obtain rfl : s = t := by simpa [exec, Runs.exec] using hrun
    exact h
  | n + 1, s, h, hrun => by
    obtain ⟨m, hm, hmt⟩ := Runs.exec_cons.mp hrun
    exact NotRaised.ticks n m (h.tick hm) hmt

/-- A task that is suspended while nobody has an error polls its top again. -/
theorem NoError.not_raised (h : s.NoError) (hctl : s.ctl = .stopped)
    (hstate : s.state = .suspended) (htop : s.top = .obj A) : ¬ s.RaisedAtSuspension A e := by
  rintro ⟨n, t, ht, hlog⟩
  have hstart : (({ s with state := .ready, taskError := e, ctl := .running } : Machine)).exec
      (List.replicate n .tick) = some t := by
    simpa [exec, Runs.exec, Machine.step, hctl, hstate, htop] using ht
  have hbegin : NotRaised s.log A e { s with state := .ready, taskError := e, ctl := .running } :=
    .inl ⟨rfl, h, .inr (.inl ⟨rfl, htop⟩)⟩
  have hnot := NotRaised.ticks n _ hbegin hstart
  rcases hnot with ⟨heq, -⟩ | ⟨x, hx, hx'⟩
  · simp [hlog] at heq
  · rw [hlog] at hx'
    have heq := hx'.eq_of_length (by simp)
    exact hx (by simpa using heq)

end NotRaised

end Machine

/-- CORRECT: no error that a suspended task is resumed with is raised at the point of suspension,
    whatever the run was that led there. -/
theorem resume_not_raised (p : ObjId → Bool) (ls : List Label) (s : Machine) (A : ObjId) (e : Error)
    (hrun : (Machine.init p).exec ls = some s) (hctl : s.ctl = .stopped)
    (hstate : s.state = .suspended) (htop : s.top = .obj A) : ¬ s.RaisedAtSuspension A e :=
  (Machine.noError_of_exec hrun (.inr hctl)).not_raised hctl hstate htop

/-- The run to a suspended entry. -/
def suspendEntry : List Label := [.spawn 0, .run, .tick, .tick, .act .suspend, .tick]

theorem resume_not_raised_entry :
    ∃ s, (Machine.init fun _ => false).exec suspendEntry = some s ∧
      ¬ s.RaisedAtSuspension 0 (makeError .cancelled) :=
  ⟨_, rfl, resume_not_raised (fun _ => false) suspendEntry _ 0 _ rfl rfl rfl rfl⟩

/-- The entry is resumed with an error, polled again as if nothing had happened, and returns: the
    task exits with the error all the same. -/
theorem resume_entry_exits :
    ∃ s t, (Machine.init fun _ => false).exec suspendEntry = some s ∧
      s.exec [.resume (makeError .cancelled), .run, .tick, .tick, .act .ret, .tick, .tick] = some t ∧
      t.log = [.exited (makeError .cancelled), .finalized 0, .polled 0 .start, .waited 0,
        .polled 0 .start, .called .task 0] ∧
      ¬ s.RaisedAtSuspension 0 (makeError .cancelled) :=
  ⟨_, _, rfl, rfl, rfl,
    (Machine.noError_of_exec (rfl : (Machine.init fun _ => false).exec suspendEntry = some _)
      (.inr rfl)).not_raised rfl rfl rfl⟩

end Jinx.Await
