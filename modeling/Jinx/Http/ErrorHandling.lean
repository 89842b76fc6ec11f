import Jinx.Http.WebApp

/-! How often a connection handles an error.

    `handle_error` recovers by awaiting something that can fail as well. Each error that is handled uses up
    some of `errorBudget`: the error page is sent once, then the stream is shut down. Only a shutdown
    that fails gives an error to a connection that has nothing left, so the task goes round for ever if
    and only if the shutdown fails again and again. -/

namespace Jinx.Http

variable {π : Type*} {app t : WebApp π}

namespace WebApp

/-- From the `i`-th label on the task neither suspends nor exits: every outcome comes without a
    suspension. -/
def Busy (label : Nat → Label) (i : Nat) : Prop := ∀ j ≥ i, label j ≠ .suspend

/-- `handle_error` is invoked only finitely often before the task suspends or exits. -/
def HandlingEnds (label : Nat → Label) : Prop :=
  ∀ i, Busy label i → ∃ N, ∀ n ≥ N, label n ≠ .handle

/-- The shutdown of the stream fails. -/
def ShutdownFails (app : WebApp π) (l : Label) : Prop :=
  app.phase = .shutdown ∧ ∃ n e, l = .streamFails n e

/-- The shutdown fails only finitely often before the task suspends or exits. -/
def ShutdownSettles (run : Nat → WebApp π) (label : Nat → Label) : Prop :=
  ∀ i, Busy label i → ∃ N, ∀ n ≥ N, ¬ ShutdownFails (run n) (label n)

/-! ### The budget -/

/-- The errors that can be handled before the stream is shut down: the first one may send a page. -/
def room (app : WebApp π) : Nat := if app.flagBrokenStream then 1 else 2

/-- The errors that can still be handled if no shutdown fails. -/
def errorBudget (app : WebApp π) : Nat :=
  match app.phase with
  | .parsing => 2
  | .shutdown | .exited | .failed => 0
  | _ => app.room

theorem room_bounds (app : WebApp π) : 1 ≤ app.room ∧ app.room ≤ 2 := by
  unfold room
  split <;> omega

theorem budget_throw (app : WebApp π) (e : Error) : (app.throw e).errorBudget = app.room := rfl

theorem budget_sendResponse (app : WebApp π) : app.sendResponse.errorBudget ≤ app.room := by
  have hroom := app.room_bounds
  unfold sendResponse
  split
  · exact Nat.zero_le _
  · exact hroom.1
  · exact Nat.le_refl _

theorem budget_handleRequest (app : WebApp π) : app.handleRequest.errorBudget ≤ app.room := by
  unfold handleRequest
  split
  · exact Nat.zero_le _
  · exact budget_sendResponse _

theorem budget_spawnPage (app : WebApp π) : app.spawnPage.errorBudget ≤ app.room := by
  unfold spawnPage
  split
  · exact Nat.le_refl _
  · dsimp only
    split
    · exact budget_handleRequest _
    · exact Nat.le_refl _
  · exact Nat.zero_le _

/-- The error page is sent with the flag set, and behind it there is only the shutdown. -/
theorem budget_sendErrorPage (app : WebApp π) (code : Nat) :
    (app.sendErrorPage code).errorBudget < app.room := by
  unfold sendErrorPage
  split
  · exact app.room_bounds.1
  · rename_i hflag
    have hle := budget_spawnPage
      { app with flagBrokenStream := true, errorCode := code, next := some .errorPage }
    have hroom : app.room = 2 := if_neg hflag
    exact hroom ▸ Nat.lt_of_le_of_lt hle Nat.one_lt_two

theorem budget_handleError (app : WebApp π) (e : Error) : (app.handleError e).errorBudget < app.room := by
  unfold handleError
  split
  · exact app.room_bounds.1
  · split
    · exact app.budget_sendErrorPage _
    · exact app.budget_sendErrorPage _

theorem budget_receiveError (app : WebApp π) (e : Error) :
    (app.receiveError e).errorBudget < app.room := by
  unfold receiveError
  split
  · exact app.room_bounds.1
  · exact app.budget_handleError e

theorem budget_preRoute (app : WebApp π) (r : Report) : (app.preRoute r).errorBudget ≤ 2 := by
  have hspawn : ∀ a : WebApp π, a.spawnPage.errorBudget ≤ 2 :=
    fun a => Nat.le_trans a.budget_spawnPage a.room_bounds.2
  unfold preRoute
  dsimp only
  split
  · split
    · exact Nat.zero_le _
    · split
      · exact hspawn _
      · exact hspawn _
  · exact Nat.le_trans (Nat.le_of_lt (budget_sendErrorPage _ 400)) (room_bounds _).2

theorem budget_finish (app : WebApp π) : app.finish.errorBudget ≤ app.room := by
  unfold finish
  split
  · split
    · exact app.budget_spawnPage
    · split
      · -- after `reset` there is no buffer for `init`
        exact Nat.zero_le _
      · exact Nat.zero_le _
  · exact Nat.zero_le _

theorem budget_handleParserResult (app : WebApp π) (r : Report) :
    (app.handleParserResult r).errorBudget ≤ app.room := by
  unfold handleParserResult
  split
  · dsimp only
    split <;> split <;> exact Nat.le_refl _
  · split
    · exact app.budget_handleRequest
    · exact Nat.le_refl _
  · exact Nat.le_refl _
  · exact Nat.le_refl _
  · exact Nat.zero_le _
  · exact Nat.le_refl _

theorem budget_act (app : WebApp π) (hphase : app.phase = .running) (a : PageAction) :
    (app.act a).errorBudget ≤ app.room := by
  have hstays : ∀ b : HTTPBuilder, ({ app with builder := b } : WebApp π).errorBudget ≤ app.room := by
    intro b
    simp [errorBudget, hphase, room]
  cases a with
  | parseHeader => exact Nat.le_refl _
  | writeResponseLine status text =>
    simp only [act]
    split
    · exact Nat.zero_le _
    · exact hstays _
  | writeResponseField name value =>
    simp only [act]
    split
    · exact Nat.zero_le _
    · exact hstays _
  | sendResponse => exact app.budget_sendResponse
  | redirect path behind =>
    simp only [act]
    split
    · exact Nat.zero_le _
    · exact budget_finish _
  | ret => exact app.budget_finish
  | throw e => exact Nat.le_refl _

theorem budget_streamDone (app : WebApp π) : app.streamDone.errorBudget ≤ app.errorBudget := by
  unfold streamDone
  split
  · rename_i hphase
    have hroom : app.errorBudget = app.room := by simp [errorBudget, hphase]
    rw [hroom]
    split
    · exact Nat.zero_le _
    · dsimp only
      split <;> exact Nat.le_refl _
  · rename_i body hphase
    have hroom : app.errorBudget = app.room := by simp [errorBudget, hphase]
    exact hroom ▸ budget_finish _
  · exact Nat.zero_le _
  · exact Nat.le_refl _

/-- Only the failure of a shutdown comes after everything has been used up. -/
theorem budget_streamFails (app : WebApp π) (n : Nat) (e : Error) (h : app.phase ≠ .shutdown) :
    (app.streamFails n e).errorBudget ≤ app.errorBudget := by
  unfold streamFails
  split
  · rename_i hphase
    have hroom : app.errorBudget = app.room := by simp [errorBudget, hphase]
    rw [hroom]
    split
    · exact Nat.zero_le _
    · exact Nat.le_refl _
  · rename_i body hphase
    have hroom : app.errorBudget = app.room := by simp [errorBudget, hphase]
    exact hroom ▸ Nat.le_refl _
  · rename_i hphase
    have htwo : app.errorBudget = 2 := by simp [errorBudget, hphase]
    rw [budget_throw, htwo]
    exact app.room_bounds.2
  · rename_i hphase
    have hroom : app.errorBudget = app.room := by simp [errorBudget, hphase]
    exact hroom ▸ Nat.le_refl _
  · exact absurd ‹_› h
  · exact Nat.le_refl _

/-- One step: the budget grows only when a shutdown fails. -/
theorem budget_step {l : Label} (ht : app.step l = some t) (h : ¬ ShutdownFails app l) :
    t.errorBudget ≤ app.errorBudget := by
  cases l with
  | report r =>
    rcases step_report ht with ⟨hphase, rfl⟩ | ⟨hphase, rfl⟩
    · have htwo : app.errorBudget = 2 := by simp [errorBudget, hphase]
      exact htwo ▸ app.budget_preRoute r
    · have hroom : app.errorBudget = app.room := by simp [errorBudget, hphase]
      exact hroom ▸ app.budget_handleParserResult r
  | act a =>
    obtain ⟨hphase, rfl⟩ := step_act ht
    have hroom : app.errorBudget = app.room := by simp [errorBudget, hphase]
    exact hroom ▸ app.budget_act hphase a
  | streamDone =>
    obtain ⟨-, rfl⟩ := step_streamDone ht
    exact app.budget_streamDone
  | streamFails n e =>
    obtain ⟨-, rfl⟩ := step_streamFails ht
    exact app.budget_streamFails n e fun hphase => h ⟨hphase, n, e, rfl⟩
  | handle =>
    obtain ⟨e, hphase, rfl⟩ := step_handle ht
    have hroom : app.errorBudget = app.room := by simp [errorBudget, hphase]
    exact hroom ▸ Nat.le_of_lt (app.budget_receiveError e)
  | suspend =>
    obtain ⟨-, rfl⟩ := step_suspend ht
    exact Nat.le_refl _

/-- An error that is handled is paid for. -/
theorem budget_handle (ht : app.step .handle = some t) : t.errorBudget < app.errorBudget := by
  obtain ⟨e, hphase, rfl⟩ := step_handle ht
  have hroom : app.errorBudget = app.room := by simp [errorBudget, hphase]
  exact hroom ▸ app.budget_receiveError e

/-- After a shutdown has failed, the error is handled at once. -/
theorem handle_next {u : WebApp π} {l l' : Label} (h : ShutdownFails app l) (ht : app.step l = some t)
    (hu : t.step l' = some u) : l' = .handle := by
  obtain ⟨hphase, n, e, rfl⟩ := h
  have hraised : ∃ e', t.phase = .raised e' := by
    simp only [step, hphase, streamFails, Option.some.injEq] at ht
    obtain rfl := ht
    exact ⟨_, rfl⟩
  obtain ⟨e', hraised⟩ := hraised
  cases l' with
  | handle => rfl
  | suspend => simp [step, hraised, AppPhase.waits] at hu
  | report r | act a | streamDone | streamFails n e => simp [step, hraised] at hu

/-! ### For ever -/

section
variable {run : Nat → WebApp π} {label : Nat → Label}

theorem ShutdownSettles.handlingEnds (hrun : Runs.Forever step run label)
    (h : ShutdownSettles run label) : HandlingEnds label := by
  intro i hbusy
  obtain ⟨N, hN⟩ := h i hbusy
  have hle : ∀ n ≥ N, (run (n + 1)).errorBudget ≤ (run n).errorBudget :=
    fun n hn => budget_step (hrun n) (hN n hn)
  refine Runs.finite_of_decreasing (μ := fun n => (run n).errorBudget) N hle fun n _ hhandle => ?_
  have hstep := hrun n
  rw [hhandle] at hstep
  exact budget_handle hstep

theorem HandlingEnds.shutdownSettles (hrun : Runs.Forever step run label) (h : HandlingEnds label) :
    ShutdownSettles run label := by
  intro i hbusy
  obtain ⟨N, hN⟩ := h i hbusy
  exact ⟨N, fun n hn hfails => hN (n + 1) (by omega) (handle_next hfails (hrun n) (hrun (n + 1)))⟩

end

/-- FINITE: whatever the stream and the pages do, a connection handles only finitely many errors before it
    suspends or exits, if and only if its shutdown fails only finitely often before that. -/
theorem handling_ends_iff (run : Nat → WebApp π) (label : Nat → Label)
    (hrun : Runs.Forever step run label) : HandlingEnds label ↔ ShutdownSettles run label :=
  ⟨fun h => h.shutdownSettles hrun, fun h => h.handlingEnds hrun⟩

/-- `ECONNRESET` of the system. -/
def connectionReset : Error := ⟨104, .other 0⟩

/-- A connection whose stream fails, whatever is asked of it. -/
def failing : Nat → WebApp Unit
  | 0 => start (.mk [] () []) 1 1 1
  | n + 1 => if n % 2 = 0 then (failing n).throw connectionReset else (failing n).shutdown

def failingLabel (n : Nat) : Label :=
  if n % 2 = 0 then .streamFails 0 connectionReset else .handle

/-- By induction: the parser or the shutdown is awaited and fails, then the error is handled. -/
theorem failing_state (n : Nat) : (failing n).flagBrokenStream = true ∧
    (failing n).bypassed = false ∧
    if n % 2 = 0 then (failing n).phase = .parsing ∨ (failing n).phase = .shutdown
    else (failing n).phase = .raised connectionReset := by
  induction n with
  | zero => exact ⟨rfl, rfl, .inl rfl⟩
  | succ n ih =>
    rcases Nat.mod_two_eq_zero_or_one n with hn | hn
    · have hn' : (n + 1) % 2 = 1 := by omega
      simp only [failing, hn, hn', if_true]
      exact ⟨ih.1, ih.2.1, rfl⟩
    · have hn' : (n + 1) % 2 = 0 := by omega
      simp only [failing, hn, hn', if_true]
      exact ⟨ih.1, ih.2.1, .inr rfl⟩

theorem failing_forever : Runs.Forever step failing failingLabel := by
  intro n
  obtain ⟨hflag, hdirect, hphase⟩ := failing_state n
  rcases Nat.mod_two_eq_zero_or_one n with hn | hn
  · simp only [hn, if_true] at hphase
    simp only [failingLabel, failing, hn, if_true, step]
    rcases hphase with hphase | hphase <;> simp [hphase, streamFails]
  · rw [if_neg (by omega)] at hphase
    simp [failingLabel, failing, hn, step, hphase, receiveError, hdirect, handleError, connectionReset, categoryWebapp,
      sendErrorPage, hflag]

theorem handling_ends_failing : Runs.Forever step failing failingLabel ∧
    (HandlingEnds failingLabel ↔ ShutdownSettles failing failingLabel) :=
  ⟨failing_forever, handling_ends_iff failing failingLabel failing_forever⟩

/-- Read and shutdown fail every time: the error of the shutdown is handled by another shutdown. -/
theorem handling_never_ends : ¬ ∀ (run : Nat → WebApp Unit) (label : Nat → Label),
    run 0 = start (.mk [] () []) 1 1 1 → Runs.Forever step run label → HandlingEnds label := by
  intro hall
  have hbusy : Busy failingLabel 0 := by
    intro j _
    unfold failingLabel
    split <;> simp
  obtain ⟨N, hN⟩ := hall failing failingLabel rfl failing_forever 0 hbusy
  have hodd : (2 * N + 1) % 2 ≠ 0 := by omega
  exact hN (2 * N + 1) (by omega) (if_neg hodd)

end WebApp

end Jinx.Http
