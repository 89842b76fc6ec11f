import Jinx.Http.RawView
import Jinx.Lib.Runs
import Jinx.Posix.Retry
import Mathlib.Algebra.Group.Int.Defs
import Mathlib.Algebra.Group.Nat.Defs

/-! `StreamSend`: an operation that is started again from its own `async_poll` until the view is empty.

    One operation is awaited. The kernel, the event loop and `TaskQueue::cancel` are the labels; `tick`
    is the library going on by one call or return, as in `Await.Machine`. `sent` is what the kernel has
    accepted. `Inv` says for each point of the code what lies between `sent` and the view. -/

namespace Jinx.Posix
open Jinx Http

abbrev categoryEventEngine : Category := .other 2

/-- `ErrorEventEngine::FailedToRegisterIOEvent`. -/
def failedToRegisterIOEvent : Error := ⟨2, categoryEventEngine⟩

/-- `MSG_NOSIGNAL`. -/
abbrev SendFlags : Nat := 0x4000

/-- `PosixSend`. -/
structure PosixSend where
  ioHandle : Int := -1
  buffer : SliceConst := {}
  flags : Nat := 0
  deriving DecidableEq, Repr

/-- The callback that `MixinRoutine::_run` is bound to. -/
inductive SendRoutine where
  | asyncIo
  | uninitialized
  deriving DecidableEq, Repr

/-- A `StreamSend`, with the members of its base classes. -/
structure StreamSend where
  /-- `_task` is set -/
  task : Bool := false
  error : Error := {}
  routine : SendRoutine := .uninitialized
  result : Option Int := none
  ioImpl : PosixSend := {}
  /-- `_handle` is not empty -/
  handle : Bool := false
  /-- `_view` is set -/
  view : Bool := false
  deriving DecidableEq, Repr

/-- `Send::operator()`, for what is left in the view. -/
def StreamSend.send (o : StreamSend) (ioHandle : Int) (v : RawView) : StreamSend :=
  { o with
    result := none
    ioImpl := { ioHandle, buffer := v.sliceForConsumer, flags := SendFlags }
    routine := .asyncIo }

/-- `StreamSend::operator()`. -/
def StreamSend.start (o : StreamSend) (ioHandle : Int) (v : RawView) : StreamSend :=
  { o.send ioHandle v with view := true }

/-- `StreamSend::async_finalize`. -/
def StreamSend.finalize (o : StreamSend) : StreamSend :=
  { o with
    view := false, handle := false, ioImpl := {}, routine := .uninitialized, task := false, error := {} }

/-- What `_top` of the task points to. -/
inductive Top where
  | self | caller | other
  deriving DecidableEq, Repr

/-- Where control is. -/
inductive SendCtl where
  /-- the head of the loop in `Awaitable::run` -/
  | entering
  /-- `StreamSend::async_poll` is called -/
  | polling
  /-- `do_io` has called `send` -/
  | calling
  /-- `Send::async_poll` has returned -/
  | polled (st : ControlState)
  /-- `StreamSend::async_poll` has returned -/
  | returned (st : ControlState)
  /-- outside `Task::run` -/
  | suspended
  /-- `run` has finalized the operation, and the caller goes on -/
  | left
  | cancelled
  /-- `error::fatal` -/
  | aborted
  /-- a null pointer was followed, or the value of an empty `Optional` was taken -/
  | crashed
  deriving DecidableEq, Repr

/-- The operation, its view, and what it sets in the task and in its caller. -/
structure Sending where
  obj : StreamSend
  view : RawView
  top : Top := .other
  taskError : Error := {}
  callerError : Error := {}
  sent : List Byte := []
  ctl : SendCtl := .entering

namespace Sending

/-- `Awaitable::async_return`. -/
def asyncReturn (s : Sending) : Sending :=
  if s.obj.task then { s with top := .caller, ctl := .polled .ready } else { s with ctl := .crashed }

/-- `Awaitable::async_suspend`. -/
def asyncSuspend (s : Sending) : Sending :=
  if s.obj.task then { s with top := .self, ctl := .polled .suspended } else { s with ctl := .crashed }

/-- `Awaitable::async_throw`. -/
def asyncThrow (s : Sending) (e : Error) : Sending :=
  { s with
    top := if s.obj.task then .self else s.top
    obj := { s.obj with error := if e.value = 0 then makeError .invalidErrorCode else e }
    ctl := .polled .raise }

/-- `Send::async_poll`, up to the system call. -/
def asyncIo (s : Sending) : Sending :=
  match s.obj.routine with
  | .uninitialized => s.asyncThrow (makeError .uninitialized)
  | .asyncIo => if s.obj.result.isSome then s.asyncReturn else { s with ctl := .calling }

/-- `async_io` with the result of `do_io`; `added` is what `add_io` would return. -/
def afterIo (s : Sending) (r : IOResult) (added : ResultGeneric) : Sending :=
  if r.error.isSet then
    if r.error.category = categoryAgain then
      match added with
      | .failed => s.asyncThrow failedToRegisterIOEvent
      | .successful => { s with obj := { s.obj with handle := true } }.asyncSuspend
    else s.asyncThrow r.error
  else { s with obj := { s.obj with result := some r.int } }.asyncReturn

/-- A `long` as an argument of type `size_t`. -/
def toSizeT (n : Int) : Nat := (n % 2 ^ 64).toNat

/-- `StreamSend::async_poll`, after the call of `Send::async_poll`. -/
def afterSend (s : Sending) (st : ControlState) : Sending :=
  if st = .ready then
    match s.obj.view, s.obj.result with
    | true, some n =>
      match s.view.consume (toSizeT n) with
      | some v =>
        if v.size > 0 then
          { s with view := v, obj := s.obj.send s.obj.ioImpl.ioHandle v, ctl := .polling }
        else { s with view := v, ctl := .returned st }
      | none => { s with ctl := .aborted }
    | _, _ => { s with ctl := .crashed }
  else { s with ctl := .returned st }

/-- The head of the loop in `Awaitable::run`: an error goes to the caller, `handle_error` is the one of
    the base class. -/
def enter (s : Sending) : Sending :=
  if s.obj.error.isSet then
    { s with callerError := s.obj.error, top := .caller, obj := s.obj.finalize, ctl := .left }
  else { s with ctl := .polling }

/-- The rest of the loop in `Awaitable::run`. -/
def afterPoll (s : Sending) (st : ControlState) : Sending :=
  if st.stops then { s with ctl := .suspended }
  else if s.top ≠ .self then { s with obj := s.obj.finalize, ctl := .left }
  else { s with ctl := .entering }

def tick (s : Sending) : Option Sending :=
  match s.ctl with
  | .entering => some s.enter
  | .polling => some s.asyncIo
  | .polled st => some (s.afterSend st)
  | .returned st => some (s.afterPoll st)
  | _ => none

inductive SendLabel where
  /-- the library goes on -/
  | tick
  /-- `send` returns, and `add_io` if it is called -/
  | answer (r : IOResult) (added : ResultGeneric)
  /-- `io_callback` with an error, or another call of `async_resume`, and the next run of the task -/
  | resume (e : Error)
  /-- `TaskQueue::cancel` -/
  | cancel

/-- What `send` may answer when that many bytes are offered: an error, would-block among them, or how
    many of the bytes it has accepted, in a `long`. -/
def Answers (offered : Nat) (r : IOResult) : Prop :=
  r.error.isSet = true ∨ 0 ≤ r.int ∧ r.int ≤ offered ∧ r.int < 2 ^ 63

instance (offered : Nat) (r : IOResult) : Decidable (Answers offered r) :=
  inferInstanceAs (Decidable (_ ∨ _))

/-- The wrapper of the system call gives such an answer, unless a signal interrupts the call. -/
theorem send_answers (sys : System) {offered : Nat} (hintr : (sys .send).nth 0 ≠ .failure EINTR)
    (hsuccess : ∀ n, (sys .send).nth 0 = .success n → n ≤ offered ∧ n < 2 ^ 63)
    (hfailure : ∀ errno, (sys .send).nth 0 = .failure errno → errno ≠ 0) :
    ∃ r, Returns (Posix.send sys) r ∧ Answers offered r := by
  refine ⟨_, convert_returns hintr, ?_⟩
  cases hnth : (sys .send).nth 0 with
  | success n =>
    obtain ⟨hle, hlong⟩ := hsuccess n hnth
    refine .inr ⟨Int.natCast_nonneg n, Int.ofNat_le.mpr hle, ?_⟩
    show (n : Int) < 2 ^ 63
    omega
  | failure errno =>
    left
    rw [Error.isSet_iff]
    exact Int.natCast_ne_zero.mpr (hfailure errno hnth)

/-- The bytes that the kernel takes from the slice it was given. -/
def accepted (s : Sending) (r : IOResult) : List Byte :=
  if r.error.isSet then [] else (s.view.shows s.obj.ioImpl.buffer).take r.int.toNat

/-- One step; `none` where the label cannot happen. -/
def step (s : Sending) : SendLabel → Option Sending
  | .tick => s.tick
  | .answer r added =>
    if s.ctl = .calling ∧ Answers s.obj.ioImpl.buffer.size r then
      some ({ s with sent := s.sent ++ s.accepted r }.afterIo r added)
    else none
  | .resume e => if s.ctl = .suspended then some { s with taskError := e, ctl := .entering } else none
  | .cancel =>
    if s.ctl = .suspended then some { s with obj := s.obj.finalize, ctl := .cancelled } else none

abbrev exec : Sending → List SendLabel → Option Sending := Runs.exec step

/-- `async_await(stream_send(io_handle, view), ...)`: the operation is initialized and called. -/
def await (o : StreamSend) (ioHandle : Int) (v : RawView) : Sending :=
  { obj := { o.start ioHandle v with task := true }, view := v }

/-- The await has returned. -/
def Returned (s : Sending) : Prop := s.ctl = .left ∧ s.callerError.isSet = false

/-- The await has raised an error. -/
def Raised (s : Sending) (e : Error) : Prop :=
  s.ctl = .left ∧ s.callerError = e ∧ e.isSet = true

/-! ### What lies between the kernel and the view -/

/-- The operation can be polled: it has no result yet, and its slice is what the view holds. -/
structure Armed (o : StreamSend) (v : RawView) : Prop where
  task : o.task = true
  error : o.error.isSet = false
  routine : o.routine = .asyncIo
  result : o.result = none
  buffer : o.ioImpl.buffer = v.sliceForConsumer
  view : o.view = true

/-- An error was thrown, and the next turn of the loop in `run` will see it. -/
structure Thrown (o : StreamSend) (top : Top) : Prop where
  error : o.error.isSet = true
  top : top = .self

/-- The kernel has accepted bytes that are not yet consumed. -/
structure Accepted (content : List Byte) (s : Sending) : Prop where
  task : s.obj.task = true
  error : s.obj.error.isSet = false
  view : s.obj.view = true
  top : s.top = .caller
  result : ∃ n : Nat, s.obj.result = some (n : Int) ∧ n < 2 ^ 63 ∧ n ≤ s.view.size ∧
    s.sent ++ s.view.content.drop n = content

/-- What is not sent is in the view. -/
def Balanced (content : List Byte) (s : Sending) : Prop := s.sent ++ s.view.content = content

def Inv (content : List Byte) (s : Sending) : Prop :=
  match s.ctl with
  | .entering => Balanced content s ∧ (s.obj.error.isSet = true ∨ Armed s.obj s.view)
  | .polling | .calling | .suspended | .polled .suspended | .returned .suspended =>
    Balanced content s ∧ Armed s.obj s.view
  | .polled .ready => Accepted content s
  | .polled .raise | .returned .raise => Balanced content s ∧ Thrown s.obj s.top
  | .returned .ready => Balanced content s ∧ s.view.size = 0 ∧ s.top = .caller
  | .left => Balanced content s ∧ (s.callerError.isSet = true ∨ s.view.size = 0)
  | .cancelled => Balanced content s
  | _ => False

variable {content : List Byte} {s s' : Sending} {e : Error} {r : IOResult}

theorem toSizeT_natCast {n : Nat} (h : n < 2 ^ 63) : toSizeT n = n := by
  unfold toSizeT
  omega

theorem thrown_asyncThrow (htask : s.obj.task = true) (e : Error) :
    Thrown (s.asyncThrow e).obj (s.asyncThrow e).top := by
  refine ⟨?_, if_pos htask⟩
  show Error.isSet (if e.value = 0 then makeError .invalidErrorCode else e) = true
  split
  · rfl
  · next hvalue => exact (Error.isSet_iff e).mpr hvalue

/-- `send` offers what the view holds, so what it accepts is the front of that. -/
theorem Armed.accepted (h : Armed s.obj s.view) (hset : r.error.isSet = false) :
    s.accepted r = s.view.content.take r.int.toNat := by
  rw [Sending.accepted, hset, if_neg Bool.false_ne_true, h.buffer, RawView.shows_sliceForConsumer]

theorem inv_enter (hctl : s.ctl = .entering) (h : Inv content s) : Inv content s.enter := by
  simp only [Inv, hctl] at h
  obtain ⟨hbalanced, herror⟩ := h
  unfold enter
  split
  · next hset => exact ⟨hbalanced, .inl hset⟩
  · next hset => exact ⟨hbalanced, herror.resolve_left hset⟩

theorem inv_asyncIo (hctl : s.ctl = .polling) (h : Inv content s) : Inv content s.asyncIo := by
  simp only [Inv, hctl] at h
  obtain ⟨hbalanced, harmed⟩ := h
  simp only [asyncIo, harmed.routine, harmed.result, Option.isSome_none, Bool.false_eq_true, if_false]
  exact ⟨hbalanced, harmed⟩

theorem inv_afterIo (hctl : s.ctl = .calling) (h : Inv content s)
    (hr : Answers s.obj.ioImpl.buffer.size r) (added : ResultGeneric) :
    Inv content ({ s with sent := s.sent ++ s.accepted r }.afterIo r added) := by
  simp only [Inv, hctl] at h
  obtain ⟨hbalanced, harmed⟩ := h
  cases hset : r.error.isSet with
  | true =>
    -- nothing is accepted with an error
    have hsame : { s with sent := s.sent ++ s.accepted r } = s := by simp [accepted, hset]
    rw [hsame]
    simp only [afterIo, hset, if_true]
    split
    · cases added with
      | failed => exact ⟨hbalanced, thrown_asyncThrow harmed.task _⟩
      | successful =>
        simp only [asyncSuspend, harmed.task, if_true]
        exact ⟨hbalanced, ⟨rfl, harmed.error, harmed.routine, harmed.result, harmed.buffer, harmed.view⟩⟩
    · exact ⟨hbalanced, thrown_asyncThrow harmed.task _⟩
  | false =>
    obtain ⟨hnonneg, hle, hlong⟩ := hr.resolve_left (by simp [hset])
    obtain ⟨n, hn⟩ := Int.eq_ofNat_of_zero_le hnonneg
    have hsize : s.obj.ioImpl.buffer.size = s.view.size := by rw [harmed.buffer]; rfl
    simp only [afterIo, hset, Bool.false_eq_true, if_false, asyncReturn, harmed.task, if_true]
    have hn' : n < 2 ^ 63 ∧ n ≤ s.view.size := by omega
    refine ⟨rfl, harmed.error, harmed.view, rfl, n, congrArg some hn, hn'.1, hn'.2, ?_⟩
    show (s.sent ++ s.accepted r) ++ s.view.content.drop n = content
    rw [harmed.accepted hset, hn, Int.toNat_natCast, List.append_assoc, List.take_append_drop]
    exact hbalanced

theorem inv_afterSend {st : ControlState} (hctl : s.ctl = .polled st) (h : Inv content s) :
    Inv content (s.afterSend st) := by
  cases st with
  | ready =>
    simp only [Inv, hctl] at h
    obtain ⟨n, hresult, hlong, hn, hsent⟩ := h.result
    obtain ⟨v, hconsume, hcontent, -⟩ := RawView.consume_content hn
    have hvalue := toSizeT_natCast hlong
    simp only [afterSend, if_true, h.view, hresult, hvalue, hconsume]
    split
    · refine ⟨?_, ⟨h.task, h.error, rfl, rfl, rfl, h.view⟩⟩
      exact (congrArg (s.sent ++ ·) hcontent).trans hsent
    · next hsize =>
      refine ⟨?_, Nat.eq_zero_of_not_pos hsize, h.top⟩
      exact (congrArg (s.sent ++ ·) hcontent).trans hsent
  | raise | suspended =>
    simp only [Inv, hctl] at h
    exact h
  | yield | pause | passthrough | exited => simp [Inv, hctl] at h

theorem inv_afterPoll {st : ControlState} (hctl : s.ctl = .returned st) (h : Inv content s) :
    Inv content (s.afterPoll st) := by
  cases st with
  | ready =>
    simp only [Inv, hctl] at h
    obtain ⟨hbalanced, hsize, htop⟩ := h
    simp only [afterPoll, htop]
    exact ⟨hbalanced, .inr hsize⟩
  | raise =>
    simp only [Inv, hctl] at h
    obtain ⟨hbalanced, hthrown⟩ := h
    simp only [afterPoll, hthrown.top]
    exact ⟨hbalanced, .inl hthrown.error⟩
  | suspended =>
    simp only [Inv, hctl] at h
    exact h
  | yield | pause | passthrough | exited => simp [Inv, hctl] at h

theorem inv_step {l : SendLabel} (h : Inv content s) (hstep : step s l = some s') : Inv content s' := by
  cases l with
  | tick =>
    cases hctl : s.ctl <;> simp only [step, tick, hctl, Option.some.injEq, reduceCtorEq] at hstep
    case entering => exact hstep ▸ inv_enter hctl h
    case polling => exact hstep ▸ inv_asyncIo hctl h
    case polled st => exact hstep ▸ inv_afterSend hctl h
    case returned st => exact hstep ▸ inv_afterPoll hctl h
  | answer r added =>
    obtain ⟨⟨hctl, hr⟩, hs⟩ := Option.ite_none_right_eq_some.mp hstep
    obtain rfl := Option.some.inj hs
    exact inv_afterIo hctl h hr added
  | resume e =>
    obtain ⟨hctl, hs⟩ := Option.ite_none_right_eq_some.mp hstep
    obtain rfl := Option.some.inj hs
    simp only [Inv, hctl] at h
    exact ⟨h.1, .inr h.2⟩
  | cancel =>
    obtain ⟨hctl, hs⟩ := Option.ite_none_right_eq_some.mp hstep
    obtain rfl := Option.some.inj hs
    simp only [Inv, hctl] at h
    exact h.1

theorem inv_await (o : StreamSend) (ioHandle : Int) (v : RawView) :
    Inv v.content (await o ioHandle v) := by
  refine ⟨rfl, ?_⟩
  cases herror : o.error.isSet with
  | true => exact .inl herror
  | false => exact .inr ⟨rfl, herror, rfl, rfl, rfl, rfl⟩

theorem Inv.run {ls : List SendLabel} (h : Inv content s) (hrun : exec s ls = some s') :
    Inv content s' :=
  Runs.exec_invariant (fun _ _ _ hI _ hstep => inv_step hI hstep) ls s s' hrun (Runs.meets_true ls s) h

/-- What is accepted but not consumed is still at the front of the view. -/
theorem Inv.sent_prefix (h : Inv content s) : s.sent <+: content := by
  unfold Inv at h
  split at h
  case h_7 =>
    obtain ⟨n, -, -, -, hsent⟩ := h.result
    exact ⟨_, hsent⟩
  case h_12 => exact ⟨_, h⟩
  case h_13 => exact h.elim
  all_goals exact ⟨_, h.1⟩

/-- In every run the kernel accepts bytes from the front of the view: all of them where the await
    returns, and what it raises an error for is still in the view. -/
theorem sends_exactly_once (o : StreamSend) (ioHandle : Int) (v : RawView) {ls : List SendLabel}
    (hrun : exec (await o ioHandle v) ls = some s) :
    s.sent <+: v.content ∧ (s.Returned → s.sent = v.content ∧ s.view.size = 0) ∧
      (∀ e, s.Raised e → s.sent ++ s.view.content = v.content) ∧ s.ctl ≠ .aborted := by
  have h := (inv_await o ioHandle v).run hrun
  refine ⟨h.sent_prefix, ?_, ?_, ?_⟩
  · rintro ⟨hctl, herror⟩
    simp only [Inv, hctl] at h
    have hsize := h.2.resolve_left (by simp [herror])
    have hcontent : s.view.content = [] :=
      List.eq_nil_of_length_eq_zero (s.view.content_length.trans hsize)
    exact ⟨by simpa [Balanced, hcontent] using h.1, hsize⟩
  · rintro e ⟨hctl, -⟩
    simp only [Inv, hctl] at h
    exact h.1
  · intro hctl
    simp only [Inv, hctl] at h

/-- Two bytes are accepted, the third one would block; the await returns after the event. -/
theorem sends_exactly_once_resumed :
    ∃ s, exec (await {} 5 (RawView.resetFull (RawView.fresh 4096 [1, 2, 3])))
        [.tick, .tick, .answer ⟨{}, 2⟩ .successful, .tick, .tick,
          .answer ⟨⟨EAGAIN, categoryAgain⟩, -1⟩ .successful, .tick, .tick, .resume {}, .tick, .tick,
          .answer ⟨{}, 1⟩ .successful, .tick, .tick] = some s ∧
      s.Returned ∧ s.sent = [1, 2, 3] ∧ s.view.size = 0 := by
  have hrun : ∃ s, exec (await {} 5 (RawView.resetFull (RawView.fresh 4096 [1, 2, 3])))
      [.tick, .tick, .answer ⟨{}, 2⟩ .successful, .tick, .tick,
        .answer ⟨⟨EAGAIN, categoryAgain⟩, -1⟩ .successful, .tick, .tick, .resume {}, .tick, .tick,
        .answer ⟨{}, 1⟩ .successful, .tick, .tick] = some s ∧ s.Returned := ⟨_, rfl, rfl, rfl⟩
  obtain ⟨s, hrun, hreturned⟩ := hrun
  exact ⟨s, hrun, hreturned, (sends_exactly_once _ _ _ hrun).2.1 hreturned⟩

end Sending

end Jinx.Posix
