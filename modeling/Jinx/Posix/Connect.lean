import Jinx.Posix.StreamSend

/-! `asyncio::Connect`, which is `AsyncIOCommon<PosixConnect>`, and the socket that it connects.

    The first call of `do_io` is one of `connect`, every later one reads `SO_ERROR`: `_connected` says
    that there was a first one, and not that the socket is connected. The socket does not block and
    nobody else has it. What the kernel decides about it are labels, as what `connect` answers within
    what POSIX and Linux have: on Linux the first call behind an attempt that has succeeded says so, and
    it is only the next one that fails with `EISCONN`. -/

namespace Jinx.Posix

abbrev EISCONN : Nat := 106
abbrev EALREADY : Nat := 114

/-- A stream socket. -/
inductive SocketState where
  | unconnected
  /-- `connect` was called, and the kernel goes on with it -/
  | connecting
  | connected
  /-- the attempt has failed, and the error is still to be read -/
  | refused (errno : Nat)
  /-- the connection has ended, with an error that is still to be read unless it is 0 -/
  | lost (errno : Nat)
  | closed
  deriving DecidableEq, Repr

namespace SocketState

/-- What the kernel may keep for `SO_ERROR`. -/
def Pending (errno : Nat) : Prop := errno ≠ 0 ∧ errno ≠ EINTR ∧ errno ≠ EINPROGRESS

instance (errno : Nat) : Decidable (Pending errno) := inferInstanceAs (Decidable (_ ∧ _))

/-- `getsockopt` with `SO_ERROR`: the error, which is taken off the socket. -/
def soError : SocketState → Nat × SocketState
  | .refused errno => (errno, .unconnected)
  | .lost errno => (errno, .closed)
  | s => (0, s)

/-- `connect` has found that there is no connection any more. -/
def ended : SysResult → Option SocketState
  | .success _ => none
  | .failure errno => if Pending errno then some .unconnected else none

/-- What `connect` does to the socket when it gives this result; `none` where it cannot. -/
def connect : SocketState → SysResult → Option SocketState
  | .unconnected, .success value => if value = 0 then some .connected else none
  | .unconnected, .failure errno =>
    if errno = EINPROGRESS ∨ errno = EINTR then some .connecting
    else if errno = 0 then none
    else some .unconnected
  | .connecting, r => if r = .failure EALREADY then some .connecting else none
  | .connected, r => if r = .success 0 ∨ r = .failure EISCONN then some .connected else none
  | .refused errno, r => if r = .failure errno then some .unconnected else none
  -- half of the connection may still be there
  | .lost errno, r => if r = .success 0 ∨ r = .failure EISCONN then some (.lost errno) else ended r
  | .closed, r => if r = .success 0 ∨ r = .failure EISCONN then some .closed else ended r

/-- There is a connection, or there will be one. -/
def Busy (s : SocketState) : Prop := s = .connecting ∨ s = .connected

/-- The socket is connected, or was until the other side or the network ended it. -/
def Established : SocketState → Prop
  | .connected | .lost _ | .closed => True
  | _ => False

instance (s : SocketState) : Decidable s.Busy := inferInstanceAs (Decidable (_ ∨ _))

variable {s t : SocketState} {r : SysResult}

/-- Once the kernel has decided, an error says that there is no connection, and its absence that there
    is or was one. -/
theorem soError_spec (hstarted : s ≠ .unconnected) (hdecided : s ≠ .connecting)
    (hpending : ∀ errno, s = .refused errno → Pending errno) :
    (s.soError.1 = 0 → s.soError.2.Established) ∧ (s.soError.1 ≠ 0 → ¬ s.soError.2.Busy) ∧
      ∀ errno, s.soError.2 ≠ .refused errno := by
  cases s with
  | unconnected => exact absurd rfl hstarted
  | connecting => exact absurd rfl hdecided
  | connected | closed => exact ⟨fun _ => trivial, fun h => absurd rfl h, by simp [soError]⟩
  | refused errno =>
    have hzero := (hpending errno rfl).1
    exact ⟨fun h => absurd h hzero, fun _ => by simp [soError, Busy], by simp [soError]⟩
  | lost errno => exact ⟨fun _ => trivial, fun _ => by simp [soError, Busy], by simp [soError]⟩

theorem ended_eq (h : ended r = some t) :
    ∃ errno, Pending errno ∧ r = .failure errno ∧ t = .unconnected := by
  cases r with
  | success value => cases h
  | failure errno =>
    simp only [ended, Option.ite_none_right_eq_some, Option.some.injEq] at h
    exact ⟨errno, h.1, rfl, h.2.symm⟩

/-- A call of `connect` that is not the first one starts nothing: it reports a connection that there is or
    was, or fails. -/
theorem connect_again (hstarted : s ≠ .unconnected)
    (hpending : ∀ errno, s = .refused errno → Pending errno) (h : s.connect r = some t) :
    (r = .success 0 ∧ t = s ∧ s.Established) ∨
      ∃ errno, Pending errno ∧ r = .failure errno ∧ (t.Busy ↔ s.Busy) ∧ ∀ e, t ≠ .refused e := by
  cases s with
  | unconnected => exact absurd rfl hstarted
  | connecting =>
    simp only [connect, Option.ite_none_right_eq_some, Option.some.injEq] at h
    obtain ⟨rfl, rfl⟩ := h
    exact .inr ⟨EALREADY, by decide, rfl, .rfl, by simp⟩
  | refused errno =>
    simp only [connect, Option.ite_none_right_eq_some, Option.some.injEq] at h
    obtain ⟨rfl, rfl⟩ := h
    exact .inr ⟨errno, hpending errno rfl, rfl, by simp [Busy], by simp⟩
  | connected =>
    simp only [connect, Option.ite_none_right_eq_some, Option.some.injEq] at h
    obtain ⟨rfl | rfl, rfl⟩ := h
    · exact .inl ⟨rfl, rfl, trivial⟩
    · exact .inr ⟨EISCONN, by decide, rfl, .rfl, by simp⟩
  | lost | closed =>
    simp only [connect] at h
    split at h
    · next hr =>
      obtain rfl := Option.some.inj h
      rcases hr with rfl | rfl
      · exact .inl ⟨rfl, rfl, trivial⟩
      · exact .inr ⟨EISCONN, by decide, rfl, .rfl, by simp⟩
    · obtain ⟨errno, herrno, rfl, rfl⟩ := ended_eq h
      exact .inr ⟨errno, herrno, rfl, by simp [Busy], by simp⟩

end SocketState

/-- One turn of the loop of `EventEngineLibevent::connect`. -/
def Retry.connectOnce (r : SysResult) (s : Retry) : Retry :=
  let result := s.result.setResult r.res
  match r with
  | .failure errno =>
    if errno = EINPROGRESS then
      { result := { result with error := ⟨errno, categoryAgain⟩ }, err := errno, calls := s.calls + 1 }
    else
      { result := { result with error := ⟨errno, categoryPosix⟩ }, err := errno, calls := s.calls + 1 }
  | .success _ => { s with result, calls := s.calls + 1 }

/-- It is the body of the loop, where the results are known beforehand. -/
theorem connectBody_eq (sys : System) (s : Retry) :
    connectBody sys s = s.connectOnce ((sys .connect).nth s.calls) := rfl

theorem connectOnce_result (errno : Nat) (s : Retry) :
    (s.connectOnce (.failure errno)).result = classify (· = EINPROGRESS) (.failure errno) := by
  simp only [Retry.connectOnce, classify]
  split <;> rfl

theorem connectOnce_interrupted (errno : Nat) (s : Retry) :
    (s.connectOnce (.failure errno)).interrupted = true ↔ errno = EINTR := by
  simp only [Retry.connectOnce]
  split <;> simp [Retry.interrupted]

inductive ConnectPhase where
  /-- nobody awaits the operation -/
  | idle
  /-- `async_io` will be called -/
  | polling
  /-- in `EventEngineLibevent::connect` -/
  | calling (r : Retry)
  | suspended
  | returned (value : Int)
  | raised (e : Error)
  deriving DecidableEq, Repr

/-- The operation, which may be awaited again and again, and the socket. -/
structure Connecting where
  socket : SocketState := .unconnected
  /-- `_connected` -/
  connected : Bool := false
  result : Option Int := none
  /-- `_handle` is not empty -/
  handle : Bool := false
  phase : ConnectPhase := .idle
  deriving DecidableEq, Repr

inductive ConnectLabel where
  /-- `operator()`, and the await -/
  | start
  /-- the task runs; `fails` is the `errno` of `getsockopt`, if that fails -/
  | poll (fails : Option Nat) (added : ResultGeneric)
  /-- `connect` returns; `added` is what `add_io` would return -/
  | call (r : SysResult) (added : ResultGeneric)
  /-- libevent calls `io_callback` -/
  | event
  /-- the task is resumed by others -/
  | resume
  /-- the task is cancelled -/
  | cancel
  /-- the attempt succeeds -/
  | establish
  /-- the attempt fails -/
  | refuse (errno : Nat)
  /-- the connection ends -/
  | lose (errno : Nat)
  deriving DecidableEq, Repr

namespace Connecting

/-- `async_finalize`, when the await is over. -/
def leave (s : Connecting) (phase : ConnectPhase) : Connecting :=
  { s with connected := false, handle := false, phase }

@[simp] theorem leave_phase (s : Connecting) (phase : ConnectPhase) : (s.leave phase).phase = phase := rfl

@[simp] theorem leave_socket (s : Connecting) (phase : ConnectPhase) :
    (s.leave phase).socket = s.socket := rfl

/-- `async_io`, after `do_io`. -/
def afterIo (s : Connecting) (r : IOResult) (added : ResultGeneric) : Connecting :=
  if r.error.isSet then
    if r.error.category = categoryAgain then
      match added with
      | .failed => s.leave (.raised failedToRegisterIOEvent)
      | .successful => { s with handle := true, phase := .suspended }
    else s.leave (.raised r.error)
  else { s with result := some r.int }.leave (.returned r.int)

/-- `async_io`, up to the call of `connect`. -/
def asyncIo (s : Connecting) (fails : Option Nat) (added : ResultGeneric) : Connecting :=
  match s.result with
  | some value => s.leave (.returned value)
  | none =>
    if s.connected then
      match fails with
      | some errno => s.afterIo { error := ⟨errno, categoryPosix⟩, int := errno } added
      | none =>
        let (errno, socket) := s.socket.soError
        { s with socket }.afterIo { error := ⟨errno, categoryPosix⟩, int := errno } added
    else { s with connected := true, phase := .calling {} }

/-- One step; `none` where the label cannot happen. -/
def step (s : Connecting) : ConnectLabel → Option Connecting
  | .start =>
    match s.phase with
    | .idle | .returned _ | .raised _ =>
      some { s with result := none, connected := false, phase := .polling }
    | _ => none
  | .poll fails added =>
    if s.phase = .polling ∧ fails ≠ some 0 then some (s.asyncIo fails added) else none
  | .call r added =>
    match s.phase with
    | .calling retry =>
      (s.socket.connect r).map fun socket =>
        let retry := retry.connectOnce r
        if retry.interrupted then { s with socket, phase := .calling retry }
        else { s with socket }.afterIo retry.result added
    | _ => none
  -- a socket that is connecting cannot be written to
  | .event =>
    if s.phase = .suspended ∧ s.handle = true ∧ s.socket ≠ .connecting then
      some { s with phase := .polling }
    else none
  | .resume => if s.phase = .suspended then some { s with phase := .polling } else none
  | .cancel => if s.phase = .suspended ∨ s.phase = .polling then some (s.leave .idle) else none
  | .establish => if s.socket = .connecting then some { s with socket := .connected } else none
  | .refuse errno =>
    if s.socket = .connecting ∧ SocketState.Pending errno then
      some { s with socket := .refused errno }
    else none
  | .lose errno =>
    if s.socket = .connected ∧ (errno = 0 ∨ SocketState.Pending errno) then
      some { s with socket := .lost errno }
    else none

abbrev exec : Connecting → List ConnectLabel → Option Connecting := Runs.exec step

/-- What the await says of the socket is true. -/
structure Truthful (s : Connecting) : Prop where
  returned : ∀ value, s.phase = .returned value → s.socket.Established
  raised : ∀ e, s.phase = .raised e → e = failedToRegisterIOEvent ∨ ¬ s.socket.Busy

/-- `SO_ERROR` is not read before the kernel has decided, and neither `getsockopt` nor `connect` fails
    where there is a connection or an attempt at one. -/
def Careful (s : Connecting) : ConnectLabel → Prop
  | .poll none _ => s.connected = true → s.socket ≠ .connecting
  | .poll (some _) _ => s.connected = true → ¬ s.socket.Busy
  | .call r _ => s.socket.Busy → r = .success 0
  | _ => True

/-- What the program and the kernel can do for that: an await begins where there is no connection, only
    the event resumes the task, `getsockopt` does not fail and no signal interrupts `connect`. -/
def Disciplined (s : Connecting) : ConnectLabel → Prop
  | .start => ¬ s.socket.Busy
  | .resume => False
  | .poll fails _ => fails = none
  | .call r _ => r ≠ .failure EINTR
  | _ => True

instance (s : Connecting) : (a : ConnectLabel) → Decidable (s.Careful a)
  | .poll none _ | .poll (some _) _ | .call _ _ => inferInstanceAs (Decidable (_ → _))
  | .start | .event | .resume | .cancel | .establish | .refuse _ | .lose _ => .isTrue trivial

instance (s : Connecting) : (a : ConnectLabel) → Decidable (s.Disciplined a)
  | .start => inferInstanceAs (Decidable (¬ _))
  | .resume => .isFalse id
  | .poll fails _ => inferInstanceAs (Decidable (fails = none))
  | .call r _ => inferInstanceAs (Decidable (r ≠ _))
  | .event | .cancel | .establish | .refuse _ | .lose _ => .isTrue trivial

/-! ### What holds between two steps -/

structure Inv (s : Connecting) : Prop extends Truthful s where
  pending : ∀ errno, s.socket = .refused errno → SocketState.Pending errno
  waiting : s.phase = .polling ∨ s.phase = .suspended →
    s.result = none ∧ (s.connected = true → s.socket ≠ .unconnected)
  calling : ∀ r, s.phase = .calling r →
    s.result = none ∧ (r.result.error.isSet = false ∧ r.err = 0 ∨ r.err = EINTR ∧ s.socket ≠ .unconnected)

variable {s t : Connecting} {r : IOResult} {fails : Option Nat} {added : ResultGeneric}

theorem step_start (ht : s.step .start = some t) :
    t = { s with result := none, connected := false, phase := .polling } := by
  simp only [step] at ht
  split at ht
  all_goals cases ht
  all_goals rfl

theorem step_poll (ht : s.step (.poll fails added) = some t) :
    s.phase = .polling ∧ fails ≠ some 0 ∧ t = s.asyncIo fails added := by
  simp only [step, Option.ite_none_right_eq_some, Option.some.injEq] at ht
  exact ⟨ht.1.1, ht.1.2, ht.2.symm⟩

theorem step_call {r : SysResult} (ht : s.step (.call r added) = some t) : ∃ retry socket,
    s.phase = .calling retry ∧ s.socket.connect r = some socket ∧
      (if (retry.connectOnce r).interrupted then
        { s with socket, phase := .calling (retry.connectOnce r) }
      else ({ s with socket } : Connecting).afterIo (retry.connectOnce r).result added) = t := by
  simp only [step] at ht
  split at ht
  · rename_i retry hphase
    obtain ⟨socket, hsocket, ht⟩ := Option.map_eq_some_iff.mp ht
    exact ⟨retry, socket, hphase, hsocket, ht⟩
  · cases ht

theorem step_event (ht : s.step .event = some t) :
    s.phase = .suspended ∧ s.socket ≠ .connecting ∧ t = { s with phase := .polling } := by
  simp only [step, Option.ite_none_right_eq_some, Option.some.injEq] at ht
  exact ⟨ht.1.1, ht.1.2.2, ht.2.symm⟩

theorem step_resume (ht : s.step .resume = some t) :
    s.phase = .suspended ∧ t = { s with phase := .polling } := by
  simp only [step, Option.ite_none_right_eq_some, Option.some.injEq] at ht
  exact ⟨ht.1, ht.2.symm⟩

theorem step_cancel (ht : s.step .cancel = some t) : t = s.leave .idle := by
  simp only [step, Option.ite_none_right_eq_some, Option.some.injEq] at ht
  exact ht.2.symm

/-- The kernel decides something, where there was a connection or an attempt at one. -/
structure Decided (s t : Connecting) : Prop where
  same : t = { s with socket := t.socket }
  busy : s.socket.Busy
  established : s.socket.Established → t.socket.Established
  ne : t.socket ≠ .connecting ∧ t.socket ≠ .unconnected
  pending : ∀ errno, t.socket = .refused errno → SocketState.Pending errno

theorem decided_establish (ht : s.step .establish = some t) : Decided s t := by
  simp only [step, Option.ite_none_right_eq_some, Option.some.injEq] at ht
  obtain ⟨hsocket, rfl⟩ := ht
  exact ⟨rfl, .inl hsocket, fun _ => trivial, ⟨by simp, by simp⟩, by simp⟩

theorem decided_refuse {errno : Nat} (ht : s.step (.refuse errno) = some t) : Decided s t := by
  simp only [step, Option.ite_none_right_eq_some, Option.some.injEq] at ht
  obtain ⟨⟨hsocket, hpending⟩, rfl⟩ := ht
  refine ⟨rfl, .inl hsocket, fun h => ?_, ⟨by simp, by simp⟩, fun e he => ?_⟩
  · rw [hsocket] at h
    exact h.elim
  · exact SocketState.refused.inj he ▸ hpending

theorem decided_lose {errno : Nat} (ht : s.step (.lose errno) = some t) : Decided s t := by
  simp only [step, Option.ite_none_right_eq_some, Option.some.injEq] at ht
  obtain ⟨⟨hsocket, -⟩, rfl⟩ := ht
  exact ⟨rfl, .inr hsocket, fun _ => trivial, ⟨by simp, by simp⟩, by simp⟩

theorem Inv.leave_idle (hs : s.Inv) : (s.leave .idle).Inv :=
  ⟨⟨by simp, by simp⟩, hs.pending, by simp, by simp⟩

/-- The decision takes no connection away that there was, and makes none where there was no attempt. -/
theorem Inv.decided (hs : s.Inv) (h : Decided s t) : t.Inv := by
  obtain ⟨hsame, hbusy, hestablished, hne, hpending⟩ := h
  rw [hsame]
  refine ⟨⟨fun value hv => hestablished (hs.returned value hv), fun e he => ?_⟩, hpending, ?_, ?_⟩
  · exact (hs.raised e he).imp_right fun hnot => absurd hbusy hnot
  · exact fun hp => ⟨(hs.waiting hp).1, fun _ => hne.2⟩
  · exact fun r hr => (hs.calling r hr).imp_right fun h => h.imp_right fun h => ⟨h.1, hne.2⟩

/-- An error of the system that is not the one of an attempt is raised. -/
theorem afterIo_failure (s : Connecting) {errno : Nat} (hzero : errno ≠ 0)
    (hother : errno ≠ EINPROGRESS) :
    s.afterIo (classify (· = EINPROGRESS) (.failure errno)) added =
      s.leave (.raised ⟨errno, categoryPosix⟩) := by
  simp [Connecting.afterIo, classify, Error.isSet, hzero, hother]

/-- How `async_io` ends, by what the result of `do_io` says of the socket. -/
theorem Inv.afterIo (hpending : ∀ errno, s.socket = .refused errno → SocketState.Pending errno)
    (hresult : s.result = none) (hsuccess : r.error.isSet = false → s.socket.Established)
    (hagain : r.error.category = categoryAgain → s.socket ≠ .unconnected)
    (hfailure : r.error.isSet = true → r.error.category ≠ categoryAgain → ¬ s.socket.Busy) :
    (s.afterIo r added).Inv := by
  unfold Connecting.afterIo
  split
  · rename_i hset
    split
    · rename_i hcategory
      cases added with
      | failed =>
        refine ⟨⟨by simp, fun e he => .inl ?_⟩, hpending, by simp, by simp⟩
        exact (ConnectPhase.raised.inj he).symm
      | successful =>
        exact ⟨⟨by simp, by simp⟩, hpending, fun _ => ⟨hresult, fun _ => hagain hcategory⟩, by simp⟩
    · rename_i hcategory
      exact ⟨⟨by simp, fun _ _ => .inr (hfailure hset hcategory)⟩, hpending, by simp, by simp⟩
  · rename_i hset
    exact ⟨⟨fun _ _ => hsuccess (Bool.not_eq_true _ ▸ hset), by simp⟩, hpending, by simp, by simp⟩

/-- Reading `SO_ERROR` once the kernel has decided. -/
theorem Inv.poll (hs : s.Inv) (hphase : s.phase = .polling) (hzero : fails ≠ some 0)
    (hcareful : s.Careful (.poll fails added)) : (s.asyncIo fails added).Inv := by
  obtain ⟨hresult, hattempt⟩ := hs.waiting (.inl hphase)
  simp only [asyncIo, hresult]
  split
  · rename_i hconnected
    cases fails with
    | some errno =>
      have herrno : errno ≠ 0 := fun h => hzero (h ▸ rfl)
      refine .afterIo hs.pending hresult (fun h => ?_) (by simp) fun _ _ => hcareful hconnected
      simp [Error.isSet, herrno] at h
    | none =>
      obtain ⟨hsuccess, hfailure, hread⟩ :=
        SocketState.soError_spec (hattempt hconnected) (hcareful hconnected) hs.pending
      refine .afterIo (fun errno h => absurd h (hread errno)) rfl (fun h => hsuccess ?_) (by simp)
        fun h _ => hfailure ?_
      · simpa [Error.isSet] using h
      · simpa [Error.isSet] using h
  · refine ⟨⟨by simp, by simp⟩, hs.pending, by simp, fun r hr => ⟨rfl, ?_⟩⟩
    obtain rfl := ConnectPhase.calling.inj hr
    exact .inl ⟨rfl, rfl⟩

/-- `connect` has failed, and not by an interruption. -/
theorem Inv.failure {retry : Retry} {errno : Nat} {socket : SocketState}
    (hpending : ∀ e, socket = .refused e → SocketState.Pending e) (hresult : s.result = none)
    (herrno : errno ≠ 0) (hattempt : errno = EINPROGRESS → socket ≠ .unconnected)
    (hbusy : errno ≠ EINPROGRESS → ¬ socket.Busy) :
    (({ s with socket } : Connecting).afterIo (retry.connectOnce (.failure errno)).result added).Inv := by
  rw [connectOnce_result]
  refine .afterIo hpending hresult (fun h => ?_) (fun h => hattempt ?_) fun _ h => hbusy fun he => h ?_
  · simp [classify, Error.isSet, herrno] at h
  · simpa [classify] using h
  · simp [classify, he]

/-- `connect` where it does not deny a connection or an attempt at one. -/
theorem Inv.call (hs : s.Inv) {retry : Retry} (hphase : s.phase = .calling retry) {r : SysResult}
    (hcareful : s.Careful (.call r added)) {socket : SocketState}
    (hsocket : s.socket.connect r = some socket) :
    (if (retry.connectOnce r).interrupted then { s with socket, phase := .calling (retry.connectOnce r) }
      else ({ s with socket } : Connecting).afterIo (retry.connectOnce r).result added).Inv := by
  obtain ⟨hresult, hfirst⟩ := hs.calling retry hphase
  by_cases hbefore : s.socket = .unconnected
  · obtain ⟨herror, herr⟩ := hfirst.resolve_right fun h => h.2 hbefore
    rw [hbefore] at hsocket
    cases r with
    | success value =>
      simp only [SocketState.connect, Option.ite_none_right_eq_some, Option.some.injEq] at hsocket
      obtain ⟨-, rfl⟩ := hsocket
      have hgo : (retry.connectOnce (.success value)).interrupted = false := by
        simp [Retry.connectOnce, Retry.interrupted, herr]
      rw [hgo, if_neg Bool.false_ne_true]
      exact .afterIo (by simp) hresult (fun _ => trivial) (fun _ => by simp)
        fun h => absurd h (by simp [Retry.connectOnce, IOResult.setResult, herror])
    | failure errno =>
      simp only [SocketState.connect] at hsocket
      split
      · -- the attempt goes on behind the interruption
        rename_i hintr
        rw [connectOnce_interrupted] at hintr
        rw [if_pos (.inr hintr), Option.some.injEq] at hsocket
        obtain rfl := hsocket
        refine ⟨⟨by simp, by simp⟩, by simp, by simp, fun r hr => ⟨hresult, .inr ⟨?_, by simp⟩⟩⟩
        obtain rfl := ConnectPhase.calling.inj hr
        simpa [Retry.interrupted] using (connectOnce_interrupted errno retry).mpr hintr
      · rename_i hintr
        rw [connectOnce_interrupted] at hintr
        split at hsocket
        · rename_i hprogress
          obtain rfl := Option.some.inj hsocket
          have hprogress := hprogress.resolve_right hintr
          exact .failure (by simp) hresult (by simp [hprogress]) (fun _ => by simp)
            fun h => absurd hprogress h
        · rename_i hprogress
          simp only [Option.ite_none_left_eq_some, Option.some.injEq] at hsocket
          obtain ⟨herrno, rfl⟩ := hsocket
          exact .failure (by simp) hresult herrno (fun h => absurd (.inl h) hprogress)
            fun _ => by simp [SocketState.Busy]
  · obtain ⟨rfl, rfl, hestablished⟩ | ⟨errno, ⟨hzero, hintr, hprogress⟩, rfl, hsame, hread⟩ :=
      SocketState.connect_again hbefore hs.pending hsocket
    · -- behind an interruption the loop goes on, whatever is found
      rcases hfirst with ⟨herror, herr⟩ | ⟨herr, -⟩
      · have hgo : (retry.connectOnce (.success 0)).interrupted = false := by
          simp [Retry.connectOnce, Retry.interrupted, herr]
        rw [hgo, if_neg Bool.false_ne_true]
        exact .afterIo hs.pending hresult (fun _ => hestablished) (fun _ => hbefore)
          fun h => absurd h (by simp [Retry.connectOnce, IOResult.setResult, herror])
      · rw [if_pos (by simp [Retry.connectOnce, Retry.interrupted, herr])]
        refine ⟨⟨by simp, by simp⟩, hs.pending, by simp, fun r hr => ⟨hresult, .inr ⟨?_, hbefore⟩⟩⟩
        obtain rfl := ConnectPhase.calling.inj hr
        exact herr
    · rw [if_neg (by rwa [connectOnce_interrupted])]
      refine .failure (fun e h => absurd h (hread e)) hresult hzero (fun h => absurd h hprogress) ?_
      rintro - hbusy
      cases hcareful (hsame.mp hbusy)

theorem Inv.step (hs : s.Inv) {a : ConnectLabel} (ha : s.Careful a) (ht : s.step a = some t) : t.Inv := by
  cases a with
  | start =>
    rw [step_start ht]
    exact ⟨⟨by simp, by simp⟩, hs.pending, fun _ => ⟨rfl, by simp⟩, by simp⟩
  | poll fails added =>
    obtain ⟨hphase, hzero, rfl⟩ := step_poll ht
    exact hs.poll hphase hzero ha
  | call r added =>
    obtain ⟨retry, socket, hphase, hsocket, rfl⟩ := step_call ht
    exact hs.call hphase ha hsocket
  | event =>
    obtain ⟨hphase, -, rfl⟩ := step_event ht
    exact ⟨⟨by simp, by simp⟩, hs.pending, fun _ => hs.waiting (.inr hphase), by simp⟩
  | resume =>
    obtain ⟨hphase, rfl⟩ := step_resume ht
    exact ⟨⟨by simp, by simp⟩, hs.pending, fun _ => hs.waiting (.inr hphase), by simp⟩
  | cancel =>
    rw [step_cancel ht]
    exact hs.leave_idle
  | establish => exact hs.decided (decided_establish ht)
  | refuse errno => exact hs.decided (decided_refuse ht)
  | lose errno => exact hs.decided (decided_lose ht)

/-- Whatever is not careful ends in an await that says what is not true. -/
theorem Inv.not_truthful (hs : s.Inv) {a : ConnectLabel} (ha : ¬ s.Careful a) (ht : s.step a = some t) :
    ¬ t.Truthful := by
  intro htrue
  cases a with
  | poll fails added =>
    obtain ⟨hphase, hzero, rfl⟩ := step_poll ht
    have hresult := (hs.waiting (.inl hphase)).1
    cases fails with
    | some errno =>
      simp only [Careful, Classical.not_imp, not_not] at ha
      obtain ⟨hconnected, hbusy⟩ := ha
      have herrno : errno ≠ 0 := fun h => hzero (h ▸ rfl)
      have hraised : s.asyncIo (some errno) added = s.leave (.raised ⟨errno, categoryPosix⟩) := by
        simp [asyncIo, hresult, hconnected, Connecting.afterIo, Error.isSet, herrno]
      rw [hraised] at htrue
      rcases htrue.raised _ rfl with he | hnot
      · simp [failedToRegisterIOEvent] at he
      · exact hnot hbusy
    | none =>
      simp only [Careful, Classical.not_imp, not_not] at ha
      obtain ⟨hconnected, hsocket⟩ := ha
      -- there is no error yet, which is taken for success
      have hsuccess : (s.asyncIo none added).phase = .returned 0 ∧
          (s.asyncIo none added).socket = .connecting := by
        simp [asyncIo, hresult, hconnected, hsocket, SocketState.soError, Connecting.afterIo, leave,
          Error.isSet]
      have hestablished := htrue.returned 0 hsuccess.1
      rw [hsuccess.2] at hestablished
      exact hestablished
  | call r added =>
    obtain ⟨hbusy, hfails⟩ := Classical.not_imp.mp ha
    obtain ⟨retry, socket, hphase, hsocket, rfl⟩ := step_call ht
    have hstarted : s.socket ≠ .unconnected := by
      intro h
      simp [SocketState.Busy, h] at hbusy
    obtain ⟨hsuccess, -⟩ | ⟨errno, ⟨hzero, hintr, hprogress⟩, rfl, hsame, -⟩ :=
      SocketState.connect_again hstarted hs.pending hsocket
    · exact hfails hsuccess
    · rw [if_neg (by rwa [connectOnce_interrupted]), connectOnce_result,
        afterIo_failure _ hzero hprogress] at htrue
      rcases htrue.raised _ rfl with he | hnot
      · simp [failedToRegisterIOEvent] at he
      · exact hnot (hsame.mpr hbusy)
  | start | event | resume | cancel | establish | refuse | lose => exact ha trivial

/-! ### Runs of a disciplined program -/

/-- An await that has called `connect` is polled when the kernel has decided, and one that has not calls
    it for a socket without a connection or an attempt at one. -/
def Ordered (s : Connecting) : Prop :=
  match s.phase with
  | .polling => (s.connected = true → s.socket ≠ .connecting) ∧ (s.connected = false → ¬ s.socket.Busy)
  | .calling retry => s.connected = true ∧ ¬ s.socket.Busy ∧ retry.err = 0
  | .suspended => s.connected = true
  | _ => True

theorem ordered_afterIo (hconnected : s.connected = true) : (s.afterIo r added).Ordered := by
  unfold afterIo
  split
  · split
    · cases added with
      | failed => trivial
      | successful => exact hconnected
    · trivial
  · trivial

theorem Ordered.careful (hs : s.Ordered) {a : ConnectLabel} (ha : s.Disciplined a)
    (ht : s.step a = some t) : s.Careful a := by
  unfold Ordered at hs
  cases a with
  | poll fails added =>
    obtain ⟨hphase, -⟩ := step_poll ht
    rw [hphase] at hs
    obtain rfl : fails = none := ha
    exact hs.1
  | call r added =>
    obtain ⟨retry, socket, hphase, -⟩ := step_call ht
    rw [hphase] at hs
    exact fun hbusy => absurd hbusy hs.2.1
  | start | event | resume | cancel | establish | refuse | lose => trivial

/-- There is no attempt before `connect` was called. -/
theorem Ordered.decided (hs : s.Ordered) (h : Decided s t) : t.Ordered := by
  rw [h.same]
  unfold Ordered at hs ⊢
  cases hphase : s.phase with
  | polling =>
    rw [hphase] at hs
    exact ⟨fun _ => h.ne.1, fun hc => absurd h.busy (hs.2 hc)⟩
  | calling r =>
    rw [hphase] at hs
    exact absurd h.busy hs.2.1
  | suspended =>
    rw [hphase] at hs
    exact hs
  | idle | returned | raised => trivial

/-- No call of `connect` is interrupted but by a signal. -/
theorem not_interrupted {retry : Retry} (herr : retry.err = 0) {r : SysResult} (hr : r ≠ .failure EINTR) :
    ¬ (retry.connectOnce r).interrupted = true := by
  cases r with
  | failure errno =>
    rw [connectOnce_interrupted]
    rintro rfl
    exact hr rfl
  | success value => simp [Retry.connectOnce, Retry.interrupted, herr]

theorem Ordered.step (hinv : s.Inv) (hs : s.Ordered) {a : ConnectLabel} (ha : s.Disciplined a)
    (ht : s.step a = some t) : t.Ordered := by
  have hbefore := hs
  unfold Ordered at hs
  cases a with
  | start =>
    rw [step_start ht]
    exact ⟨by simp, fun _ => ha⟩
  | poll fails added =>
    obtain ⟨hphase, -, rfl⟩ := step_poll ht
    rw [hphase] at hs
    obtain rfl : fails = none := ha
    simp only [asyncIo, (hinv.waiting (.inl hphase)).1]
    split
    · rename_i hconnected
      exact ordered_afterIo hconnected
    · rename_i hconnected
      exact ⟨rfl, hs.2 (Bool.not_eq_true _ ▸ hconnected), rfl⟩
  | call r added =>
    obtain ⟨retry, socket, hphase, hsocket, rfl⟩ := step_call ht
    rw [hphase] at hs
    rw [if_neg (not_interrupted hs.2.2 ha)]
    exact ordered_afterIo hs.1
  | event =>
    obtain ⟨hphase, hsocket, rfl⟩ := step_event ht
    rw [hphase] at hs
    exact ⟨fun _ => hsocket, fun h => absurd (hs.symm.trans h) (by decide)⟩
  | resume => exact ha.elim
  | cancel =>
    rw [step_cancel ht]
    trivial
  | establish => exact hbefore.decided (decided_establish ht)
  | refuse errno => exact hbefore.decided (decided_refuse ht)
  | lose errno => exact hbefore.decided (decided_lose ht)

theorem inv_init : ({} : Connecting).Inv :=
  ⟨⟨by simp, by simp⟩, by simp, by simp, by simp⟩

/-- What the awaits of a new socket say of it is always true if and only if `SO_ERROR` is never read while
    the kernel has not decided, and neither `getsockopt` nor `connect` ever fails where there is a
    connection or an attempt at one. A disciplined program sees to it. -/
theorem truthful_iff (as : List ConnectLabel) (s : Connecting) (hrun : exec {} as = some s) :
    (Runs.Always step Truthful {} as ↔ Runs.Meets step Careful {} as) ∧
      (Runs.Meets step Disciplined {} as → Runs.Always step Truthful {} as) := by
  constructor
  · exact Runs.always_iff_meets (fun _ _ _ hs ha ht => hs.step ha ht) (fun _ hs => hs.toTruthful)
      (fun _ _ _ hs ha ht => hs.not_truthful ha ht) as {} s hrun inv_init
  · intro hmeets
    refine Runs.always_of_meets (I := fun x : Connecting => x.Inv ∧ x.Ordered) (fun s a t hs ha ht => ?_)
      (fun _ hs => hs.1.toTruthful) as {} ⟨inv_init, trivial⟩ hmeets
    exact ⟨hs.1.step (hs.2.careful ha ht) ht, hs.2.step hs.1 ha ht⟩

/-- An attempt that takes a while. -/
def attempt : List ConnectLabel :=
  [.start, .poll none .successful, .call (.failure EINPROGRESS) .successful]

/-- The event comes when the socket is connected, and the await returns. When another task resumes the
    await before that, it returns as well. -/
theorem truthful_iff_attempt :
    Runs.Always step Truthful {} (attempt ++ [.establish, .event, .poll none .successful]) ∧
      ¬ Runs.Always step Truthful {} (attempt ++ [.resume, .poll none .successful]) := by
  constructor
  · exact (truthful_iff _ _ rfl).2 (by decide)
  · rw [(truthful_iff _ _ rfl).1]
    decide

-- an await that is cancelled leaves the attempt to the next one
example : (exec {} (attempt ++ [.cancel, .establish, .start, .poll none .successful,
    .call (.success 0) .successful])).map Connecting.phase = some (.returned 0) := by decide

end Connecting
end Jinx.Posix
