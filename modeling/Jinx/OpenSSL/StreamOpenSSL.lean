import Jinx.Libevent.Waiting
import Jinx.Posix.StreamRecv

/-! `StreamOpenSSL`: five awaitables of `AsyncTLS` over one connection, with what their `io` calls.

    What a call of OpenSSL returns, and what `SSL_get_error` says then, are inputs within what OpenSSL
    documents. A poll is not interrupted, so there is one call at a time; awaits, events and cancellations
    of the five come in any order between two polls. -/

namespace Jinx.OpenSSL
open Jinx Http Posix Function
open Jinx.Libevent (categoryOpenssl sslEstablished sslWantRead sslWantWrite EV_READ EV_WRITE)

/-! ### Errors -/

/-- `enum class ErrorCodeOpenSSL`, the rest of it. -/
abbrev sslHandshakeFailed : Int := 1
abbrev sslEndOfStream : Int := 3
abbrev sslSysCall : Int := 4
abbrev sslProtocolError : Int := 5
abbrev sslX509Lookup : Int := 6

/-- What `SSL_get_error` returns. -/
abbrev SSL_ERROR_NONE : Int := 0
abbrev SSL_ERROR_SSL : Int := 1
abbrev SSL_ERROR_WANT_READ : Int := 2
abbrev SSL_ERROR_WANT_WRITE : Int := 3
abbrev SSL_ERROR_WANT_X509_LOOKUP : Int := 4
abbrev SSL_ERROR_SYSCALL : Int := 5
/-- the peer has sent `close_notify` -/
abbrev SSL_ERROR_ZERO_RETURN : Int := 6

def makeOpenssl (value : Int) : Error := ⟨value, categoryOpenssl⟩

/-- `convert_to_streamtls_error_code`; the values that are not named are kept as they are. -/
def convertToStreamtlsErrorCode (err : Int) : Error :=
  if err = SSL_ERROR_WANT_READ then makeOpenssl sslWantRead
  else if err = SSL_ERROR_WANT_WRITE then makeOpenssl sslWantWrite
  else if err = SSL_ERROR_WANT_X509_LOOKUP then makeOpenssl sslX509Lookup
  else if err = SSL_ERROR_SSL then makeOpenssl sslProtocolError
  else if err = SSL_ERROR_SYSCALL then makeOpenssl sslSysCall
  else makeOpenssl err

/-! ### The calls -/

/-- The awaitables of the stream. -/
inductive Member where
  | accept | connect | shutdown | recv | send
  deriving DecidableEq, Repr

/-- The call that the poll has made. -/
inductive Call where
  | accept
  | connect
  /-- `SSL_shutdown` -/
  | shutdown
  /-- `SSL_peek`, in `do_shutdown` -/
  | peek
  /-- `SSL_peek`, in `io` -/
  | wait
  | read
  | write
  deriving DecidableEq, Repr

def Call.member : Call → Member
  | .accept => .accept
  | .connect => .connect
  | .shutdown | .peek | .wait => .shutdown
  | .read => .recv
  | .write => .send

/-- A call of the shutdown has returned `n`, and `SSL_get_error` says `err`. -/
structure Closing where
  call : Call
  n : Int
  err : Int
  deriving DecidableEq, Repr

/-- What an awaitable is doing. -/
inductive TLSStage where
  | idle
  | polling
  /-- waiting for an event -/
  | suspended (flags : Nat)
  | returned
  | raised (e : Error)
  | cancelled
  deriving DecidableEq, Repr

def TLSStage.waits : TLSStage → Bool
  | .suspended _ => true
  | _ => false

/-- The await has not ended. -/
def TLSStage.running : TLSStage → Bool
  | .polling | .suspended _ => true
  | _ => false

/-- The stream, with the views of its `_recv` and `_send`. -/
structure StreamOpenSSL where
  stage : Member → TLSStage := fun _ => .idle
  call : Option Call := none
  waitCloseNotify : Bool := false
  recvView : RawView
  sendView : RawView
  /-- `abort_on` has failed, or memory outside a view was written -/
  aborted : Bool := false
  /-- the two views, as they were when the await began -/
  recvOrigin : RawView
  sendOrigin : RawView
  /-- what `SSL_read` has returned, and `SSL_write` has accepted, since then -/
  received : List Byte := []
  accepted : List Byte := []
  /-- the calls of the shutdown -/
  closing : List Closing := []
  /-- the slice that `SSL_write` has to be called with again -/
  pending : Option SliceConst := none
  /-- it was called with another one -/
  badRetry : Bool := false

/-- A `size_t` as an argument of type `int`. -/
def num (size : Nat) : Int := Int.bmod size (2 ^ 32)

namespace StreamOpenSSL

/-- A call of `SSL_write` now is the same again: from the same address, and not shorter. -/
def repeats (s : StreamOpenSSL) : Bool :=
  match s.pending with
  | none => true
  | some b =>
    s.sendView.sliceForConsumer.data == b.data && num b.size ≤ num s.sendView.sliceForConsumer.size

def setStage (s : StreamOpenSSL) (m : Member) (st : TLSStage) : StreamOpenSSL :=
  { s with stage := update s.stage m st }

/-- A call is made. -/
def begins (s : StreamOpenSSL) (c : Call) : StreamOpenSSL :=
  { s with call := some c, badRetry := s.badRetry || decide (c = .write) && !s.repeats }

/-- The first call of `io`. -/
def io (s : StreamOpenSSL) : Member → StreamOpenSSL
  | .accept => s.begins .accept
  | .connect => s.begins .connect
  | .shutdown => if s.waitCloseNotify then s.begins .wait else s.begins .shutdown
  | .recv => s.begins .read
  | .send => s.begins .write

/-- What becomes of an await whose event is added. -/
def registered (flags : Nat) : ResultGeneric → TLSStage
  | .failed => .raised failedToRegisterIOEvent
  | .successful => .suspended flags

/-- What `AsyncTLS::do_tls_io` makes of the result of `io`; `added` is what `add_io` would return. -/
def outcome (e : Error) (added : ResultGeneric) : TLSStage :=
  if e.category = categoryOpenssl ∧ e.value = sslWantRead then registered EV_READ added
  else if e.category = categoryOpenssl ∧ e.value = sslWantWrite then registered EV_WRITE added
  else if e.category = categoryOpenssl ∧ e.value = sslEstablished then .returned
  else if !e.isSet then .returned
  else .raised e

/-- `AsyncTLS::do_tls_io` after `io`. -/
def doTlsIo (s : StreamOpenSSL) (m : Member) (e : Error) (added : ResultGeneric) : StreamOpenSSL :=
  { s with call := none }.setStage m (outcome e added)

/-- `TLSImplOpenSSLAccept::io` and `TLSImplOpenSSLConnect::io`, after the call. -/
def afterHandshake (s : StreamOpenSSL) (m : Member) (n err : Int) (added : ResultGeneric) :
    StreamOpenSSL :=
  if n = 0 then s.doTlsIo m (makeOpenssl sslHandshakeFailed) added
  else if n = 1 then s.doTlsIo m (makeOpenssl sslEstablished) added
  else s.doTlsIo m (convertToStreamtlsErrorCode err) added

/-- `do_shutdown`, after `SSL_shutdown`. -/
def afterShutdown (s : StreamOpenSSL) (n err : Int) (added : ResultGeneric) : StreamOpenSSL :=
  if n = 1 then s.doTlsIo .shutdown {} added
  else if n = 0 then s.begins .peek
  else s.doTlsIo .shutdown (convertToStreamtlsErrorCode err) added

/-- `TLSImplOpenSSLShutdown::io`, after the `do_peek` of `do_shutdown`. -/
def afterPeek (s : StreamOpenSSL) (n err : Int) (added : ResultGeneric) : StreamOpenSSL :=
  if n = 0 then { s with waitCloseNotify := true }.begins .wait
  else s.doTlsIo .shutdown (if n < 0 then convertToStreamtlsErrorCode err else {}) added

/-- `TLSImplOpenSSLShutdown::io`, after its own `do_peek`. -/
def afterWait (s : StreamOpenSSL) (n err : Int) (added : ResultGeneric) : StreamOpenSSL :=
  s.doTlsIo .shutdown (if n < 0 then convertToStreamtlsErrorCode err else {}) added

/-- `TLSImplOpenSSLRead::io`, after `SSL_read` has written `l`. -/
def afterRead (s : StreamOpenSSL) (n err : Int) (l : List Byte) (added : ResultGeneric) :
    StreamOpenSSL :=
  match s.recvView.store s.recvView.sliceForProducer.data l with
  | none => { s with aborted := true, call := none }
  | some v =>
    let s := { s with recvView := v, received := s.received ++ l }
    if n = 0 then s.doTlsIo .recv (makeOpenssl sslEndOfStream) added
    else if 0 < n then
      match v.commit n.toNat with
      | none => { s with aborted := true, call := none }
      | some v => { s with recvView := v }.doTlsIo .recv {} added
    else s.doTlsIo .recv (convertToStreamtlsErrorCode err) added

/-- `TLSImplOpenSSLWrite::io`, after `SSL_write`. -/
def afterWrite (s : StreamOpenSSL) (n err : Int) (added : ResultGeneric) : StreamOpenSSL :=
  if 0 < n then
    let s := { s with accepted := s.accepted ++ s.sendView.content.take n.toNat, pending := none }
    match s.sendView.consume n.toNat with
    | none => { s with aborted := true, call := none }
    | some v =>
      let s := { s with sendView := v }
      if v.size > 0 then s.begins .write else s.doTlsIo .send {} added
  else
    let again := err = SSL_ERROR_WANT_READ ∨ err = SSL_ERROR_WANT_WRITE
    { s with pending := if again then some s.sendView.sliceForConsumer else none }.doTlsIo .send
      (convertToStreamtlsErrorCode err) added

/-- The call has returned `n`, and has written `l`; `err` is what `SSL_get_error` says. -/
def answered (s : StreamOpenSSL) (c : Call) (n err : Int) (l : List Byte) (added : ResultGeneric) :
    StreamOpenSSL :=
  let s := if c.member = .shutdown then { s with closing := s.closing ++ [⟨c, n, err⟩] } else s
  match c with
  | .accept => s.afterHandshake .accept n err added
  | .connect => s.afterHandshake .connect n err added
  | .shutdown => s.afterShutdown n err added
  | .peek => s.afterPeek n err added
  | .wait => s.afterWait n err added
  | .read => s.afterRead n err l added
  | .write => s.afterWrite n err added

/-- What a call may return: not more than it was given, `SSL_ERROR_NONE` for what is positive only. -/
def Answers (s : StreamOpenSSL) (c : Call) (n err : Int) (l : List Byte) : Prop :=
  (n ≤ 0 → err ≠ SSL_ERROR_NONE) ∧
    match c with
    | .read => (0 < n → n ≤ num s.recvView.capacity) ∧ l.length = n.toNat
    | .write => 0 < n → n ≤ num s.sendView.size
    | _ => n ≤ 1

instance (s : StreamOpenSSL) (c : Call) (n err : Int) (l : List Byte) : Decidable (s.Answers c n err l) := by
  unfold Answers
  cases c <;> infer_instance

/-- `operator()` of the awaitable: `_tls_impl` is a new one. -/
def await (s : StreamOpenSSL) (m : Member) (v : RawView) : StreamOpenSSL :=
  match m with
  | .shutdown => { s with waitCloseNotify := false, closing := [] }
  | .recv => { s with recvView := v, recvOrigin := v, received := [] }
  | .send => { s with sendView := v, sendOrigin := v, accepted := [] }
  | .accept | .connect => s

inductive StreamLabel where
  /-- the awaitable is called, with a view if it takes one -/
  | await (m : Member) (v : RawView)
  | answer (n err : Int) (l : List Byte) (added : ResultGeneric)
  /-- the event comes, and the task runs again -/
  | resume (m : Member)
  | cancel (m : Member)

/-- One step; `none` where the label cannot happen. -/
def step (s : StreamOpenSSL) : StreamLabel → Option StreamOpenSSL
  | .await m v =>
    if s.call = none ∧ s.aborted = false ∧ (s.stage m).running = false then
      some (((s.await m v).setStage m .polling).io m)
    else none
  | .answer n err l added =>
    match s.call with
    | none => none
    | some c => if s.Answers c n err l then some (s.answered c n err l added) else none
  | .resume m =>
    if s.call = none ∧ s.aborted = false ∧ (s.stage m).waits = true then some ((s.setStage m .polling).io m)
    else none
  | .cancel m =>
    if s.call = none ∧ s.aborted = false ∧ (s.stage m).waits = true then some (s.setStage m .cancelled)
    else none

abbrev exec : StreamOpenSSL → List StreamLabel → Option StreamOpenSSL := Runs.exec step

/-- Before the first await. -/
def init (recvView sendView : RawView) : StreamOpenSSL :=
  { recvView, sendView, recvOrigin := recvView, sendOrigin := sendView }

end StreamOpenSSL

end Jinx.OpenSSL
