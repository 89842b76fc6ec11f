import Jinx.Http.BufferView
import Jinx.Lib.Runs
import Jinx.Sync.Pending
import Mathlib.Logic.Function.Basic

/-! `StreamBIO` of `bio.hpp`, and `AsyncTLS` of `openssl.hpp` on top of it.

    On one side OpenSSL calls the two callbacks of the BIO; on the other side the transport awaits
    `read` and `write` of the stream. What OpenSSL writes is appended to the view that the transport
    reads into; what it reads is taken from the view that the transport writes. A TLS task that was
    told to wait leaves one event with the other side.

    Which calls OpenSSL makes, with which sizes, and what it reports to the task are inputs. Views are
    objects of the transport, and the stream has pointers to them. What every party has seen of the
    bytes is kept beside the state. `reset` is left out, and of `AsyncTLS` all but the event. -/

namespace Jinx.OpenSSL

open Jinx.Http (BufferView Byte)
open Jinx.Sync (Stage)

abbrev ViewId := Nat

/-- A TLS task; it is the address of the event in its `_handle` as well. -/
abbrev TlsId := Nat

def IOFlagRead : Nat := 1
def IOFlagWrite : Nat := 2
def IOFlagReadWrite : Nat := IOFlagRead ||| IOFlagWrite
def IOFlagPersist : Nat := 4

/-- `detail::BIORead`. -/
structure BIORead where
  pendingWrite : Option TlsId := none
  view : Option ViewId := none
  capacity : Nat := 0
  stage : Stage := .idle
  deriving DecidableEq, Repr

/-- `detail::BIOWrite`. -/
structure BIOWrite where
  pendingRead : Option TlsId := none
  view : Option ViewId := none
  stage : Stage := .idle
  deriving DecidableEq, Repr

/-- `AsyncTLS`: the `_flags` of the event in `_handle`, if there is one. -/
structure AsyncTLS where
  handle : Option Nat := none
  stage : Stage := .idle
  deriving DecidableEq, Repr

/-- A call of `BIO_read_ex` or `BIO_write_ex`. -/
inductive BioCall where
  | read (size : Nat)
  | write (bytes : List Byte)
  deriving DecidableEq, Repr

/-- What `io` reports to the task: `SSL_ERROR_WANT_READ`, `SSL_ERROR_WANT_WRITE`, or that it is done
    or has failed. -/
inductive Verdict where
  | wantRead
  | wantWrite
  | done
  deriving DecidableEq, Repr

/-- A `StreamBIO` with those who use it. `accepted` and `returned` are the bytes that the callbacks have
    taken from OpenSSL and given to it, `received` and `sent` those that the transport finds in its
    views when it has read, and finds gone when it has written. The marks are where a view was when the
    transport began. -/
structure Pipe where
  views : ViewId → BufferView
  read : BIORead := {}
  write : BIOWrite := {}
  tls : TlsId → AsyncTLS := fun _ => {}
  accepted : List Byte := []
  returned : List Byte := []
  received : List Byte := []
  sent : List Byte := []
  readMark : Nat := 0
  writeMark : Nat := 0

/-- The bytes of a view up to its `_end`. -/
def filled (v : BufferView) : List Byte := v.front ++ v.window

namespace Pipe

/-! ### The callbacks of the BIO -/

/-- `StreamBIO::read` with an OpenSSL that has room for `size` bytes; `none` is `BIO_set_retry_read`. -/
def bioRead (s : Pipe) (size : Nat) : Pipe × Option (List Byte) :=
  match s.write.view with
  | none => (s, none)
  | some i =>
    let view := s.views i
    if view.size = 0 then (s, none)
    else
      let wsz := min size view.size
      let buf := view.window.take wsz
      ({ s with
          views := Function.update s.views i ((view.consume wsz).getD view)
          write := { s.write with stage := s.write.stage.resume }
          returned := s.returned ++ buf }, some buf)

/-- `StreamBIO::write`, with the bytes that are taken; `none` is `BIO_set_retry_write`. -/
def bioWrite (s : Pipe) (bytes : List Byte) : Pipe × Option (List Byte) :=
  if bytes = [] then (s, some [])
  else
    match s.read.view with
    | none => (s, none)
    | some i =>
      let view := s.views i
      if view.capacity = 0 then (s, none)
      else
        let data := bytes.take (min bytes.length view.capacity)
        ({ s with
            views := Function.update s.views i ((view.receive data).getD view)
            read := { s.read with stage := s.read.stage.resume }
            accepted := s.accepted ++ data }, some data)

def call (s : Pipe) : BioCall → Pipe × Option (List Byte)
  | .read size => s.bioRead size
  | .write bytes => s.bioWrite bytes

def calls (s : Pipe) (cs : List BioCall) : Pipe := cs.foldl (fun s c => (s.call c).1) s

/-! ### Events -/

def flags (s : Pipe) (e : TlsId) : Nat := (s.tls e).handle.getD 0

/-- `BIOEventCallback::invoke`, which is `AsyncTLS::callback`. -/
def invoke (s : Pipe) (e : TlsId) : Pipe :=
  { s with tls := Function.update s.tls e { s.tls e with stage := (s.tls e).stage.resume } }

/-- `StreamBIO::add_io`. -/
def addIo (s : Pipe) (e : TlsId) : Pipe × ResultGeneric :=
  if s.flags e &&& IOFlagRead ≠ 0 then
    if s.write.pendingRead ≠ none then (s, .failed)
    else ({ s with write := { s.write with pendingRead := some e } }, .successful)
  else if s.read.pendingWrite ≠ none then (s, .failed)
  else ({ s with read := { s.read with pendingWrite := some e } }, .successful)

/-- `StreamBIO::remove_io`; nobody looks at the result. -/
def removeIo (s : Pipe) (e : TlsId) : Pipe :=
  if s.flags e &&& IOFlagRead ≠ 0 then
    if some e ≠ s.write.pendingRead ∧ s.write.pendingRead ≠ none then s
    else { s with write := { s.write with pendingRead := none } }
  else if some e ≠ s.read.pendingWrite ∧ s.read.pendingWrite ≠ none then s
  else { s with read := { s.read with pendingWrite := none } }

/-! ### `AsyncTLS` -/

/-- `AsyncTLS::async_finalize`. -/
def finishTls (s : Pipe) (e : TlsId) : Pipe :=
  let s := if (s.tls e).handle ≠ none then s.removeIo e else s
  { s with tls := Function.update s.tls e {} }

/-- `EventEngineBIO::add_io`, and the task is suspended or throws `FailedToRegisterIOEvent`. -/
def await (s : Pipe) (e : TlsId) (flags : Nat) : Pipe :=
  let rw := flags &&& IOFlagReadWrite
  if rw = IOFlagReadWrite ∨ rw = 0 then s.finishTls e
  else
    let s := { s with tls := Function.update s.tls e { s.tls e with handle := some flags } }
    match s.addIo e with
    | (s, .failed) => s.finishTls e
    | (s, .successful) =>
      { s with tls := Function.update s.tls e { s.tls e with stage := .suspended } }

/-- `AsyncTLS::do_tls_io`, after `io`. -/
def doTlsIo (s : Pipe) (e : TlsId) : Verdict → Pipe
  | .wantRead => s.await e IOFlagRead
  | .wantWrite => s.await e IOFlagWrite
  | .done => s.finishTls e

/-! ### `StreamBIO` for the transport -/

/-- `BIORead::async_finalize`; the transport looks at the view. -/
def finishRead (s : Pipe) (i : ViewId) : Pipe :=
  { s with
    read := { s.read with view := none, stage := .idle }
    received := s.received ++ (filled (s.views i)).drop s.readMark }

/-- `BIORead::async_poll`. -/
def pollRead (s : Pipe) : Option Pipe :=
  s.read.view.map fun i =>
    if s.read.capacity > (s.views i).capacity then s.finishRead i
    else
      let s := match s.read.pendingWrite with
        | none => s
        | some e =>
          let s := s.invoke e
          if s.flags e &&& IOFlagPersist = 0 then { s with read := { s.read with pendingWrite := none } }
          else s
      { s with read := { s.read with stage := .suspended } }

/-- `StreamBIO::read(view)`. -/
def startRead (s : Pipe) (i : ViewId) : Pipe :=
  { s with
    read := { s.read with view := some i, capacity := (s.views i).capacity }
    readMark := (filled (s.views i)).length }

/-- `BIOWrite::async_finalize`; the transport looks at the view. -/
def finishWrite (s : Pipe) (i : ViewId) : Pipe :=
  { s with
    write := { s.write with view := none, stage := .idle }
    sent := s.sent ++ (s.views i).front.drop s.writeMark }

/-- `BIOWrite::async_poll`. -/
def pollWrite (s : Pipe) : Option Pipe :=
  s.write.view.map fun i =>
    if (s.views i).size = 0 then s.finishWrite i
    else
      let s := match s.write.pendingRead with
        | none => s
        | some e =>
          let s := s.invoke e
          if s.flags e &&& IOFlagPersist = 0 then { s with write := { s.write with pendingRead := none } }
          else s
      { s with write := { s.write with stage := .suspended } }

/-- `StreamBIO::write(view)`. -/
def startWrite (s : Pipe) (i : ViewId) : Pipe :=
  { s with
    write := { s.write with view := some i }
    writeMark := (s.views i).front.length }

end Pipe

/-- What can happen. OpenSSL calls the BIO; a TLS task runs, which is some calls and what is reported
    then, or it is cancelled. The transport awaits `read` or `write` with some view, runs after it was
    resumed, is cancelled, or works on a view that the stream does not have. -/
inductive PipeOp where
  | call (c : BioCall)
  | tls (e : TlsId) (cs : List BioCall) (verdict : Verdict)
  | cancelTls (e : TlsId)
  | read (i : ViewId)
  | runRead
  | cancelRead
  | write (i : ViewId)
  | runWrite
  | cancelWrite
  | touch (i : ViewId) (view : BufferView)
  deriving DecidableEq, Repr

namespace Pipe

def step (s : Pipe) : PipeOp → Option Pipe
  | .call c => some (s.call c).1
  | .tls e cs verdict =>
    if (s.tls e).stage = .suspended then none else some ((s.calls cs).doTlsIo e verdict)
  | .cancelTls e =>
    if (s.tls e).stage = .suspended ∨ (s.tls e).stage = .scheduled then some (s.finishTls e) else none
  | .read i => if s.read.stage = .idle then (s.startRead i).pollRead else none
  | .runRead => if s.read.stage = .scheduled then s.pollRead else none
  | .cancelRead => s.read.view.map s.finishRead
  | .write i => if s.write.stage = .idle then (s.startWrite i).pollWrite else none
  | .runWrite => if s.write.stage = .scheduled then s.pollWrite else none
  | .cancelWrite => s.write.view.map s.finishWrite
  | .touch i view =>
    if s.read.view = some i ∨ s.write.view = some i then none
    else some { s with views := Function.update s.views i view }

/-- Runs of a stream, from views of any kind. -/
abbrev exec : Pipe → List PipeOp → Option Pipe := Runs.exec step

/-- The transport is suspended in `write` on a view that is not empty. -/
def WriterWaits (s : Pipe) : Prop :=
  s.write.stage = .suspended ∧ ∃ i, s.write.view = some i ∧ (s.views i).size ≠ 0

/-- The transport is suspended in `read` on a view that has room. -/
def ReaderWaits (s : Pipe) : Prop :=
  s.read.stage = .suspended ∧ ∃ i, s.read.view = some i ∧ (s.views i).capacity ≠ 0

/-- While the transport waits, OpenSSL wants to read or to write only after it has tried to. `add_io`
    does not look at the view, and OpenSSL may want to read where it has bytes that are not processed. -/
def WantIsTried (s : Pipe) : PipeOp → Prop
  | .tls _ cs .wantRead => s.WriterWaits → ∃ size, .read size ∈ cs
  | .tls _ cs .wantWrite => s.ReaderWaits → ∃ bytes, bytes ≠ [] ∧ .write bytes ∈ cs
  | _ => True

end Pipe

end Jinx.OpenSSL
