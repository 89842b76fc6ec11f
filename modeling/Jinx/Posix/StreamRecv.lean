import Jinx.Http.WindowAccess
import Jinx.Posix.StreamSend

/-! `StreamRecv`: one call of `recv`, whose bytes are committed to the view, or the end of the stream.

    As in `StreamSend`, one operation is awaited, and the points of control are the ones there. The kernel
    writes into the memory that the slice shows: the slice is taken when the operation is called, the bytes
    come later, and the view learns of them in `async_poll`. -/

namespace Jinx.Http.RawView

/-- `SliceMutable`, as `SliceConst`. -/
def sliceForProducer (v : RawView) : SliceConst := { data := v.memory + v.end_, size := v.capacity }

/-- The bytes are written from an address on; `none` where that is not memory of the view. -/
def store (v : RawView) (data : Nat) (l : List Byte) : Option RawView :=
  if h : v.memory ≤ data ∧ data - v.memory + l.length ≤ v.memorySize then
    some { v with
      bytes := v.bytes.take (data - v.memory) ++ l ++ v.bytes.drop (data - v.memory + l.length)
      end_le := by
        have hend := v.end_le
        have hsize := h.2
        simp only [memorySize] at hsize
        simp only [List.length_append, List.length_take, List.length_drop]
        omega }
  else none

variable {v v' : RawView} {l : List Byte}

/-- The bytes before `_end`, and where the window begins, as an operation on the room behind keeps them. -/
structure Extends (v v' : RawView) (l : List Byte) : Prop where
  memory : v'.memory = v.memory
  begin_ : v'.begin_ = v.begin_
  memorySize : v'.memorySize = v.memorySize
  kept : v'.bytes.take v.end_ = v.bytes.take v.end_
  content : v'.content = v.content ++ l

theorem Extends.refl (v : RawView) : Extends v v [] := ⟨rfl, rfl, rfl, rfl, (List.append_nil _).symm⟩

theorem Extends.end_ (h : Extends v v' l) : v'.end_ = v.end_ + l.length := by
  have hlength := congrArg List.length h.content
  rw [List.length_append, content_length, content_length, size, size, h.begin_] at hlength
  have hle := v.begin_le
  have hle' := v'.begin_le
  rw [h.begin_] at hle'
  omega

theorem Extends.capacity (h : Extends v v' l) : v'.capacity = v.capacity - l.length := by
  rw [RawView.capacity, RawView.capacity, h.memorySize, h.end_, Nat.sub_add_eq]

theorem Extends.trans {v₁ : RawView} {l' : List Byte} (h : Extends v v₁ l) (h' : Extends v₁ v' l') :
    Extends v v' (l ++ l') := by
  refine ⟨h'.memory.trans h.memory, h'.begin_.trans h.begin_, h'.memorySize.trans h.memorySize, ?_, ?_⟩
  · have hle : v.end_ ≤ v₁.end_ := h.end_ ▸ Nat.le_add_right ..
    rw [← h.kept, ← Nat.min_eq_left hle, ← List.take_take, ← List.take_take, h'.kept]
  · rw [h'.content, h.content, List.append_assoc]

/-- What is stored in the room behind the window. -/
theorem store_eq (h : l.length ≤ v.capacity) :
    ∃ v', v.store v.sliceForProducer.data l = some v' ∧ v'.memory = v.memory ∧ v'.begin_ = v.begin_ ∧
      v'.end_ = v.end_ ∧ v'.bytes = v.bytes.take v.end_ ++ l ++ v.bytes.drop (v.end_ + l.length) := by
  have hend := v.end_le
  have hoffset : v.memory + v.end_ - v.memory = v.end_ := Nat.add_sub_cancel_left ..
  have hmemory : v.memory ≤ v.memory + v.end_ ∧
      v.memory + v.end_ - v.memory + l.length ≤ v.memorySize := by
    simp only [capacity, memorySize] at h
    simp only [memorySize]
    omega
  refine ⟨_, dif_pos hmemory, rfl, rfl, rfl, ?_⟩
  simp only [sliceForProducer, hoffset]

/-- Bytes in the room behind the window are not seen before they are committed; then they are the end of
    the content. -/
theorem store_producer (h : l.length ≤ v.capacity) :
    ∃ v', v.store v.sliceForProducer.data l = some v' ∧ Extends v v' [] ∧ v'.end_ = v.end_ ∧
      ∃ v'', v'.commit l.length = some v'' ∧ Extends v v'' l := by
  obtain ⟨v', hstore, hmemory, hbegin, hend, hbytes⟩ := store_eq h
  have hle := v.end_le
  have htake : (v.bytes.take v.end_).length = v.end_ := by rw [List.length_take, Nat.min_eq_left hle]
  have hbefore : v.begin_ ≤ (v.bytes.take v.end_).length := htake.symm ▸ v.begin_le
  have hsize : v'.memorySize = v.memorySize := by
    simp only [capacity, memorySize] at h
    simp only [memorySize, hbytes, List.length_append, htake, List.length_drop]
    omega
  have hkept : v'.bytes.take v.end_ = v.bytes.take v.end_ := by
    rw [hbytes, List.append_assoc, List.take_left' htake]
  have hcontent : v'.content = v.content ++ [] := by
    rw [content, rest, hend, hbegin, hkept, List.append_nil]
    rfl
  have hroom : ¬ l.length > v'.capacity := by
    rw [capacity, hsize, hend]
    exact Nat.not_lt.mpr h
  refine ⟨v', hstore, ⟨hmemory, hbegin, hsize, hkept, hcontent⟩, hend, _, dif_neg hroom,
    hmemory, hbegin, hsize, hkept, ?_⟩
  have hcommitted : v'.bytes.take (v'.end_ + l.length) = v.bytes.take v.end_ ++ l := by
    rw [hbytes, hend]
    exact List.take_left' (by rw [List.length_append, htake])
  show (v'.bytes.take (v'.end_ + l.length)).drop v'.begin_ = v.content ++ l
  rw [hcommitted, hbegin, List.drop_append_of_le_length hbefore]
  rfl

end Jinx.Http.RawView

namespace Jinx.Posix
open Jinx Http

/-- `ErrorStream::EndOfStream`. -/
def endOfStream : Error := ⟨1, .stream⟩

/-- `PosixRecv`. -/
structure PosixRecv where
  ioHandle : Int := -1
  buffer : SliceConst := {}
  flags : Nat := 0
  deriving DecidableEq, Repr

/-- A `StreamRecv`, with the members of its base classes. -/
structure StreamRecv where
  /-- `_task` is set -/
  task : Bool := false
  error : Error := {}
  routine : SendRoutine := .uninitialized
  result : Option Int := none
  ioImpl : PosixRecv := {}
  /-- `_handle` is not empty -/
  handle : Bool := false
  /-- `_view` is set -/
  view : Bool := false
  deriving DecidableEq, Repr

/-- `StreamRecv::operator()`. -/
def StreamRecv.start (o : StreamRecv) (ioHandle : Int) (v : RawView) : StreamRecv :=
  { o with
    result := none
    ioImpl := { ioHandle, buffer := v.sliceForProducer, flags := 0 }
    routine := .asyncIo
    view := true }

/-- `StreamRecv::async_finalize`. -/
def StreamRecv.finalize (o : StreamRecv) : StreamRecv :=
  { o with
    view := false, handle := false, ioImpl := {}, routine := .uninitialized, task := false, error := {} }

/-- The operation, its view, and what it sets in the task and in its caller. -/
structure Receiving where
  obj : StreamRecv
  view : RawView
  top : Top := .other
  taskError : Error := {}
  callerError : Error := {}
  /-- what the kernel has written -/
  received : List Byte := []
  /-- the room it was offered when it answered 0 -/
  ended : Option Nat := none
  ctl : SendCtl := .entering

namespace Receiving

/-- `Awaitable::async_return`. -/
def asyncReturn (s : Receiving) : Receiving :=
  if s.obj.task then { s with top := .caller, ctl := .polled .ready } else { s with ctl := .crashed }

/-- `Awaitable::async_suspend`. -/
def asyncSuspend (s : Receiving) : Receiving :=
  if s.obj.task then { s with top := .self, ctl := .polled .suspended } else { s with ctl := .crashed }

/-- `Awaitable::async_throw`; `ctl` is where its value goes. -/
def asyncThrow (s : Receiving) (e : Error) (ctl : SendCtl) : Receiving :=
  { s with
    top := if s.obj.task then .self else s.top
    obj := { s.obj with error := if e.value = 0 then makeError .invalidErrorCode else e }
    ctl }

/-- `Recv::async_poll`, up to the system call. -/
def asyncIo (s : Receiving) : Receiving :=
  match s.obj.routine with
  | .uninitialized => s.asyncThrow (makeError .uninitialized) (.polled .raise)
  | .asyncIo => if s.obj.result.isSome then s.asyncReturn else { s with ctl := .calling }

/-- `async_io` with the result of `do_io`; `added` is what `add_io` would return. -/
def afterIo (s : Receiving) (r : IOResult) (added : ResultGeneric) : Receiving :=
  if r.error.isSet then
    if r.error.category = categoryAgain then
      match added with
      | .failed => s.asyncThrow failedToRegisterIOEvent (.polled .raise)
      | .successful => { s with obj := { s.obj with handle := true } }.asyncSuspend
    else s.asyncThrow r.error (.polled .raise)
  else { s with obj := { s.obj with result := some r.int } }.asyncReturn

/-- `StreamRecv::async_poll`, after the call of `Recv::async_poll`. -/
def afterRecv (s : Receiving) (st : ControlState) : Receiving :=
  if st = .ready then
    match s.obj.result with
    | some size =>
      if size = 0 then s.asyncThrow endOfStream (.returned .raise)
      else if s.obj.view then
        match s.view.commit (Sending.toSizeT size) with
        | some v => { s with view := v, ctl := .returned st }
        | none => { s with ctl := .aborted }
      else { s with ctl := .crashed }
    | none => { s with ctl := .crashed }
  else { s with ctl := .returned st }

/-- The head of the loop in `Awaitable::run`, as for `Sending`. -/
def enter (s : Receiving) : Receiving :=
  if s.obj.error.isSet then
    { s with callerError := s.obj.error, top := .caller, obj := s.obj.finalize, ctl := .left }
  else { s with ctl := .polling }

/-- The rest of the loop in `Awaitable::run`. -/
def afterPoll (s : Receiving) (st : ControlState) : Receiving :=
  if st.stops then { s with ctl := .suspended }
  else if s.top ≠ .self then { s with obj := s.obj.finalize, ctl := .left }
  else { s with ctl := .entering }

def tick (s : Receiving) : Option Receiving :=
  match s.ctl with
  | .entering => some s.enter
  | .polling => some s.asyncIo
  | .polled st => some (s.afterRecv st)
  | .returned st => some (s.afterPoll st)
  | _ => none

inductive RecvLabel where
  /-- the library goes on -/
  | tick
  /-- `recv` has written these bytes and returns, and `add_io` if it is called -/
  | answer (r : IOResult) (l : List Byte) (added : ResultGeneric)
  /-- `io_callback` with an error, or another call of `async_resume`, and the next run of the task -/
  | resume (e : Error)
  /-- `TaskQueue::cancel` -/
  | cancel

/-- What `recv` may answer when there is room for that many bytes: an error of the wrapper, or how many
    bytes it has written, in a `long`. -/
def Delivers (offered : Nat) (r : IOResult) (l : List Byte) : Prop :=
  r.error.isSet = true ∧ (r.error.category = categoryPosix ∨ r.error.category = categoryAgain) ∧ l = [] ∨
    r.error.isSet = false ∧ r.int = l.length ∧ l.length ≤ offered ∧ l.length < 2 ^ 63

instance (offered : Nat) (r : IOResult) (l : List Byte) : Decidable (Delivers offered r l) :=
  inferInstanceAs (Decidable (_ ∨ _))

/-- The wrapper of the system call gives such an answer, unless a signal interrupts the call. -/
theorem recv_delivers (sys : System) {offered : Nat} {l : List Byte}
    (hintr : (sys .recv).nth 0 ≠ .failure EINTR)
    (hsuccess : ∀ n, (sys .recv).nth 0 = .success n → n = l.length ∧ n ≤ offered ∧ n < 2 ^ 63)
    (hfailure : ∀ errno, (sys .recv).nth 0 = .failure errno → errno ≠ 0 ∧ l = []) :
    ∃ r, Returns (Posix.recv sys) r ∧ Delivers offered r l := by
  refine ⟨_, convert_returns hintr, ?_⟩
  cases hnth : (sys .recv).nth 0 with
  | success n =>
    obtain ⟨rfl, hle, hlong⟩ := hsuccess n hnth
    exact .inr ⟨rfl, rfl, hle, hlong⟩
  | failure errno =>
    obtain ⟨hne, hnil⟩ := hfailure errno hnth
    refine .inl ⟨(Error.isSet_iff _).mpr (Int.natCast_ne_zero.mpr hne), ?_, hnil⟩
    simp only [classify]
    split
    · exact .inr rfl
    · exact .inl rfl

/-- The kernel writes into the slice, and answers. -/
def answered (s : Receiving) (r : IOResult) (l : List Byte) (added : ResultGeneric) : Receiving :=
  match s.view.store s.obj.ioImpl.buffer.data l with
  | none => { s with ctl := .crashed }
  | some v =>
    { s with
      view := v
      received := s.received ++ l
      ended := if r.error.isSet = false ∧ l = [] then some s.obj.ioImpl.buffer.size else s.ended
      }.afterIo r added

/-- One step; `none` where the label cannot happen. -/
def step (s : Receiving) : RecvLabel → Option Receiving
  | .tick => s.tick
  | .answer r l added =>
    if s.ctl = .calling ∧ Delivers s.obj.ioImpl.buffer.size r l then some (s.answered r l added) else none
  | .resume e => if s.ctl = .suspended then some { s with taskError := e, ctl := .entering } else none
  | .cancel =>
    if s.ctl = .suspended then some { s with obj := s.obj.finalize, ctl := .cancelled } else none

abbrev exec : Receiving → List RecvLabel → Option Receiving := Runs.exec step

/-- `async_await(stream_recv(io_handle, view), ...)`: the operation is initialized and called. -/
def await (o : StreamRecv) (ioHandle : Int) (v : RawView) : Receiving :=
  { obj := { o.start ioHandle v with task := true }, view := v }

/-- The await has returned. -/
def Returned (s : Receiving) : Prop := s.ctl = .left ∧ s.callerError.isSet = false

/-- The await has raised an error. -/
def Raised (s : Receiving) (e : Error) : Prop :=
  s.ctl = .left ∧ s.callerError = e ∧ e.isSet = true

/-! ### What lies between the kernel and the view -/

/-- The operation can be polled: it has no result yet, and its slice is the room in the view. -/
structure Armed (s : Receiving) : Prop where
  task : s.obj.task = true
  error : s.obj.error.isSet = false
  routine : s.obj.routine = .asyncIo
  result : s.obj.result = none
  buffer : s.obj.ioImpl.buffer = s.view.sliceForProducer
  view : s.obj.view = true
  received : s.received = []
  ended : s.ended = none
  caller : s.callerError.isSet = false

/-- The kernel has written bytes that are not yet committed. -/
structure Filled (v : RawView) (s : Receiving) : Prop where
  task : s.obj.task = true
  error : s.obj.error.isSet = false
  view : s.obj.view = true
  top : s.top = .caller
  result : s.obj.result = some (s.received.length : Int)
  size : s.received.length < 2 ^ 63
  extends_ : v.Extends s.view []
  commit : ∃ v', s.view.commit s.received.length = some v' ∧ v.Extends v' s.received
  ended : s.ended = if s.received = [] then some v.capacity else none
  caller : s.callerError.isSet = false

/-- An error was thrown, the end of the stream if the kernel has answered 0. -/
structure Failed (v : RawView) (s : Receiving) (e : Error) : Prop where
  error : e.isSet = true
  received : s.received = []
  extends_ : v.Extends s.view []
  ended : s.ended = if e = endOfStream then some v.capacity else none

/-- The view has what the kernel has written. -/
structure Delivered (v : RawView) (s : Receiving) : Prop where
  received : s.received ≠ []
  extends_ : v.Extends s.view s.received
  ended : s.ended = none
  caller : s.callerError.isSet = false

def Inv (v : RawView) (s : Receiving) : Prop :=
  match s.ctl with
  | .entering => v.Extends s.view [] ∧ Armed s ∨ Failed v s s.obj.error
  | .polling | .calling | .suspended | .polled .suspended | .returned .suspended =>
    v.Extends s.view [] ∧ Armed s
  | .polled .ready => Filled v s
  | .polled .raise | .returned .raise => Failed v s s.obj.error ∧ s.top = .self
  | .returned .ready => Delivered v s ∧ s.top = .caller
  | .left => (Failed v s s.callerError ∨ Delivered v s) ∧ s.obj.error.isSet = false
  | .cancelled =>
    v.Extends s.view [] ∧ s.received = [] ∧ s.ended = none ∧ s.obj.error.isSet = false
  | _ => False

variable {v : RawView} {s s' : Receiving} {e : Error} {r : IOResult} {l : List Byte}

/-- What an operation throws is the error that is seen in the next turn of the loop in `run`. -/
theorem failed_asyncThrow {ctl : SendCtl} (hset : e.isSet = true) (hreceived : s.received = [])
    (hview : v.Extends s.view []) (hended : s.ended = if e = endOfStream then some v.capacity else none) :
    Failed v (s.asyncThrow e ctl) (s.asyncThrow e ctl).obj.error := by
  have herror : (s.asyncThrow e ctl).obj.error = e := if_neg ((Error.isSet_iff e).mp hset)
  rw [herror]
  exact ⟨hset, hreceived, hview, hended⟩

theorem Armed.failed {ctl : SendCtl} (h : Armed s) (hview : v.Extends s.view []) (hset : e.isSet = true)
    (hne : e ≠ endOfStream) : Failed v (s.asyncThrow e ctl) (s.asyncThrow e ctl).obj.error :=
  failed_asyncThrow hset h.received hview (by rw [h.ended, if_neg hne])

theorem inv_enter (hctl : s.ctl = .entering) (h : Inv v s) : Inv v s.enter := by
  simp only [Inv, hctl] at h
  unfold enter
  obtain ⟨hview, harmed⟩ | hfailed := h
  · rw [if_neg (by simp [harmed.error])]
    exact ⟨hview, { harmed with }⟩
  · rw [if_pos hfailed.error]
    exact ⟨.inl { hfailed with }, rfl⟩

theorem inv_asyncIo (hctl : s.ctl = .polling) (h : Inv v s) : Inv v s.asyncIo := by
  simp only [Inv, hctl] at h
  obtain ⟨hview, harmed⟩ := h
  simp only [asyncIo, harmed.routine, harmed.result, Option.isSome_none, Bool.false_eq_true, if_false]
  exact ⟨hview, { harmed with }⟩

theorem Armed.size (h : Armed s) (hview : v.Extends s.view []) :
    s.obj.ioImpl.buffer.size = v.capacity := by
  rw [h.buffer]
  exact hview.capacity

theorem inv_answered (hctl : s.ctl = .calling) (h : Inv v s)
    (hr : Delivers s.obj.ioImpl.buffer.size r l) (added : ResultGeneric) :
    Inv v (s.answered r l added) := by
  simp only [Inv, hctl] at h
  obtain ⟨hview, harmed⟩ := h
  have hsize := harmed.size hview
  have hroom : l.length ≤ s.view.capacity := by
    rw [hview.capacity, List.length_nil, Nat.sub_zero, ← hsize]
    obtain ⟨-, -, rfl⟩ | ⟨-, -, hle, -⟩ := hr
    · exact Nat.zero_le _
    · exact hle
  obtain ⟨v₁, hstore, hkept, hend, v₂, hcommit, hextends⟩ := RawView.store_producer hroom
  simp only [answered, harmed.buffer, hstore]
  obtain ⟨hset, hcategory, rfl⟩ | ⟨hset, hint, -, hlong⟩ := hr
  · -- an error: nothing is written, and the slice stays the room behind the window
    have hview₁ : v.Extends v₁ [] := hview.trans hkept
    have hslice : v₁.sliceForProducer = s.view.sliceForProducer := by
      rw [RawView.sliceForProducer, RawView.sliceForProducer, hkept.memory, hend, hkept.capacity]
      rfl
    have harmed₁ : Armed { s with view := v₁ } := { harmed with buffer := harmed.buffer.trans hslice.symm }
    simp only [afterIo, hset, List.append_nil, Bool.true_eq_false, false_and, if_true, if_false]
    split
    · cases added with
      | failed => exact ⟨harmed₁.failed hview₁ rfl (by decide), if_pos harmed.task⟩
      | successful =>
        rw [asyncSuspend, if_pos (by exact harmed.task)]
        exact ⟨hview₁, { harmed₁ with }⟩
    · refine ⟨harmed₁.failed hview₁ hset ?_, if_pos harmed.task⟩
      rintro heq
      simp [heq, endOfStream] at hcategory
  · have hended : (if r.error.isSet = false ∧ l = [] then some s.view.sliceForProducer.size else s.ended) =
        if l = [] then some v.capacity else none := by
      rw [← harmed.buffer, hsize, harmed.ended]
      simp only [hset, true_and]
    rw [hended]
    simp only [afterIo, hset, Bool.false_eq_true, if_false, asyncReturn, harmed.task, if_true,
      harmed.received, List.nil_append]
    exact ⟨rfl, harmed.error, harmed.view, rfl, congrArg some hint, hlong, hview.trans hkept,
      ⟨v₂, hcommit, hview.trans hextends⟩, rfl, harmed.caller⟩

theorem inv_afterRecv {st : ControlState} (hctl : s.ctl = .polled st) (h : Inv v s) :
    Inv v (s.afterRecv st) := by
  cases st with
  | ready =>
    simp only [Inv, hctl] at h
    simp only [afterRecv, if_true, h.result]
    split
    · next hzero =>
      have hreceived : s.received = [] := List.eq_nil_of_length_eq_zero (Int.ofNat_eq_zero.mp hzero)
      refine ⟨failed_asyncThrow rfl hreceived h.extends_ ?_, if_pos h.task⟩
      rw [if_pos rfl, h.ended, if_pos hreceived]
    · next hzero =>
      have hreceived : s.received ≠ [] := by
        rintro hnil
        exact hzero (by rw [hnil]; rfl)
      obtain ⟨v', hcommit, hextends⟩ := h.commit
      simp only [h.view, if_true, Sending.toSizeT_natCast h.size, hcommit]
      refine ⟨⟨hreceived, hextends, ?_, h.caller⟩, h.top⟩
      rw [h.ended, if_neg hreceived]
  | raise =>
    simp only [Inv, hctl] at h
    exact ⟨{ h.1 with }, h.2⟩
  | suspended =>
    simp only [Inv, hctl] at h
    exact ⟨h.1, { h.2 with }⟩
  | yield | pause | passthrough | exited => simp [Inv, hctl] at h

theorem inv_afterPoll {st : ControlState} (hctl : s.ctl = .returned st) (h : Inv v s) :
    Inv v (s.afterPoll st) := by
  cases st with
  | ready =>
    simp only [Inv, hctl] at h
    simp only [afterPoll, h.2]
    exact ⟨.inr { h.1 with }, rfl⟩
  | raise =>
    simp only [Inv, hctl] at h
    simp only [afterPoll, h.2]
    exact .inr { h.1 with }
  | suspended =>
    simp only [Inv, hctl] at h
    exact ⟨h.1, { h.2 with }⟩
  | yield | pause | passthrough | exited => simp [Inv, hctl] at h

theorem inv_step {a : RecvLabel} (h : Inv v s) (hstep : step s a = some s') : Inv v s' := by
  cases a with
  | tick =>
    cases hctl : s.ctl <;> simp only [step, tick, hctl, Option.some.injEq, reduceCtorEq] at hstep
    case entering => exact hstep ▸ inv_enter hctl h
    case polling => exact hstep ▸ inv_asyncIo hctl h
    case polled st => exact hstep ▸ inv_afterRecv hctl h
    case returned st => exact hstep ▸ inv_afterPoll hctl h
  | answer r l added =>
    obtain ⟨⟨hctl, hr⟩, hs⟩ := Option.ite_none_right_eq_some.mp hstep
    obtain rfl := Option.some.inj hs
    exact inv_answered hctl h hr added
  | resume e =>
    obtain ⟨hctl, hs⟩ := Option.ite_none_right_eq_some.mp hstep
    obtain rfl := Option.some.inj hs
    simp only [Inv, hctl] at h
    exact .inl ⟨h.1, { h.2 with }⟩
  | cancel =>
    obtain ⟨hctl, hs⟩ := Option.ite_none_right_eq_some.mp hstep
    obtain rfl := Option.some.inj hs
    simp only [Inv, hctl] at h
    exact ⟨h.1, h.2.received, h.2.ended, rfl⟩

theorem inv_await (o : StreamRecv) (ioHandle : Int) (v : RawView) (herror : o.error.isSet = false) :
    Inv v (await o ioHandle v) :=
  .inl ⟨.refl v, rfl, herror, rfl, rfl, rfl, rfl, rfl, rfl, rfl⟩

theorem Inv.run {as : List RecvLabel} (h : Inv v s) (hrun : exec s as = some s') : Inv v s' :=
  Runs.exec_invariant (fun _ _ _ hI _ hstep => inv_step hI hstep) as s s' hrun (Runs.meets_true as s) h

/-- In every run the view is extended by what the kernel has written, and not otherwise: an await that
    returns has received something, and one that is cancelled or raises an error has left the view as it
    was. It raises `EndOfStream` exactly where `recv` answers 0, which is also what it answers to a view
    without room. -/
theorem receives_exactly (o : StreamRecv) (ioHandle : Int) (v : RawView) {as : List RecvLabel}
    (herror : o.error.isSet = false) (hrun : exec (await o ioHandle v) as = some s) :
    (s.Returned → s.received ≠ [] ∧ v.Extends s.view s.received) ∧
      (∀ e, s.Raised e → s.received = [] ∧ v.Extends s.view [] ∧
        (e = endOfStream ↔ s.ended = some v.capacity)) ∧
      (s.ctl = .cancelled → s.received = [] ∧ v.Extends s.view []) ∧
      s.ctl ≠ .aborted ∧ s.ctl ≠ .crashed := by
  have h := (inv_await o ioHandle v herror).run hrun
  refine ⟨?_, ?_, ?_, ?_, ?_⟩
  · rintro ⟨hctl, hcaller⟩
    simp only [Inv, hctl] at h
    obtain ⟨hfailed | hdelivered, -⟩ := h
    · have hset := hfailed.error
      rw [hcaller] at hset
      cases hset
    · exact ⟨hdelivered.received, hdelivered.extends_⟩
  · rintro e ⟨hctl, rfl, hset⟩
    simp only [Inv, hctl] at h
    obtain ⟨hfailed | hdelivered, -⟩ := h
    · refine ⟨hfailed.received, hfailed.extends_, ?_⟩
      rw [hfailed.ended]
      split <;> simp_all
    · rw [hdelivered.caller] at hset
      cases hset
  · intro hctl
    simp only [Inv, hctl] at h
    exact ⟨h.2.1, h.1⟩
  all_goals
    intro hctl
    simp only [Inv, hctl] at h

/-- A view without room, on a stream that goes on. -/
example : ∃ s, exec (await {} 5 (RawView.resetFull (RawView.fresh 4096 [1])))
    [.tick, .tick, .answer ⟨{}, 0⟩ [] .successful, .tick, .tick, .tick] = some s ∧ s.Raised endOfStream :=
  ⟨_, rfl, rfl, rfl, rfl⟩

/-- The first call would block; after the event two bytes are there. -/
theorem receives_exactly_resumed :
    ∃ s, exec (await {} 5 (RawView.fresh 4096 [0, 0, 0]))
        [.tick, .tick, .answer ⟨⟨EAGAIN, categoryAgain⟩, -1⟩ [] .successful, .tick, .tick, .resume {},
          .tick, .tick, .answer ⟨{}, 2⟩ [1, 2] .successful, .tick, .tick] = some s ∧
      s.Returned ∧ s.received = [1, 2] ∧ s.view.content = [1, 2] := by
  have hrun : ∃ s, exec (await {} 5 (RawView.fresh 4096 [0, 0, 0]))
      [.tick, .tick, .answer ⟨⟨EAGAIN, categoryAgain⟩, -1⟩ [] .successful, .tick, .tick, .resume {},
        .tick, .tick, .answer ⟨{}, 2⟩ [1, 2] .successful, .tick, .tick] = some s ∧
      s.Returned ∧ s.received = [1, 2] := ⟨_, rfl, ⟨rfl, rfl⟩, rfl⟩
  obtain ⟨s, hrun, hreturned, hreceived⟩ := hrun
  obtain ⟨-, hextends⟩ := (receives_exactly _ _ _ rfl hrun).1 hreturned
  exact ⟨s, hrun, hreturned, hreceived, by rw [hextends.content, hreceived]; rfl⟩

end Receiving

end Jinx.Posix
