import Jinx.Posix.StreamRecv

/-! Two ends of a stream socket: one side awaits `StreamSend` again and again, the other side `StreamRecv`.

    The steps of the two sides come in any order. The kernel holds the bytes that one side has sent and the
    other has not received, hands them on in pieces of any size, and answers 0 at the end of the stream.
    Between two awaits a side does what it likes with its own view. -/

namespace Jinx.Posix
open Jinx Http

structure SocketPipe where
  sender : Sending
  receiver : Receiving
  /-- the bytes in the kernel -/
  flight : List Byte := []
  /-- `shutdown(SHUT_WR)` was called -/
  closed : Bool := false
  /-- what was put into the views of the sender -/
  written : List Byte
  /-- what earlier operations have sent -/
  gone : List Byte := []
  /-- what was taken from the views of the receiver -/
  taken : List Byte := []

inductive PipeLabel where
  | send (l : Sending.SendLabel)
  | recv (a : Receiving.RecvLabel)
  /-- the sender has put `l` behind what is left, and awaits again -/
  | awaitSend (ioHandle : Int) (v : RawView) (l : List Byte)
  /-- the receiver has taken `n` bytes, and awaits again -/
  | awaitRecv (ioHandle : Int) (v : RawView) (n : Nat)
  /-- `StreamSocket::shutdown` -/
  | shutdown

namespace Sending

/-- What goes into the kernel. -/
def enters (s : Sending) : SendLabel → List Byte
  | .answer r _ => s.accepted r
  | _ => []

/-- A socket that is shut down does not send. -/
def allowed (closed : Bool) : SendLabel → Bool
  | .answer r _ => !closed || r.error.isSet
  | _ => true

end Sending

namespace SendCtl

/-- The await is over, and the caller has control. -/
def outside : SendCtl → Bool
  | .left | .cancelled => true
  | _ => false

end SendCtl

namespace SocketPipe

/-- What comes out of the kernel. -/
def leaves : Receiving.RecvLabel → List Byte
  | .answer _ l _ => l
  | _ => []

/-- The bytes are next in the stream, and 0 is answered where no room is offered or the stream has ended. -/
def delivers (p : SocketPipe) : Receiving.RecvLabel → Bool
  | .answer r l _ =>
    l.isPrefixOf p.flight &&
      (r.error.isSet || !l.isEmpty || p.receiver.obj.ioImpl.buffer.size == 0 ||
        p.closed && p.flight.isEmpty)
  | _ => true

/-- One step; `none` where the label cannot happen. -/
def step (p : SocketPipe) : PipeLabel → Option SocketPipe
  | .send l =>
    if Sending.allowed p.closed l then
      (Sending.step p.sender l).map fun s =>
        { p with sender := s, flight := p.flight ++ p.sender.enters l }
    else none
  | .recv a =>
    if p.delivers a then
      (Receiving.step p.receiver a).map fun s =>
        { p with receiver := s, flight := p.flight.drop (leaves a).length }
    else none
  | .awaitSend ioHandle v l =>
    if p.sender.ctl.outside ∧ v.content = p.sender.view.content ++ l then
      some { p with
        sender := .await p.sender.obj ioHandle v
        written := p.written ++ l
        gone := p.gone ++ p.sender.sent }
    else none
  | .awaitRecv ioHandle v n =>
    if p.receiver.ctl.outside ∧ v.content = p.receiver.view.content.drop n then
      some { p with
        receiver := .await p.receiver.obj ioHandle v
        taken := p.taken ++ p.receiver.view.content.take n }
    else none
  | .shutdown => some { p with closed := true }

abbrev exec : SocketPipe → List PipeLabel → Option SocketPipe := Runs.exec step

/-- Both sides await for the first time, the receiver with an empty buffer. -/
def init (handleS handleR : Int) (v : RawView) (memory : Nat) (bytes : List Byte) : SocketPipe :=
  { sender := .await {} handleS v
    receiver := .await {} handleR (.fresh memory bytes)
    written := v.content }

end SocketPipe

/-! ### What the two sides do to the counts -/

namespace Sending

variable {s s' : Sending} {l : SendLabel}

theorem afterIo_sent (s : Sending) (r : IOResult) (added : ResultGeneric) :
    (s.afterIo r added).sent = s.sent := by
  unfold afterIo asyncSuspend asyncReturn
  repeat' split
  all_goals rfl

theorem tick_sent (h : s.tick = some s') : s'.sent = s.sent := by
  unfold tick at h
  split at h
  all_goals first | (cases h; done) | obtain rfl := Option.some.inj h
  · unfold enter
    split <;> rfl
  · unfold asyncIo asyncReturn
    repeat' split
    all_goals rfl
  · unfold afterSend
    repeat' split
    all_goals rfl
  · unfold afterPoll
    repeat' split
    all_goals rfl

theorem step_sent (h : step s l = some s') : s'.sent = s.sent ++ s.enters l := by
  cases l with
  | tick => exact (tick_sent h).trans (List.append_nil _).symm
  | answer r added =>
    obtain ⟨-, hs⟩ := Option.ite_none_right_eq_some.mp h
    obtain rfl := Option.some.inj hs
    exact afterIo_sent ..
  | resume e =>
    obtain ⟨-, hs⟩ := Option.ite_none_right_eq_some.mp h
    obtain rfl := Option.some.inj hs
    exact (List.append_nil _).symm
  | cancel =>
    obtain ⟨-, hs⟩ := Option.ite_none_right_eq_some.mp h
    obtain rfl := Option.some.inj hs
    exact (List.append_nil _).symm

/-- Nothing enters after the end. -/
theorem enters_closed (h : allowed true l = true) : s.enters l = [] := by
  cases l with
  | answer r added => exact if_pos (by simpa [allowed] using h)
  | tick | resume e | cancel => rfl

end Sending

namespace Receiving

variable {s s' : Receiving} {a : RecvLabel}

theorem afterIo_counts (s : Receiving) (r : IOResult) (added : ResultGeneric) :
    (s.afterIo r added).received = s.received ∧ (s.afterIo r added).ended = s.ended := by
  unfold afterIo asyncSuspend asyncReturn
  repeat' split
  all_goals exact ⟨rfl, rfl⟩

theorem tick_counts (h : s.tick = some s') : s'.received = s.received ∧ s'.ended = s.ended := by
  unfold tick at h
  split at h
  all_goals first | (cases h; done) | obtain rfl := Option.some.inj h
  · unfold enter
    split <;> exact ⟨rfl, rfl⟩
  · unfold asyncIo asyncReturn
    repeat' split
    all_goals exact ⟨rfl, rfl⟩
  · unfold afterRecv
    repeat' split
    all_goals exact ⟨rfl, rfl⟩
  · unfold afterPoll
    repeat' split
    all_goals exact ⟨rfl, rfl⟩

end Receiving

namespace SocketPipe

variable {p p' : SocketPipe}

/-- What is received is what has left the kernel, unless the memory was missed; 0 is answered or not. -/
theorem step_received {a : Receiving.RecvLabel} {s : Receiving} (h : Receiving.step p.receiver a = some s)
    (hcrash : s.ctl ≠ .crashed) :
    s.received = p.receiver.received ++ leaves a ∧
      (s.ended = p.receiver.ended ∨ ∃ r added, a = .answer r [] added ∧ r.error.isSet = false ∧
        s.ended = some p.receiver.obj.ioImpl.buffer.size) := by
  cases a with
  | tick =>
    obtain ⟨hreceived, hended⟩ := Receiving.tick_counts h
    exact ⟨hreceived.trans (List.append_nil _).symm, .inl hended⟩
  | answer r l added =>
    obtain ⟨-, hs⟩ := Option.ite_none_right_eq_some.mp h
    obtain rfl := Option.some.inj hs
    unfold Receiving.answered at hcrash ⊢
    cases hstore : p.receiver.view.store p.receiver.obj.ioImpl.buffer.data l with
    | none => simp [hstore] at hcrash
    | some v =>
      refine ⟨(Receiving.afterIo_counts ..).1, ?_⟩
      simp only [(Receiving.afterIo_counts ..).2]
      by_cases hzero : r.error.isSet = false ∧ l = []
      · obtain ⟨hset, rfl⟩ := hzero
        exact .inr ⟨r, added, rfl, hset, if_pos ⟨hset, rfl⟩⟩
      · exact .inl (if_neg hzero)
  | resume e =>
    obtain ⟨-, hs⟩ := Option.ite_none_right_eq_some.mp h
    obtain rfl := Option.some.inj hs
    exact ⟨(List.append_nil _).symm, .inl rfl⟩
  | cancel =>
    obtain ⟨-, hs⟩ := Option.ite_none_right_eq_some.mp h
    obtain rfl := Option.some.inj hs
    exact ⟨(List.append_nil _).symm, .inl rfl⟩

/-! ### What holds in every interleaving -/

/-- What was written is what the kernel has taken from the sender, and what it has still to take; what it
    has taken is with the receiver, or still in the kernel. -/
structure Inv (p : SocketPipe) : Prop where
  sender : ∃ content, Sending.Inv content p.sender ∧ p.gone ++ content = p.written
  receiver : ∃ v, Receiving.Inv v p.receiver ∧
    p.gone ++ p.sender.sent = p.taken ++ v.content ++ p.receiver.received ++ p.flight
  ended : ∀ n, p.receiver.ended = some n → n = 0 ∨ p.closed = true ∧ p.flight = []

theorem outside_sender {content : List Byte} (h : Sending.Inv content p.sender)
    (hctl : p.sender.ctl.outside = true) : p.sender.sent ++ p.sender.view.content = content := by
  unfold Sending.Inv at h
  revert h
  cases hcase : p.sender.ctl <;> simp only [hcase, SendCtl.outside, Bool.false_eq_true] at hctl
  case left => exact And.left
  case cancelled => exact id

theorem outside_receiver {v : RawView} (h : Receiving.Inv v p.receiver)
    (hctl : p.receiver.ctl.outside = true) :
    p.receiver.view.content = v.content ++ p.receiver.received ∧ p.receiver.obj.error.isSet = false := by
  unfold Receiving.Inv at h
  revert h
  cases hcase : p.receiver.ctl <;> simp only [hcase, SendCtl.outside, Bool.false_eq_true] at hctl
  case left =>
    rintro ⟨hfailed | hdelivered, herror⟩
    · exact ⟨by rw [hfailed.extends_.content, hfailed.received], herror⟩
    · exact ⟨hdelivered.extends_.content, herror⟩
  case cancelled =>
    rintro ⟨hview, hreceived, -, herror⟩
    exact ⟨by rw [hview.content, hreceived], herror⟩

theorem inv_init (handleS handleR : Int) (v : RawView) (memory : Nat) (bytes : List Byte) :
    Inv (init handleS handleR v memory bytes) := by
  refine ⟨⟨v.content, Sending.inv_await .., rfl⟩, ⟨_, Receiving.inv_await _ _ _ rfl, rfl⟩, ?_⟩
  rintro n hn
  cases hn

theorem inv_send {l : Sending.SendLabel} {s : Sending} (h : Inv p) (hallowed : Sending.allowed p.closed l = true)
    (hstep : Sending.step p.sender l = some s) :
    Inv { p with sender := s, flight := p.flight ++ p.sender.enters l } := by
  obtain ⟨content, hsender, hwritten⟩ := h.sender
  obtain ⟨v, hreceiver, hcount⟩ := h.receiver
  refine ⟨⟨content, Sending.inv_step hsender hstep, hwritten⟩, ⟨v, hreceiver, ?_⟩, ?_⟩
  · show p.gone ++ s.sent = p.taken ++ v.content ++ p.receiver.received ++ (p.flight ++ p.sender.enters l)
    rw [Sending.step_sent hstep, ← List.append_assoc, hcount, List.append_assoc _ p.flight]
  · intro n hn
    refine (h.ended n hn).imp_right fun ⟨hclosed, hflight⟩ => ⟨hclosed, ?_⟩
    show p.flight ++ p.sender.enters l = []
    rw [hflight, Sending.enters_closed (hclosed ▸ hallowed), List.append_nil]

theorem inv_recv {a : Receiving.RecvLabel} {s : Receiving} (h : Inv p) (hdelivers : p.delivers a = true)
    (hstep : Receiving.step p.receiver a = some s) :
    Inv { p with receiver := s, flight := p.flight.drop (leaves a).length } := by
  obtain ⟨v, hreceiver, hcount⟩ := h.receiver
  have hnext := Receiving.inv_step hreceiver hstep
  have hcrash : s.ctl ≠ .crashed := by
    intro hctl
    simp only [Receiving.Inv, hctl] at hnext
  obtain ⟨hreceived, hended⟩ := step_received hstep hcrash
  have hflight : leaves a ++ p.flight.drop (leaves a).length = p.flight := by
    cases a with
    | answer r l added =>
      have hprefix : l <+: p.flight := List.isPrefixOf_iff_prefix.mp (Bool.and_eq_true_iff.mp hdelivers).1
      obtain ⟨rest, hrest⟩ := hprefix
      rw [leaves, ← hrest, List.drop_left]
    | tick | resume e | cancel => rfl
  refine ⟨h.sender, ⟨v, hnext, ?_⟩, ?_⟩
  · show p.gone ++ p.sender.sent =
      p.taken ++ v.content ++ s.received ++ p.flight.drop (leaves a).length
    rw [hcount, hreceived, ← List.append_assoc, List.append_assoc _ (leaves a), hflight]
  · intro n hn
    obtain hsame | ⟨r, added, rfl, hset, hsome⟩ := hended
    · refine (h.ended n (hsame ▸ hn)).imp_right fun hend => ⟨hend.1, ?_⟩
      show p.flight.drop _ = []
      rw [hend.2, List.drop_nil]
    · obtain rfl : p.receiver.obj.ioImpl.buffer.size = n := Option.some.inj (hsome.symm.trans hn)
      simpa [delivers, leaves, hset] using hdelivers

theorem inv_step {a : PipeLabel} (h : Inv p) (hstep : step p a = some p') : Inv p' := by
  cases a with
  | send l =>
    obtain ⟨hallowed, hmap⟩ := Option.ite_none_right_eq_some.mp hstep
    obtain ⟨s, hs, rfl⟩ := Option.map_eq_some_iff.mp hmap
    exact inv_send h hallowed hs
  | recv a =>
    obtain ⟨hdelivers, hmap⟩ := Option.ite_none_right_eq_some.mp hstep
    obtain ⟨s, hs, rfl⟩ := Option.map_eq_some_iff.mp hmap
    exact inv_recv h hdelivers hs
  | awaitSend ioHandle v l =>
    obtain ⟨⟨hctl, hv⟩, hs⟩ := Option.ite_none_right_eq_some.mp hstep
    obtain rfl := Option.some.inj hs
    obtain ⟨content, hsender, hwritten⟩ := h.sender
    obtain ⟨w, hreceiver, hcount⟩ := h.receiver
    have hbalanced := outside_sender hsender hctl
    refine ⟨⟨v.content, Sending.inv_await .., ?_⟩, ⟨w, hreceiver, ?_⟩, h.ended⟩
    · show p.gone ++ p.sender.sent ++ v.content = p.written ++ l
      rw [hv, ← hwritten, ← hbalanced]
      simp only [List.append_assoc]
    · show p.gone ++ p.sender.sent ++ [] = _
      rw [List.append_nil, hcount]
  | awaitRecv ioHandle v n =>
    obtain ⟨⟨hctl, hv⟩, hs⟩ := Option.ite_none_right_eq_some.mp hstep
    obtain rfl := Option.some.inj hs
    obtain ⟨w, hreceiver, hcount⟩ := h.receiver
    obtain ⟨hcontent, herror⟩ := outside_receiver hreceiver hctl
    refine ⟨h.sender, ⟨v, Receiving.inv_await _ _ _ herror, ?_⟩, ?_⟩
    · show p.gone ++ p.sender.sent =
        p.taken ++ p.receiver.view.content.take n ++ v.content ++ [] ++ p.flight
      rw [hcount, hv, List.append_nil, List.append_assoc p.taken (List.take n _), List.take_append_drop,
        hcontent, List.append_assoc p.taken]
    · rintro m hm
      cases hm
  | shutdown =>
    obtain rfl := Option.some.inj hstep
    exact ⟨h.sender, h.receiver, fun n hn => (h.ended n hn).imp_right fun hend => ⟨rfl, hend.2⟩⟩

theorem Inv.run {as : List PipeLabel} (h : Inv p) (hrun : exec p as = some p') : Inv p' :=
  Runs.exec_invariant (fun _ _ _ hI _ hstep => inv_step hI hstep) as p p' hrun (Runs.meets_true as p) h

/-- The view shows what was there, and what is received once it is committed. -/
theorem received_prefix {v : RawView} {s : Receiving} (h : Receiving.Inv v s) :
    s.view.content <+: v.content ++ s.received := by
  have hkept : v.Extends s.view [] → s.view.content <+: v.content ++ s.received := fun hview =>
    ⟨s.received, by rw [hview.content, List.append_nil]⟩
  unfold Receiving.Inv at h
  split at h
  case h_1 => exact hkept (h.elim And.left fun hfailed => hfailed.extends_)
  case h_7 => exact hkept h.extends_
  case h_8 | h_9 => exact hkept h.1.extends_
  case h_10 => exact ⟨[], by rw [List.append_nil, h.1.extends_.content]⟩
  case h_11 =>
    obtain ⟨hfailed | hdelivered, -⟩ := h
    · exact hkept hfailed.extends_
    · exact ⟨[], by rw [List.append_nil, hdelivered.extends_.content]⟩
  case h_13 => exact h.elim
  all_goals exact hkept h.1

/-- The end of the stream is raised for a view without room, or at the end of the stream. -/
theorem ended_of_raised (h : Inv p) (hraised : p.receiver.Raised endOfStream) :
    p.receiver.view.capacity = 0 ∨ p.closed = true ∧ p.flight = [] := by
  obtain ⟨v, hreceiver, -⟩ := h.receiver
  obtain ⟨hctl, herror, hset⟩ := hraised
  simp only [Receiving.Inv, hctl, herror] at hreceiver
  obtain ⟨hfailed | hdelivered, -⟩ := hreceiver
  · have hcapacity : p.receiver.view.capacity = v.capacity := hfailed.extends_.capacity
    rw [hcapacity]
    exact h.ended _ (by rw [hfailed.ended, if_pos rfl])
  · have hunset := hdelivered.caller
    rw [herror, hset] at hunset
    cases hunset

/-- Whatever the order of the steps, the receiver sees the bytes that were written, in their order, each
    of them once. Outside the two operations the rest is in the kernel and in the view of the sender. An
    await that raises `EndOfStream` was given no room, or everything the kernel has accepted is there: all
    that was written, if the sender's await has returned. -/
theorem arrives_in_order (handleS handleR : Int) (v : RawView) (memory : Nat) (bytes : List Byte)
    {as : List PipeLabel} (hrun : exec (init handleS handleR v memory bytes) as = some p) :
    p.taken ++ p.receiver.view.content <+: p.written ∧
      (p.sender.ctl.outside = true → p.receiver.ctl.outside = true →
        p.taken ++ p.receiver.view.content ++ p.flight ++ p.sender.view.content = p.written) ∧
      (p.receiver.Raised endOfStream → p.receiver.view.capacity ≠ 0 →
        p.closed = true ∧ p.taken ++ p.receiver.view.content = p.gone ++ p.sender.sent ∧
          (p.sender.Returned → p.taken ++ p.receiver.view.content = p.written)) := by
  have h := (inv_init handleS handleR v memory bytes).run hrun
  obtain ⟨content, hsender, hwritten⟩ := h.sender
  obtain ⟨w, hreceiver, hcount⟩ := h.receiver
  refine ⟨?_, ?_, ?_⟩
  · obtain ⟨rest, hrest⟩ := received_prefix hreceiver
    obtain ⟨unsent, hunsent⟩ := hsender.sent_prefix
    refine ⟨rest ++ p.flight ++ unsent, ?_⟩
    rw [← hwritten, ← hunsent, ← List.append_assoc p.gone, hcount, List.append_assoc p.taken w.content, ← hrest]
    simp only [List.append_assoc]
  · intro hs hr
    rw [← hwritten, ← outside_sender hsender hs, ← List.append_assoc p.gone, hcount,
      (outside_receiver hreceiver hr).1]
    simp only [List.append_assoc]
  · intro hraised hroom
    obtain ⟨hclosed, hflight⟩ := (ended_of_raised h hraised).resolve_left hroom
    have hctl : p.receiver.ctl.outside = true := by rw [hraised.1]; rfl
    have harrived : p.taken ++ p.receiver.view.content = p.gone ++ p.sender.sent := by
      rw [hcount, hflight, List.append_nil, (outside_receiver hreceiver hctl).1, List.append_assoc]
    refine ⟨hclosed, harrived, ?_⟩
    rintro ⟨hleft, hcaller⟩
    have hout : p.sender.ctl.outside = true := by rw [hleft]; rfl
    simp only [Sending.Inv, hleft] at hsender
    have hempty : p.sender.view.content = [] :=
      List.eq_nil_of_length_eq_zero
        (p.sender.view.content_length.trans (hsender.2.resolve_left (by simp [hcaller])))
    have hbalanced : p.sender.sent ++ p.sender.view.content = content := hsender.1
    rw [harrived, ← hwritten, ← hbalanced, hempty, List.append_nil]

/-- Two bytes are sent at once and received one by one; then the stream is closed. -/
def closedStream : List PipeLabel :=
  [.send .tick, .send .tick, .send (.answer ⟨{}, 2⟩ .successful),
    .recv .tick, .recv .tick, .recv (.answer ⟨{}, 1⟩ [1] .successful), .send .tick, .recv .tick, .recv .tick,
    .awaitRecv 4 (.fresh 8192 [0, 0]) 1, .recv .tick, .recv .tick,
    .recv (.answer ⟨{}, 1⟩ [2] .successful), .recv .tick, .recv .tick, .send .tick, .shutdown,
    .awaitRecv 4 (.fresh 8192 [0, 0]) 1, .recv .tick, .recv .tick, .recv (.answer ⟨{}, 0⟩ [] .successful),
    .recv .tick, .recv .tick, .recv .tick]

theorem arrives_in_order_closed :
    ∃ p, exec (init 3 4 (RawView.resetFull (RawView.fresh 4096 [1, 2])) 8192 [0, 0]) closedStream = some p ∧
      p.receiver.Raised endOfStream ∧ p.taken ++ p.receiver.view.content = p.written ∧
      p.written = [1, 2] := by
  have hrun : ∃ p, exec (init 3 4 (RawView.resetFull (RawView.fresh 4096 [1, 2])) 8192 [0, 0])
      closedStream = some p ∧ p.receiver.Raised endOfStream ∧ p.receiver.view.capacity ≠ 0 ∧
      p.sender.Returned ∧ p.written = [1, 2] :=
    ⟨_, rfl, ⟨rfl, rfl, rfl⟩, by decide, ⟨rfl, rfl⟩, rfl⟩
  obtain ⟨p, hrun, hraised, hroom, hreturned, hwritten⟩ := hrun
  exact ⟨p, hrun, hraised, ((arrives_in_order 3 4 _ _ _ hrun).2.2 hraised hroom).2.2 hreturned, hwritten⟩

end SocketPipe

end Jinx.Posix
