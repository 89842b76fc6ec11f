import Jinx.Http.RoundTrip
import Jinx.Posix.SocketPipe

/-! A message from one end of a connection to the other: a builder writes it, `StreamSend` sends it, and
    the parser at the other end reads it.

    The steps of the two ends come in any order, and the kernel hands the bytes on in pieces of any size.
    With the bytes that are not sent yet the session of the parser is one on the whole message, as it is
    when the message lies on its stream from the beginning. -/

namespace Jinx.Http
open Jinx Posix Incremental

/-- The stream of the session is what is in the kernel. -/
structure Exchange where
  sender : Sending
  session : Session
  /-- the sender has shut down its side -/
  closed : Bool := false

namespace Exchange

inductive ExchangeLabel where
  | send (l : Sending.SendLabel)
  | recv (l : Session.Label)
  | shutdown

/-- The stream ends when the sender has shut it down, and nothing is left in the kernel. -/
def delivers (x : Exchange) : Session.Label → Bool
  | .endOfStream => x.closed
  | _ => true

def arrive (s : Session) (bytes : List Byte) : Session := { s with stream := s.stream ++ bytes }

/-- One step; `none` where the label cannot happen. -/
def step (x : Exchange) : ExchangeLabel → Option Exchange
  | .send l =>
    if Sending.allowed x.closed l then
      (Sending.step x.sender l).map fun s =>
        { x with sender := s, session := arrive x.session (x.sender.enters l) }
    else none
  | .recv l =>
    if x.delivers l then (Session.step x.session l).map fun s => { x with session := s } else none
  | .shutdown => if x.sender.ctl.outside then some { x with closed := true } else none

abbrev exec : Exchange → List ExchangeLabel → Option Exchange := Runs.exec step

/-- The view is written to the connection, and a parser with `M` bytes of memory reads from it. -/
def init (ioHandle : Int) (v : RawView) (M : Nat) : Exchange :=
  { sender := .await {} ioHandle v, session := .init (.empty M) [] }

/-- What is not sent of the text. -/
def unsent (x : Exchange) (text : List Byte) : List Byte := text.drop x.sender.sent.length

/-- The bytes that the parser has left in its view, and those that are still on the way. -/
def left (x : Exchange) (text : List Byte) : List Byte :=
  x.session.parser.buffer.window ++ x.session.stream ++ x.unsent text

/-- The reports of a session that the end of the stream has cut short. -/
def Cut (x : Exchange) (text : List Byte) (reports : List Report) : Prop :=
  x.closed = true ∧ x.sender.sent ≠ text ∧
    ∃ p, p <+: reports ∧ x.session.reports = p ++ [.final (some .endOfStream)]

variable {x x' : Exchange} {text : List Byte} {M : Nat} {rs : List Report}
  {e : Option (Report × List Byte)}

/-- The session as if all the bytes were on its stream. -/
def whole (x : Exchange) (text : List Byte) : Session := arrive x.session (x.unsent text)

/-- The session is one on the whole text, unless the end of the stream has come before. -/
structure Inv (text : List Byte) (M : Nat) (rs : List Report) (e : Option (Report × List Byte))
    (x : Exchange) : Prop where
  sender : Sending.Inv text x.sender
  session : Session.OnTheWay text M rs e (x.whole text) ∨ x.session.phase = .done ∧ x.Cut text rs
  closed : x.closed = true → x.sender.ctl.outside = true

/-! ### What comes later does not matter before -/

theorem settle_arrive (s : Session) (bytes : List Byte) (r : HTTPParser × Async) :
    (arrive s bytes).settle r = arrive (s.settle r) bytes := by
  obtain ⟨p, a⟩ := r
  cases a <;> rfl

/-- A step that is not the end of the stream goes the same way with more bytes on the stream. -/
theorem step_arrive {s t : Session} {l : Session.Label} (hl : l ≠ .endOfStream) (bytes : List Byte)
    (h : Session.step s l = some t) : Session.step (arrive s bytes) l = some (arrive t bytes) := by
  cases l with
  | await =>
    obtain ⟨hphase, hs⟩ := Option.ite_none_right_eq_some.mp h
    obtain rfl := Option.some.inj hs
    have hsame : (arrive s bytes).await = arrive s.await bytes := by
      unfold Session.await
      rw [show (arrive s bytes).callback = s.callback from rfl]
      split <;> exact settle_arrive ..
    exact (if_pos hphase).trans (congrArg some hsame)
  | read k =>
    obtain ⟨⟨hphase, hpos, hk⟩, hs⟩ := Option.ite_none_right_eq_some.mp h
    obtain ⟨buffer, hbuffer, rfl⟩ := Option.map_eq_some_iff.mp hs
    have hk' : k ≤ (arrive s bytes).stream.length := by
      show k ≤ (s.stream ++ bytes).length
      rw [List.length_append]
      omega
    have htake : (arrive s bytes).stream.take k = s.stream.take k := List.take_append_of_le_length hk
    have hdrop : (arrive s bytes).stream.drop k = s.stream.drop k ++ bytes :=
      List.drop_append_of_le_length hk
    refine (if_pos ⟨hphase, hpos, hk'⟩).trans ?_
    rw [htake, hdrop, show (arrive s bytes).parser = s.parser from rfl, hbuffer, Option.map_some]
    exact congrArg some (settle_arrive { s with stream := s.stream.drop k } bytes _)
  | endOfStream => exact (hl rfl).elim

theorem arrive_nil (s : Session) : arrive s [] = s := by
  simp only [arrive, List.append_nil]

/-- What is sent moves from one part of the stream to the other. -/
theorem whole_send {sent bytes : List Byte} (h : sent ++ bytes <+: text) (s : Session) :
    arrive (arrive s bytes) (text.drop (sent ++ bytes).length) = arrive s (text.drop sent.length) := by
  obtain ⟨rest, rfl⟩ := h
  have hrest : (sent ++ bytes ++ rest).drop sent.length = bytes ++ rest := by
    rw [List.append_assoc, List.drop_left]
  rw [List.drop_left, hrest]
  simp only [arrive, List.append_assoc]

/-- A session that has ended does nothing. -/
theorem step_of_done {s : Session} (h : s.phase = .done) (l : Session.Label) : Session.step s l = none := by
  cases l <;> simp [Session.step, h]

theorem step_of_outside {s : Sending} (h : s.ctl.outside = true) (l : Sending.SendLabel) :
    Sending.step s l = none := by
  cases hctl : s.ctl <;> simp only [hctl, SendCtl.outside, Bool.false_eq_true] at h
  all_goals cases l <;> simp [Sending.step, Sending.tick, hctl]

/-! ### In every interleaving -/

theorem inv_init (ioHandle : Int) {v : RawView} (hv : v.content = text)
    (h : Outputs HTTPParser.verdict .startLine (text.take M) rs e) : Inv text M rs e (init ioHandle v M) where
  sender := hv ▸ Sending.inv_await {} ioHandle v
  session := .inl (Session.onTheWay_init h)
  closed hclosed := by cases hclosed

theorem Inv.recv (h : Inv text M rs e x) {l : Session.Label} (hdelivers : x.delivers l = true) {s : Session}
    (hstep : Session.step x.session l = some s) : Inv text M rs e { x with session := s } := by
  refine ⟨h.sender, ?_, h.closed⟩
  obtain hway | ⟨hdone, -⟩ := h.session
  · by_cases hl : l = .endOfStream
    · subst hl
      obtain ⟨⟨hphase, hstream⟩, hs⟩ := Option.ite_none_right_eq_some.mp hstep
      by_cases hunsent : x.unsent text = []
      · -- everything has arrived: it is the end of the whole text
        refine .inl ?_
        have hwhole : x.whole text = x.session := by rw [whole, hunsent, arrive_nil]
        rw [hwhole] at hway
        rw [whole, show ({ x with session := s } : Exchange).unsent text = x.unsent text from rfl, hunsent,
          arrive_nil]
        exact hway.step hstep
      · refine .inr ?_
        obtain rfl := Option.some.inj hs
        have hphase' : (x.whole text).phase = .reading := hphase
        simp only [Session.OnTheWay, hphase'] at hway
        obtain ⟨rs', hrs, -⟩ := hway
        refine ⟨rfl, hdelivers, fun heq => hunsent ?_, x.session.reports, ⟨rs', hrs.symm⟩, rfl⟩
        rw [unsent, heq, List.drop_length]
    · exact .inl (hway.step (step_arrive hl _ hstep))
  · rw [step_of_done hdone] at hstep
    cases hstep

theorem Inv.step {a : ExchangeLabel} (h : Inv text M rs e x) (hstep : x.step a = some x') :
    Inv text M rs e x' := by
  cases a with
  | send l =>
    obtain ⟨-, hmap⟩ := Option.ite_none_right_eq_some.mp hstep
    obtain ⟨s, hs, rfl⟩ := Option.map_eq_some_iff.mp hmap
    have hsender := Sending.inv_step h.sender hs
    have hsent := Sending.step_sent hs
    cases hclosed : x.closed with
    | true =>
      rw [step_of_outside (h.closed hclosed)] at hs
      cases hs
    | false =>
      refine ⟨hsender, ?_, fun hc => by simp at hc⟩
      obtain hway | ⟨-, hcut, -⟩ := h.session
      · refine .inl ?_
        have hprefix := hsender.sent_prefix
        rw [hsent] at hprefix
        rw [whole, unsent, hsent]
        exact (whole_send hprefix x.session).symm ▸ hway
      · rw [hclosed] at hcut
        cases hcut
  | recv l =>
    obtain ⟨hdelivers, hmap⟩ := Option.ite_none_right_eq_some.mp hstep
    obtain ⟨s, hs, rfl⟩ := Option.map_eq_some_iff.mp hmap
    exact h.recv hdelivers hs
  | shutdown =>
    obtain ⟨hout, hs⟩ := Option.ite_none_right_eq_some.mp hstep
    obtain rfl := Option.some.inj hs
    exact ⟨h.sender, h.session.imp_right fun ⟨hdone, _, hrest⟩ => ⟨hdone, rfl, hrest⟩, fun _ => hout⟩

theorem Inv.run {as : List ExchangeLabel} (h : Inv text M rs e x) (hrun : exec x as = some x') :
    Inv text M rs e x' :=
  Runs.exec_invariant (fun _ _ _ hI _ hstep => hI.step hstep) as x x' hrun (Runs.meets_true as x) h

/-- What the parser at the other end makes of a message: while it is not done, its reports are the first
    of the message; when it is, they are those of the message, and the body is behind them, unless the
    stream was shut down before all was sent. -/
structure Arrives (x : Exchange) (text body : List Byte) (reports : List Report) : Prop where
  sent : x.sender.sent <+: text
  begun : x.session.phase ≠ .done → x.session.reports <+: reports
  done : x.session.phase = .done →
    x.session.reports = reports ∧ x.left text = body ∨ x.Cut text reports
  sound : x.session.phase ≠ .failed

end Exchange

/-- A message that is sent and parsed, in any interleaving. -/
theorem MessageHead.arrives (h : MessageHead) (hfields : h.fields ≠ []) {v : RawView} {body : List Byte}
    (hv : v.content = h.bytes ++ body) {M : Nat} (hM : h.bytes.length ≤ M) (ioHandle : Int)
    {as : List Exchange.ExchangeLabel} {x : Exchange}
    (hrun : Exchange.exec (.init ioHandle v M) as = some x) : x.Arrives v.content body h.reports := by
  have hout := h.outputs_bytes hfields (body.take (M - h.bytes.length))
  rw [← h.take_bytes hM, ← hv] at hout
  have hbody : body.take (M - h.bytes.length) ++ (h.bytes ++ body).drop M = body := by
    rw [List.drop_append, List.drop_eq_nil_of_le hM, List.nil_append, List.take_append_drop]
  rw [← hv] at hbody
  have hinv := (Exchange.inv_init ioHandle rfl hout).run hrun
  have hreports : h.reports = (.startLine h.first h.second h.third :: h.fields.map FieldLine.report) ++
      [.final (some .complete)] := rfl
  have hwhole : ∀ {q}, x.session.phase = q → (x.whole v.content).phase = q := id
  refine ⟨hinv.sender.sent_prefix, ?_, ?_, ?_⟩
  · intro hphase
    obtain hway | ⟨hdone, -⟩ := hinv.session
    · rw [hreports]
      cases hcase : x.session.phase <;> simp only [Session.OnTheWay, hwhole hcase] at hway
      case idle | reading =>
        obtain ⟨rs', hrs, -⟩ := hway
        exact (show x.session.reports <+: _ from ⟨rs', hrs.symm⟩).trans (List.prefix_append ..)
      case done => exact (hphase hcase).elim
    · exact (hphase hdone).elim
  · intro hphase
    refine hinv.session.imp (fun hway => ?_) fun hcut => ?_
    · simp only [Session.OnTheWay, hwhole hphase] at hway
      obtain ⟨hfirst, hsecond⟩ := Prod.mk.inj hway
      refine ⟨hfirst, ?_⟩
      rw [Session.body, hbody] at hsecond
      obtain ⟨-, hbytes⟩ := Option.ite_none_right_eq_some.mp hsecond
      exact (List.append_assoc ..).trans (Option.some.inj hbytes)
    · obtain ⟨-, hclosed, hsent, p, hp, hrs⟩ := hcut
      exact ⟨hclosed, hsent, p, hreports ▸ hp.trans (List.prefix_append ..), hrs⟩
  · intro hphase
    obtain hway | ⟨hdone, -⟩ := hinv.session
    · simp only [Session.OnTheWay, hwhole hphase] at hway
    · rw [hphase] at hdone
      cases hdone

/-- Requests and responses: what a builder was given on one side is what a parser reports on the other,
    and the body is behind it, however the sends, the reads and the two tasks are mixed. -/
theorem message_arrives :
    (∀ (r : RequestHead) (front : List Byte) (c : Nat), r.head.bytes.length ≤ c →
      ∃ b view, r.write (.fresh front c) = some (b, true) ∧ b.buffer = some view ∧ view.window = r.head.bytes ∧
        ∀ (v : RawView) (body : List Byte) (M : Nat), v.content = view.window ++ body →
          r.head.bytes.length ≤ M → ∀ ioHandle as x,
            Exchange.exec (.init ioHandle v M) as = some x → x.Arrives v.content body r.reports) ∧
    ∀ (r : ResponseHead) (front : List Byte) (c : Nat), r.head.bytes.length ≤ c →
      ∃ b view, r.write (.fresh front c) = some (b, true) ∧ b.buffer = some view ∧ view.window = r.head.bytes ∧
        ∀ (v : RawView) (body : List Byte) (M : Nat), v.content = view.window ++ body →
          r.head.bytes.length ≤ M → ∀ ioHandle as x,
            Exchange.exec (.init ioHandle v M) as = some x → x.Arrives v.content body r.reports := by
  refine ⟨fun r front c hc => ?_, fun r front c hc => ?_⟩
  · obtain ⟨b, view, hwrite, hview, hw⟩ := r.write_eq front hc
    refine ⟨b, view, hwrite, hview, hw, fun v body M hv hM ioHandle as x hrun => ?_⟩
    exact r.head_reports ▸ r.head.arrives r.head_fields_ne (hw ▸ hv) hM ioHandle hrun
  · obtain ⟨b, view, hwrite, hview, hw⟩ := r.write_eq front hc
    refine ⟨b, view, hwrite, hview, hw, fun v body M hv hM ioHandle as x hrun => ?_⟩
    exact r.head_reports ▸ r.head.arrives r.head_fields_ne (hw ▸ hv) hM ioHandle hrun

/-- "GET / HTTP/1.1" without a field of its own. -/
def getRootOnly : RequestHead :=
  { getHost with fields := [] }

/-- Its bytes, with the default field. -/
def getRootBytes : List Byte :=
  [71, 69, 84, 32, 47, 32, 72, 84, 84, 80, 47, 49, 46, 49, 13, 10, 85, 115, 101, 114, 45, 65, 103, 101, 110,
    116, 58, 32, 106, 105, 110, 120, 13, 10, 13, 10]

/-- The request is sent in two pieces, and read in three. -/
def inPieces : List Exchange.ExchangeLabel :=
  [.recv .await, .send .tick, .send .tick, .send (.answer ⟨{}, 10⟩ .successful), .recv (.read 4),
    .send .tick, .send .tick, .send (.answer ⟨{}, 26⟩ .successful), .recv (.read 20), .send .tick,
    .recv .await, .send .tick, .shutdown, .recv (.read 12), .recv .await]

theorem message_arrives_inPieces :
    ∃ x, Exchange.exec (.init 5 (RawView.resetFull (RawView.fresh 4096 getRootBytes)) 64) inPieces =
      some x ∧ x.session.reports = getRootOnly.reports := by
  have hbytes : getRootOnly.head.bytes = getRootBytes := by decide +kernel
  have hshows : (Exchange.exec (.init 5 (RawView.resetFull (RawView.fresh 4096 getRootBytes)) 64) inPieces).map
      (fun x => (x.session.phase, x.sender.sent)) = some (.done, getRootBytes) := by decide +kernel
  obtain ⟨x, hrun, hx⟩ := Option.map_eq_some_iff.mp hshows
  obtain ⟨hdone, hsent⟩ := Prod.mk.inj hx
  have hfits : getRootOnly.head.bytes.length ≤ 64 := by
    rw [hbytes]
    decide
  obtain ⟨b, view, -, -, hw, harrives⟩ := message_arrives.1 getRootOnly [] 64 hfits
  have hcontent : (RawView.resetFull (RawView.fresh 4096 getRootBytes)).content = view.window ++ [] := by
    rw [hw, hbytes]
    rfl
  obtain ⟨hreports, -⟩ | ⟨-, hcut, -⟩ := (harrives _ [] 64 hcontent hfits 5 _ x hrun).done hdone
  · exact ⟨x, hrun, hreports⟩
  · exact (hcut hsent).elim

end Jinx.Http
