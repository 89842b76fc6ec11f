import Jinx.Await.Planted
import Jinx.Http.BuilderCycles

/-! `HTTPClient::send_request`, for a request that does not fit its buffer.

    The client is a pausable awaitable: `init` pauses it, and the frame that has initialized it goes on,
    with the client below it in the chain. A request that is too large is reported by `async_throw` on
    the paused client, which is awaited next. -/

namespace Jinx.Http

open Await HTTPBuilder

/-- `category_http_client()`. -/
def categoryHttpClient : Category := .other 4

/-- `enum class ErrorHTTPClient`. -/
inductive ErrorHTTPClient where
  | noError | uninitialized | outOfMemory | requestHeaderTooLarge | badResponse | entityTooLarge
  | endOfStream
  deriving DecidableEq, Repr

def ErrorHTTPClient.toInt : ErrorHTTPClient → Int
  | .noError => 0
  | .uninitialized => 1
  | .outOfMemory => 2
  | .requestHeaderTooLarge => 3
  | .badResponse => 4
  | .entityTooLarge => 5
  | .endOfStream => 6

def makeErrorHttpClient (e : ErrorHTTPClient) : Error := ⟨e.toInt, categoryHttpClient⟩

/-- What `send_request` reads of an `HTTPClient`. -/
structure HTTPClient where
  builder : HTTPBuilder := {}
  connectionState : HTTPConnectionState := .unknown
  deriving DecidableEq, Repr

namespace HTTPClient

/-- The connection state that `send_request` leaves: the request has the last word. -/
def requestState (client : HTTPClient) : HTTPConnectionState :=
  if client.builder.connectionState ≠ .unknown then client.builder.connectionState
  else if client.connectionState = .unknown then .close
  else client.connectionState

/-- `*this / client.send_request() / &next`, in a callback of `f` or in its `handle_error`;
    the client is the awaitable `c`. -/
def sendRequest (client : HTTPClient) (f c : ObjId) (m : Machine) : Option (HTTPClient × Machine) :=
  (Kind.request.done client.builder).map fun (b, ok) =>
    let client := { builder := b, connectionState := client.requestState }
    if ok then (client, (m.set c fun o => { o with routine := .start }).asyncCall f c)
    else (client, (m.plant c (makeErrorHttpClient .requestHeaderTooLarge)).asyncCall f c)

/-- What a client does with its builder: `init`, the writes of the caller, and `send_request`, after which
    a header that has fit is sent, and the builder finalized. -/
inductive BuilderUse where
  | init (view : BufferView)
  | write (op : Op)
  | sendRequest
  deriving DecidableEq, Repr

def BuilderUse.apply (b : HTTPBuilder) : BuilderUse → Option HTTPBuilder
  | .init view => some (b.init view)
  | .write op => b.write op
  | .sendRequest => (Kind.request.done b).map fun (b, ok) => if ok then b.asyncFinalize else b

/-- The builder of a client after some uses. -/
def builderAfter : HTTPBuilder → List BuilderUse → Option HTTPBuilder
  | b, [] => some b
  | b, u :: us => (u.apply b).bind fun b => builderAfter b us

/-! ### A client sends no header that was cut off -/

variable {client : HTTPClient} {b b' : HTTPBuilder} {view : BufferView} {ops : List Op}

theorem put_bad_eq {s : List Byte} (h : b.bad = b.overflow) (hb : b.put s = some b') :
    b'.bad = b'.overflow := by
  rw [put] at hb
  cases hbad : b.bad with
  | true =>
    obtain rfl : b = b' := by simpa [hbad] using hb
    exact h
  | false =>
    cases hbuffer : b.buffer with
    | none => simp [hbad, hbuffer] at hb
    | some view =>
      obtain ⟨view', -, rfl⟩ : ∃ view', _ ∧ _ = b' := by simpa [hbad, hbuffer] using hb
      simp [← h, hbad]

theorem puts_bad_eq {l : List (List Byte)} (h : b.bad = b.overflow) (hb : b.puts l = some b') :
    b'.bad = b'.overflow := by
  induction l generalizing b with
  | nil =>
    obtain rfl := Option.some.inj hb
    exact h
  | cons s l ih =>
    obtain ⟨b₁, h₁, hb⟩ := Option.bind_eq_some_iff.mp hb
    exact ih (put_bad_eq h h₁) hb

theorem write_bad_eq {op : Op} (h : b.bad = b.overflow) (hb : b.write op = some b') :
    b'.bad = b'.overflow := by
  cases op with
  | piece p =>
    have hpieces := putPieces_eq b [p]
    refine puts_bad_eq (l := [p.bytes]) h ?_
    rw [← hb]
    simpa [putPieces, write] using hpieces.symm
  | field name value =>
    obtain ⟨b₁, h₁, hb⟩ := Option.bind_eq_some_iff.mp hb
    obtain ⟨b₂, h₂, hb⟩ := Option.bind_eq_some_iff.mp hb
    obtain ⟨b₃, h₃, hb⟩ := Option.bind_eq_some_iff.mp hb
    obtain ⟨b₄, h₄, hb⟩ := Option.bind_eq_some_iff.mp hb
    have hbegin : b₂.bad = b₂.overflow := by
      obtain ⟨pos, -, rfl⟩ := Option.map_eq_some_iff.mp h₂
      have h₁' := puts_bad_eq h h₁
      cases sameName name "connection" <;> cases sameName name "server" <;>
        cases sameName name "user-agent" <;> exact h₁'
    rw [putPieces_eq] at h₃
    have hend : b₄.bad = b₄.overflow := by
      have h₃' := puts_bad_eq hbegin h₃
      rw [fieldEnd] at h₄
      split at h₄
      · obtain ⟨view, -, rfl⟩ := Option.map_eq_some_iff.mp h₄
        exact h₃'
      · obtain rfl := Option.some.inj h₄
        exact h₃'
    exact put_bad_eq hend hb

theorem done_bad_eq {ok : Bool} (h : b.bad = b.overflow) (hb : Kind.request.done b = some (b', ok)) :
    b'.bad = b'.overflow ∧ (!b'.overflow) = ok := by
  rw [Kind.done_eq] at hb
  obtain ⟨b₁, h₁, hb⟩ := Option.bind_eq_some_iff.mp hb
  obtain ⟨b₂, h₂, hb⟩ := Option.map_eq_some_iff.mp hb
  obtain ⟨rfl, hok⟩ := Prod.mk.inj hb
  refine ⟨put_bad_eq ?_ h₂, hok⟩
  split at h₁
  · obtain rfl := Option.some.inj h₁
    exact h
  · exact put_bad_eq h h₁

/-- The stream of a client's builder is bad exactly if the overflow is still recorded. -/
theorem builder_bad_eq {us : List BuilderUse} (h : b.bad = b.overflow)
    (hb : builderAfter b us = some b') : b'.bad = b'.overflow := by
  induction us generalizing b with
  | nil =>
    obtain rfl := Option.some.inj hb
    exact h
  | cons u us ih =>
    obtain ⟨b₁, h₁, hb⟩ := Option.bind_eq_some_iff.mp hb
    refine ih ?_ hb
    cases u with
    | init view =>
      obtain rfl := Option.some.inj h₁
      exact h
    | write op => exact write_bad_eq h h₁
    | sendRequest =>
      obtain ⟨⟨b₂, ok⟩, h₂, rfl⟩ := Option.map_eq_some_iff.mp h₁
      obtain ⟨hbad₂, rfl⟩ := done_bad_eq h h₂
      cases hover : b₂.overflow with
      | true => simpa [hover] using hbad₂
      | false => simpa [hover, asyncFinalize] using hbad₂

/-! ### A request that is too large -/

/-- A request that does not fit is noticed when the header is done. -/
theorem build_fails (hbad : b.bad = b.overflow)
    (hlarge : view.capacity < (text .request b.useCustomUserAgent ops true).length) :
    ∃ b', build .request b view ops true = some (b', false) := by
  cases hover : b.overflow with
  | true =>
    obtain ⟨b', hb', hsilent, -⟩ := build_bad (hbad.trans hover) .request view ops true
    have hover' : b'.overflow = true := hsilent.overflow.trans hover
    exact ⟨b', by rw [hb', hover']; rfl⟩
  | false =>
    obtain ⟨b', hb', hw, -⟩ := build_writes (hbad.trans hover) hover .request view ops true
    have hover' : b'.overflow = true := hw.overflow.mpr (.inr hlarge)
    exact ⟨b', by rw [hb', hover']; rfl⟩

/-- CORRECT: for no request that is too large does the chain go on below the caller. The error is
    delivered to the caller, once, and nothing is sent; but however the caller ends its handler, the
    frames behind it are not reached: the client was finalized where it is in the chain. -/
theorem oversized_request_breaks_chain (client : HTTPClient) (history : List BuilderUse) (b : HTTPBuilder)
    (view : BufferView) (ops : List Op) (m : Machine) (f c : ObjId) (between : List ObjId)
    (hb : builderAfter {} history = some b)
    (hlarge : view.capacity < (text .request b.useCustomUserAgent ops true).length)
    (hm : m.Holds f c between) :
    ∃ b₁ client' m' t, (b.init view).writes ops = some b₁ ∧
      { client with builder := b₁ }.sendRequest f c m = some (client', m') ∧
      m'.Delivers f (makeErrorHttpClient .requestHeaderTooLarge) t ∧
      ∀ x, x = .ret ∨ x = .propagate → ∀ p, (∀ g ∈ between ++ [c], p ≠ .obj g) → ¬ t.Continues x p := by
  obtain ⟨b₂, hbuild⟩ := build_fails (builder_bad_eq rfl hb) hlarge
  obtain ⟨b₁, hwrites, hdone⟩ := Option.bind_eq_some_iff.mp hbuild
  rw [if_pos rfl] at hdone
  obtain ⟨t, hdelivers, hend⟩ := Machine.planted_never_continues hm
    (show (makeErrorHttpClient .requestHeaderTooLarge).isSet = true from rfl)
  refine ⟨b₁, { builder := b₂, connectionState := requestState { client with builder := b₁ } }, _, t,
    hwrites, ?_, hdelivers, hend⟩
  rw [sendRequest, hdone]
  rfl

/-- The entry `0` awaits `1`, which initializes the client `2` and has not been resumed yet. -/
def initializing : List Label :=
  [.spawn 0, .run, .tick, .tick, .act (.call 1), .tick, .act (.call 2), .tick]

/-- A line that does not fit in four bytes. -/
def requestLine : List Op := [.piece (.block (ascii "GET / HTTP/1.1\r\n"))]

theorem oversized_request_breaks_chain_line :
    ∃ m, (Machine.init (· == 2)).exec (initializing ++ [.act .pause, .tick, .tick, .tick]) = some m ∧
      ∃ b₁ client' m' t, (HTTPBuilder.init {} { capacity := 4 }).writes requestLine = some b₁ ∧
        { ({} : HTTPClient) with builder := b₁ }.sendRequest 1 2 m = some (client', m') ∧
        m'.Delivers 1 (makeErrorHttpClient .requestHeaderTooLarge) t ∧
        ∀ x, x = .ret ∨ x = .propagate → ∀ p, (∀ g ∈ [] ++ [2], p ≠ .obj g) → ¬ t.Continues x p := by
  obtain ⟨m, hm, hholds⟩ := Machine.holds_of_pause (f := 1) (c := 2)
    (s := ((Machine.init (· == 2)).exec initializing).get rfl) rfl rfl
    (.inr ⟨[⟨0, none⟩], rfl, by decide⟩) (by decide) ⟨rfl, rfl, rfl⟩ ⟨rfl, rfl, rfl, by decide⟩
    ⟨by decide, by decide⟩
  exact ⟨m, Runs.exec_trans (Option.some_get _).symm hm,
    oversized_request_breaks_chain {} [] {} { capacity := 4 } requestLine m 1 2 [] rfl (by decide) hholds⟩

/-- The caller `1` returns: its own caller `0` is finalized without a poll, the finalized client is
    polled, and the task follows a null pointer. -/
theorem oversized_request_crashes :
    ∃ m b₁ client' m' t u, (Machine.init (· == 2)).exec
        (initializing ++ [.act .pause, .tick, .tick, .tick]) = some m ∧
      (HTTPBuilder.init {} { capacity := 4 }).writes requestLine = some b₁ ∧
      { ({} : HTTPClient) with builder := b₁ }.sendRequest 1 2 m = some (client', m') ∧
      m'.exec [.tick, .tick, .tick, .tick] = some t ∧
      t.log.head? = some (.handled 1 (makeErrorHttpClient .requestHeaderTooLarge)) ∧
      t.exec [.act .ret, .tick, .tick, .tick, .tick, .tick] = some u ∧ u.ctl = .crashed ∧
      u.log = [.polled 2 .uninitialized, .reentered 2, .finalized 0, .finalized 1] ++ t.log ∧
      .finalized 2 ∈ t.log :=
  ⟨_, _, _, _, _, _, rfl, rfl, rfl, rfl, rfl, rfl, rfl, rfl, by decide⟩

end HTTPClient

end Jinx.Http
