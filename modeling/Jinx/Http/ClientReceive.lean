import Jinx.Http.HTTPClient
import Jinx.Http.Reading

/-! `HTTPClient::receive_response`.

    The client awaits its parser until the header is done, and then pauses, so that the caller can read
    the body. `http_start_line` and `http_header_field` are those of `HTTPClient`. How it ends is a matter
    of the bytes of the response alone, unless the stream is shut down too early. -/

namespace Jinx.Http
open Jinx Posix Incremental HTTPParser

/-- Where `receive_response` is. -/
inductive ReceivePhase where
  /-- it awaits the parser, and `parse_header` is next -/
  | parsing
  /-- the header is done, the caller has control -/
  | paused
  | raised (e : Error)
  /-- the result of a parser without one was read -/
  | failed
  deriving DecidableEq, Repr

/-- What `receive_response` changes of an `HTTPClient`. -/
structure ClientReceive where
  connectionState : HTTPConnectionState
  phase : ReceivePhase := .parsing
  deriving DecidableEq, Repr

/-- The result with which the parser has returned, in `parse_header`. -/
def ReceivePhase.ofFinal : Option HTTPParserState → ReceivePhase
  | some .uninitialized => .raised (makeErrorHttpClient .uninitialized)
  | some .entityTooLarge => .raised (makeErrorHttpClient .entityTooLarge)
  | some .endOfStream => .raised (makeErrorHttpClient .endOfStream)
  -- `BadResponse` and `BadRequest` are one enumerator
  | some .badRequest => .raised (makeErrorHttpClient .badResponse)
  | some .complete => .paused
  | some .startLine | some .header => .parsing
  | none => .failed

namespace ClientReceive

/-- `parse_header`. -/
def parseHeader (client : ClientReceive) : Report → ClientReceive
  | .startLine _ _ _ => client
  | .header name value =>
    if sameName name "connection" then { client with connectionState := .ofValue value } else client
  | .final st => { client with phase := .ofFinal st }

/-- The client does nothing by itself before it has ended. -/
def awaiter : Awaiter ClientReceive Empty where
  waits client := client.phase == .parsing
  react := parseHeader
  act _ a := a.elim

end ClientReceive

/-- The connection state after a report: the last Connection field counts. -/
def HTTPConnectionState.announce (s : HTTPConnectionState) : Report → HTTPConnectionState
  | .header name value => if sameName name "connection" then .ofValue value else s
  | _ => s

/-- What is to be expected of a response: it is complete or malformed, or the parser needs more when the
    memory is full or the stream is at its end. -/
def ReceivePhase.expected (text : List Byte) (M : Nat) : Option (Report × List Byte) → ReceivePhase
  | some (.final (some .complete), _) => .paused
  | some _ => .raised (makeErrorHttpClient .badResponse)
  | none =>
    .raised (makeErrorHttpClient (if M ≤ text.length then .entityTooLarge else .endOfStream))

namespace ClientReceive

variable {s : HTTPConnectionState} {text : List Byte} {rs : List Report}
  {e : Option (Report × List Byte)} {M : Nat}

theorem parseHeader_state (client : ClientReceive) (r : Report) :
    (client.parseHeader r).connectionState = client.connectionState.announce r := by
  cases r with
  | header name value =>
    simp only [parseHeader, HTTPConnectionState.announce]
    split <;> rfl
  | _ => rfl

theorem foldl_state (p : List Report) (client : ClientReceive) :
    (p.foldl parseHeader client).connectionState =
      p.foldl HTTPConnectionState.announce client.connectionState := by
  induction p generalizing client with
  | nil => rfl
  | cons r p ih => rw [List.foldl_cons, ih, parseHeader_state, List.foldl_cons]

/-- A client that has paused was told that the header is complete. -/
theorem complete_mem (p : List Report) (client : ClientReceive)
    (h : (p.foldl parseHeader client).phase = .paused) :
    client.phase = .paused ∨ .final (some .complete) ∈ p := by
  induction p generalizing client with
  | nil => exact .inl h
  | cons r p ih =>
    obtain hphase | hmem := ih _ h
    · cases r with
      | startLine => exact .inl hphase
      | header name value =>
        simp only [parseHeader] at hphase
        split at hphase <;> exact .inl hphase
      | final st =>
        refine .inr (List.mem_cons.mpr (.inl ?_))
        have hst : ReceivePhase.ofFinal st = .paused := hphase
        rcases st with _ | st
        · cases hst
        · cases st <;> first | rfl | cases hst
    · exact .inr (List.mem_cons_of_mem _ hmem)

/-- The client is what the reports have made of it. -/
theorem awaiter_eq {ioHandle : Int} {v : RawView} {client : ClientReceive}
    {as : List (Reading.Label Empty)} {x : Reading ClientReceive}
    (hrun : Reading.exec awaiter (.init ioHandle v M client) as = some x) :
    x.awaiter = x.taken.foldl parseHeader client := by
  have htracks : Reading.Tracks (fun _ => True) id parseHeader client x :=
    (Reading.tracks_init _ id parseHeader ioHandle v M client).run
      (fun _ _ _ _ => ⟨trivial, rfl⟩) (fun _ a => a.elim) hrun
  exact htracks.shows trivial

theorem foldl_phase (p : List Report) (client : ClientReceive) (hnot : ∀ r ∈ p, ∀ st, r ≠ .final st) :
    (p.foldl parseHeader client).phase = client.phase := by
  induction p generalizing client with
  | nil => rfl
  | cons r p ih =>
    refine (ih _ fun r hr => hnot r (List.mem_cons_of_mem _ hr)).trans ?_
    cases r with
    | startLine => rfl
    | header name value =>
      simp only [parseHeader]
      split <;> rfl
    | final st => exact (hnot _ List.mem_cons_self st rfl).elim

/-- Before the last report only the connection state changes. -/
theorem foldl_parseHeader (p : List Report) (s : HTTPConnectionState)
    (hnot : ∀ r ∈ p, ∀ st, r ≠ .final st) :
    p.foldl parseHeader ⟨s, .parsing⟩ = ⟨p.foldl HTTPConnectionState.announce s, .parsing⟩ := by
  have hstate := foldl_state p ⟨s, .parsing⟩
  have hphase := foldl_phase p ⟨s, .parsing⟩ hnot
  generalize p.foldl parseHeader ⟨s, .parsing⟩ = client at hstate hphase
  obtain ⟨state, phase⟩ := client
  exact congr (congrArg mk hstate) hphase

/-- The last report of a parser is a result, and the client ends with it as expected. -/
theorem lastReport_final (h : Outputs verdict .startLine (text.take M) rs e) :
    ∃ st, Session.lastReport text M e = .final st ∧ .ofFinal st = ReceivePhase.expected text M e := by
  cases e with
  | none =>
    refine ⟨_, rfl, ?_⟩
    simp only [ReceivePhase.expected]
    split <;> rfl
  | some last =>
    obtain ⟨r, rest⟩ := last
    obtain rfl | rfl := outputs_stop h (.inl rfl)
    · exact ⟨_, rfl, rfl⟩
    · exact ⟨_, rfl, rfl⟩

/-- However the response arrives: while the client is at it, it has seen the begin of the reports; it ends
    as is to be expected of the bytes, or with the end of a stream that was shut down too early. -/
theorem receive_response (s : HTTPConnectionState) {v : RawView} (ioHandle : Int)
    (hout : Outputs verdict .startLine (v.content.take M) rs e) {as : List (Reading.Label Empty)}
    {x : Reading ClientReceive}
    (hrun : Reading.exec awaiter (.init ioHandle v M ⟨s, .parsing⟩) as = some x) :
    (x.taken <+: rs ∧ x.awaiter = ⟨x.taken.foldl HTTPConnectionState.announce s, .parsing⟩) ∨
      x.awaiter = ⟨rs.foldl HTTPConnectionState.announce s, .expected v.content M e⟩ ∨
      x.exchange.closed = true ∧ x.exchange.sender.sent ≠ v.content ∧
        ∃ p, p <+: rs ∧ x.awaiter =
          ⟨p.foldl HTTPConnectionState.announce s, .raised (makeErrorHttpClient .endOfStream)⟩ := by
  have hinv : Exchange.Inv v.content M rs e x.exchange :=
    Reading.exec_exchange (I := Exchange.Inv v.content M rs e) (fun _ _ _ h hstep => h.step hstep) hrun
      (Exchange.inv_init ioHandle rfl hout)
  have hshows := awaiter_eq hrun
  have hrs := outputs_emit hout
  obtain ⟨st, hlast, hexpected⟩ := lastReport_final hout
  rw [hshows]
  by_cases hmem : ∃ st, Report.final st ∈ x.taken
  · obtain ⟨st', hmem⟩ := hmem
    obtain ⟨hall, hends⟩ := hinv.seen_final hrs hmem
    rw [show x.taken = x.exchange.session.reports from hall]
    obtain hends | ⟨hclosed, hsent, p, hp, hends⟩ := hends
    · refine .inr (.inl ?_)
      rw [hends, hlast, List.foldl_append, foldl_parseHeader _ _ hrs, ← hexpected]
      rfl
    · refine .inr (.inr ⟨hclosed, hsent, p, hp, ?_⟩)
      rw [hends, List.foldl_append, foldl_parseHeader _ _ fun r hr => hrs r (hp.subset hr)]
      rfl
  · have hnot : ∀ st, Report.final st ∉ x.taken := not_exists.mp hmem
    have hp := hinv.seen_prefix ⟨st, hlast⟩ hnot
    exact .inl ⟨hp, foldl_parseHeader _ _ fun r hr => hrs r (hp.subset hr)⟩

/-- The bytes in a view of their own. -/
def viewOf (bytes : List Byte) : RawView := .resetFull (.fresh 4096 bytes)

/-- A message of `n` bytes is sent and read in one piece. -/
def inOnePiece (n : Nat) : List Exchange.ExchangeLabel :=
  [.send .tick, .send .tick, .send (.answer ⟨{}, n⟩ .successful), .recv (.read n)]

/-- The client awaits its parser, and sees three reports. -/
def threeReports (n : Nat) : List (Reading.Label Empty) :=
  .await :: (inOnePiece n).map .wire ++ [.report, .await, .report, .await, .report]

theorem receive_response_notFound :
    ∃ rs e x, Outputs verdict .startLine ((viewOf notFound.head.bytes).content.take 64) rs e ∧
      Reading.exec awaiter (.init 6 (viewOf notFound.head.bytes) 64 ⟨.close, .parsing⟩)
        (threeReports notFound.head.bytes.length) = some x ∧
      x.awaiter = ⟨rs.foldl HTTPConnectionState.announce .close,
        .expected (viewOf notFound.head.bytes).content 64 e⟩ := by
  obtain ⟨rs, e, hout⟩ := Outputs.total (fun h => (verdict_progress h).1) .startLine
    ((viewOf notFound.head.bytes).content.take 64)
  have hshows : (Reading.exec awaiter (.init 6 (viewOf notFound.head.bytes) 64 ⟨.close, .parsing⟩)
      (threeReports notFound.head.bytes.length)).map (fun x => x.awaiter.phase) = some .paused := by
    decide +kernel
  obtain ⟨x, hrun, hphase⟩ := Option.map_eq_some_iff.mp hshows
  refine ⟨rs, e, x, hout, hrun, ?_⟩
  obtain ⟨-, hx⟩ | hx | ⟨-, -, p, -, hx⟩ := receive_response .close 6 hout hrun
  · rw [hx] at hphase
    cases hphase
  · exact hx
  · rw [hx] at hphase
    cases hphase

end ClientReceive

end Jinx.Http
