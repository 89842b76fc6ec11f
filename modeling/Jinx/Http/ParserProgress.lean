import Jinx.Http.Arrival
import Jinx.Http.ParserMemory

/-! A session of the parser on memory.

    It is the session of the other modules, with each poll written down. Step by step it does what the
    session on lists does; how a poll ends is then what the parser decides on the bytes in its window. -/

namespace Jinx.Http

open HTTPParser Incremental

/-- A callback of the parser that has run. -/
structure Poll where
  /-- the view when it begins -/
  before : RawView
  /-- `none` is an access outside of the window -/
  result : Option (RawParser × Async)

/-- An event is reported and bytes are consumed, or more is asked for and there is room, or the result is
    a last one. -/
def Poll.Progresses (x : Poll) : Prop :=
  match x.result with
  | some (p, .pause) => p.buffer.size < x.before.size ∧
      (p.result = some .startLine ∨ p.result = some .header)
  | some (p, .await) => 0 < p.buffer.capacity
  | some (p, .ret) => p.result = some .complete ∨ p.result = some .badRequest ∨
      p.result = some .entityTooLarge ∨ p.result = some .endOfStream
  | _ => False

/-- What the awaiter sees of it. -/
def Poll.report (x : Poll) : Option Report :=
  match x.result with
  | some (p, .pause) => some p.report
  | some (p, .ret) => some p.report
  | _ => none

/-- `Session`, on memory. -/
structure RawSession where
  parser : RawParser
  callback : Callback
  stream : List Byte
  phase : Phase := .idle
  polls : List Poll := []

namespace RawSession

/-- `HTTPParser::initialize`. -/
def init (view : RawView) (stream : List Byte) : RawSession where
  parser := { buffer := view, state := .startLine }
  callback := if view.size = 0 then .readMore else .parse
  stream := stream

/-- A callback has ended. -/
def settle (s : RawSession) : Option (RawParser × Async) → RawSession
  | some (p, .await) => { s with parser := p, callback := .parse, phase := .reading }
  | some (p, .pause) => { s with parser := p, phase := .idle }
  | some (p, .ret) => { s with parser := p, phase := .done }
  | some (p, _) => { s with parser := p, phase := .failed }
  | none => { s with phase := .failed }

/-- A callback runs, on the view `before`. -/
def poll (s : RawSession) (before : RawView) (x : Option (RawParser × Async)) : RawSession :=
  settle { s with polls := s.polls ++ [⟨before, x⟩] } x

def await (s : RawSession) : RawSession :=
  match s.callback with
  | .readMore => s.poll s.parser.buffer (some s.parser.readMore)
  | .parse => s.poll s.parser.buffer s.parser.parse

def step (s : RawSession) : Session.Label → Option RawSession
  | .await => if s.phase = .idle then some s.await else none
  | .read k =>
    if s.phase = .reading ∧ 0 < k ∧ k ≤ s.stream.length then
      (s.parser.buffer.receive (s.stream.take k)).map fun buffer =>
        { s with stream := s.stream.drop k }.poll buffer { s.parser with buffer := buffer }.parse
    else none
  | .endOfStream =>
    if s.phase = .reading ∧ s.stream = [] then
      some (s.poll s.parser.buffer (some s.parser.handleEndOfStream))
    else none

abbrev exec : RawSession → List Session.Label → Option RawSession := Runs.exec step

def reports (s : RawSession) : List Report := s.polls.filterMap Poll.report

/-! ### What a decision of the parser is -/

variable {p : HTTPParser} {q q' : HTTPParserState} {w rest : List Byte} {r : Report}
  {st : HTTPParserState}

theorem result_of_final (h : p.report = .final (some st)) : p.result = some st := by
  rw [HTTPParser.report] at h
  cases hr : p.result with
  | none => simp [hr] at h
  | some st' => cases st' <;> simp_all

theorem result_of_event (h : ∀ st, p.report ≠ .final st) :
    p.result = some .startLine ∨ p.result = some .header := by
  rw [HTTPParser.report] at h
  cases hr : p.result with
  | none => exact absurd (by rw [hr]) (h none)
  | some st' =>
    cases st' with
    | startLine => exact .inl rfl
    | header => exact .inr rfl
    | _ => exact absurd (by rw [hr]) (h _)

/-- How a poll of the parser `p` on lists ends. -/
def Ends (p : HTTPParser) : HTTPParser × Async → Prop
  | (p', .pause) => p'.buffer.size < p.buffer.size ∧
      (p'.result = some .startLine ∨ p'.result = some .header) ∧ Parsing p'.state
  | (p', .await) => 0 < p'.buffer.capacity ∧ Parsing p'.state
  | (p', .ret) => p'.result = some .complete ∨ p'.result = some .badRequest ∨
      p'.result = some .entityTooLarge ∨ p'.result = some .endOfStream
  | _ => False

theorem readMore_ends {p' : HTTPParser} (hp : Parsing p'.state) : Ends p p'.readMore := by
  rw [HTTPParser.readMore]
  split
  · exact .inr (.inr (.inl rfl))
  · exact ⟨by omega, hp⟩

theorem parse_ends (hp : Parsing p.state) : Ends p p.parse := by
  cases hv : verdict p.state p.buffer.window with
  | more w =>
    rw [parse_more hp hv]
    have hp' : Parsing (p.rewrite w).state := hp
    exact readMore_ends hp'
  | emit r q rest =>
    obtain ⟨p', heq, hgives, rfl⟩ := parse_emit hp hv
    have hprogress := verdict_progress hv
    have hevent := verdict_emit hv
    rw [← hgives.report] at hevent
    rw [heq]
    refine ⟨?_, result_of_event hevent, hprogress.2⟩
    rw [BufferView.size, hgives.window]
    exact hprogress.1
  | stop r rest =>
    obtain ⟨p', heq, hgives⟩ := parse_stop hp hv
    rw [heq]
    rcases verdict_stop hp hv with rfl | rfl
    · exact .inr (.inl (result_of_final hgives.report))
    · exact .inl (result_of_final hgives.report)

/-! ### The two sessions -/

/-- A session on memory is where a session on lists is, and all its polls have made progress. -/
structure Follows (s : RawSession) (t : Session) : Prop where
  parser : s.parser.Refines t.parser
  callback : s.callback = t.callback
  stream : s.stream = t.stream
  phase : s.phase = t.phase
  parsing : t.phase = .idle ∨ t.phase = .reading → Parsing t.parser.state
  reports : s.reports = t.reports
  progress : ∀ x ∈ s.polls, x.Progresses

variable {s s' : RawSession} {t : Session} {l : Session.Label} {before : RawView} {x : RawParser × Async}
  {y : HTTPParser × Async}

/-- A poll on memory that agrees with one on lists. -/
theorem progresses_of_agrees (hb : p.buffer = before.toView) (hx : RawParser.Agrees x y) (he : Ends p y) :
    Poll.Progresses ⟨before, some x⟩ := by
  obtain ⟨hasync, hrefines, -⟩ := hx
  obtain ⟨r, a⟩ := x
  obtain ⟨p', b⟩ := y
  obtain rfl : a = b := hasync
  have hresult : p'.result = r.result := hrefines.result
  cases a with
  | pause =>
    obtain ⟨hsize, hevent, -⟩ := he
    rw [hb, show p'.buffer = r.buffer.toView from hrefines.buffer, RawView.toView_size,
      RawView.toView_size] at hsize
    exact ⟨hsize, hresult ▸ hevent⟩
  | await =>
    have hcapacity := he.1
    rw [show p'.buffer = r.buffer.toView from hrefines.buffer] at hcapacity
    exact hcapacity
  | ret =>
    rw [Ends, hresult] at he
    exact he
  | throw e => exact he
  | fatal => exact he

/-- Both sessions run a callback. -/
theorem Follows.poll (h : Follows s t) (hb : p.buffer = before.toView) (hx : RawParser.Agrees x y)
    (he : Ends p y) : Follows (s.poll before (some x)) (t.settle y) := by
  have hprogress := progresses_of_agrees hb hx he
  obtain ⟨hasync, hrefines, hreport⟩ := hx
  obtain ⟨r, a⟩ := x
  obtain ⟨p', b⟩ := y
  obtain rfl : a = b := hasync
  have hpolls : ∀ x ∈ s.polls ++ [⟨before, some (r, a)⟩], x.Progresses := by
    intro x hx
    rcases List.mem_append.mp hx with hx | hx
    · exact h.progress x hx
    · rw [List.mem_singleton.mp hx]
      exact hprogress
  have hreports : List.filterMap Poll.report (s.polls ++ [⟨before, some (r, a)⟩]) =
      t.reports ++ List.filterMap Poll.report [⟨before, some (r, a)⟩] := by
    rw [List.filterMap_append, ← h.reports]
    rfl
  cases a with
  | pause =>
    refine ⟨hrefines, h.callback, h.stream, rfl, fun _ => he.2.2, hreports.trans ?_, hpolls⟩
    exact congrArg (fun r => t.reports ++ [r]) (hreport (by simp))
  | await =>
    exact ⟨hrefines, rfl, h.stream, rfl, fun _ => he.2, hreports.trans (List.append_nil _), hpolls⟩
  | ret =>
    refine ⟨hrefines, h.callback, h.stream, rfl, by simp [Session.settle], hreports.trans ?_, hpolls⟩
    exact congrArg (fun r => t.reports ++ [r]) (hreport (by simp))
  | throw e => exact he.elim
  | fatal => exact he.elim

theorem Follows.step (h : Follows s t) (hs : s.step l = some s') :
    ∃ t', t.step l = some t' ∧ Follows s' t' := by
  cases l with
  | await =>
    simp only [RawSession.step] at hs
    split at hs
    · rename_i hphase
      cases hs
      have hphase' : t.phase = .idle := h.phase.symm.trans hphase
      have hp := h.parsing (.inl hphase')
      refine ⟨t.await, if_pos hphase', ?_⟩
      rw [RawSession.await, Session.await, ← h.callback]
      cases s.callback with
      | readMore => exact h.poll h.parser.buffer h.parser.readMore (readMore_ends hp)
      | parse =>
        obtain ⟨x, hx, hagrees⟩ := RawParser.parse_agrees h.parser hp
        rw [hx]
        exact h.poll h.parser.buffer hagrees (parse_ends hp)
    · cases hs
  | read k =>
    simp only [RawSession.step] at hs
    split at hs
    · rename_i hread
      obtain ⟨hphase, hk⟩ := hread
      have hphase' : t.phase = .reading := h.phase.symm.trans hphase
      have hp := h.parsing (.inr hphase')
      obtain ⟨buffer, hbuffer, rfl⟩ := Option.map_eq_some_iff.mp hs
      have hview := RawView.toView_receive s.parser.buffer (s.stream.take k)
      rw [hbuffer, Option.map_some, ← h.parser.buffer, h.stream] at hview
      have hrefines : RawParser.Refines { s.parser with buffer := buffer }
          { t.parser with buffer := buffer.toView } := ⟨rfl, h.parser.state, h.parser.result⟩
      obtain ⟨x, hx, hagrees⟩ := RawParser.parse_agrees hrefines hp
      have hstep : t.step (.read k) = some (Session.settle { t with stream := t.stream.drop k }
          { t.parser with buffer := buffer.toView }.parse) := by
        simp only [Session.step, hview, Option.map_some]
        exact if_pos ⟨hphase', hk.1, h.stream ▸ hk.2⟩
      have hfollows : Follows { s with stream := s.stream.drop k } { t with stream := t.stream.drop k } :=
        ⟨h.parser, h.callback, congrArg (List.drop k) h.stream, h.phase, h.parsing, h.reports, h.progress⟩
      refine ⟨_, hstep, ?_⟩
      rw [hx]
      exact hfollows.poll rfl hagrees (parse_ends hp)
    · cases hs
  | endOfStream =>
    simp only [RawSession.step] at hs
    split at hs
    · rename_i hend
      cases hs
      refine ⟨_, if_pos ⟨h.phase.symm.trans hend.1, h.stream ▸ hend.2⟩, ?_⟩
      have hagrees : RawParser.Agrees s.parser.handleEndOfStream t.parser.handleEndOfStream :=
        ⟨rfl, ⟨h.parser.buffer, rfl, rfl⟩, fun _ => rfl⟩
      exact h.poll h.parser.buffer hagrees (.inr (.inr (.inr rfl)))
    · cases hs

theorem follows_init (view : RawView) (stream : List Byte) :
    Follows (init view stream) (.init view.toView stream) := by
  refine ⟨⟨rfl, rfl, rfl⟩, ?_, rfl, rfl, fun _ => .inl rfl, rfl, by simp [init]⟩
  rw [init, Session.init, RawView.toView_size]

/-- The session on memory does what the session on lists does, and shows the same. -/
theorem exec_follows (view : RawView) (stream : List Byte) (ls : List Session.Label)
    (hs : exec (init view stream) ls = some s) :
    ∃ t, Session.exec (.init view.toView stream) ls = some t ∧ Follows s t :=
  Runs.exec_simulates (fun _ _ _ _ h hs => h.step hs) ls _ _ _ (follows_init view stream) hs

end RawSession

/-- CORRECT: on every view, stream and order of reads, no poll of the parser accesses anything outside
    of the window, and none fails to consume or to cut; each one makes progress. -/
theorem parser_stays_inside (view : RawView) (stream : List Byte) (ls : List Session.Label)
    {s : RawSession} (hs : RawSession.exec (.init view stream) ls = some s) :
    ∀ x ∈ s.polls, x.Progresses := by
  obtain ⟨t, -, hfollows⟩ := RawSession.exec_follows view stream ls hs
  exact hfollows.progress

/-- A start line and a field that goes on in the next line. -/
def foldAtEnd : List Byte :=
  [65, SP, 66, SP, 67, CR, LF, 88, COLON, 97, CR, LF, SP, 98, CR, LF, CR, LF]

/-- The field is reported where the memory ends, behind one byte of look-ahead, and without the fold. -/
theorem parser_stays_inside_fold : ∃ s,
    RawSession.exec (.init (.fresh 0 (List.replicate 17 0)) foldAtEnd) [.await, .read 17, .await] =
        some s ∧
      s.reports = [.startLine [65] [66] [67], .header [88] [97, SP, SP, SP, 98]] ∧
      ∀ x ∈ s.polls, x.Progresses := by
  have hrun : (RawSession.exec (.init (.fresh 0 (List.replicate 17 0)) foldAtEnd)
      [.await, .read 17, .await]).map RawSession.reports =
        some [.startLine [65] [66] [67], .header [88] [97, SP, SP, SP, 98]] := by decide +kernel
  obtain ⟨s, hs, hreports⟩ := Option.map_eq_some_iff.mp hrun
  exact ⟨s, hs, hreports, parser_stays_inside _ _ _ hs⟩

end Jinx.Http
