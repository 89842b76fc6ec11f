import Jinx.Http.Verdict

/-! The parser does not depend on how the bytes arrive.

    A session reads `text` into `M` bytes of memory. At every await the window and the bytes that are
    still to be read into the memory make up what the parser has to decide on; a read moves bytes from
    the stream to the window and keeps that. So all sessions end with what the parser says of the
    bytes that fit in the memory. -/

namespace Jinx.Http

open Incremental

namespace Session

open HTTPParser

variable {s t : Session} {text rest : List Byte} {M : Nat} {rs rs' : List Report}
  {e : Option (Report × List Byte)} {l : Label}

/-- The last report of a session in which the parser stops as `e` says, or runs out of bytes: when
    the memory is full, or else at the end of the stream. -/
def lastReport (text : List Byte) (M : Nat) : Option (Report × List Byte) → Report
  | some (r, _) => r
  | none => .final (some (if M ≤ text.length then .entityTooLarge else .endOfStream))

/-- The bytes behind the header. -/
def body (text : List Byte) (M : Nat) : Option (Report × List Byte) → Option (List Byte)
  | some (.final (some .complete), rest) => some (rest ++ text.drop M)
  | _ => none

/-- What is seen of a session that has ended: the reports, and after `Complete` the bytes in the view
    followed by those that the stream has not delivered. -/
def outcome (s : Session) : List Report × Option (List Byte) :=
  (s.reports, if s.parser.result = some .complete then some (s.parser.buffer.window ++ s.stream)
    else none)

def Done (s : Session) : Prop := s.phase = .done

/-- The part of `text` that was not read yet is on the stream, and there is room in the memory for
    what is left of its first `M` bytes. -/
structure Unread (text : List Byte) (M : Nat) (capacity : Nat) (stream : List Byte) : Prop where
  fits : capacity ≤ M
  le : M - capacity ≤ text.length
  stream : stream = text.drop (M - capacity)

/-- What is left to report when the parser has `window` and reads on. -/
def Expects (text : List Byte) (M : Nat) (e : Option (Report × List Byte)) (p : HTTPParser)
    (stream : List Byte) (rs : List Report) : Prop :=
  Parsing p.state ∧ Unread text M p.buffer.capacity stream ∧
    Outputs verdict p.state (p.buffer.window ++ stream.take p.buffer.capacity) rs e

/-- A session on `text` with `M` bytes of memory is on the way to the reports `rs`. -/
def OnTheWay (text : List Byte) (M : Nat) (rs : List Report) (e : Option (Report × List Byte))
    (s : Session) : Prop :=
  match s.phase with
  | .idle => ∃ rs', rs = s.reports ++ rs' ∧ Expects text M e s.parser s.stream rs' ∧
      (s.callback = .readMore → s.parser.buffer.window = [])
  | .reading => ∃ rs', rs = s.reports ++ rs' ∧ Expects text M e s.parser s.stream rs' ∧
      s.callback = .parse ∧ s.parser.buffer.capacity ≠ 0 ∧
      ∃ w, verdict s.parser.state s.parser.buffer.window = .more w
  | .done => s.outcome = (rs ++ [lastReport text M e], body text M e)
  | .failed => False

theorem verdict_nil {q : HTTPParserState} (h : Parsing q) : verdict q [] = .more [] := by
  rcases h with rfl | rfl <;> rfl

/-- A parser that needs more and gets nothing has reported everything. -/
theorem Expects.exhausted {p : HTTPParser} {stream w : List Byte}
    (h : Expects text M e p stream rs) (hw : verdict p.state p.buffer.window = .more w)
    (hstream : stream.take p.buffer.capacity = []) : rs = [] ∧ e = none := by
  obtain ⟨-, -, h⟩ := h
  rw [hstream, List.append_nil] at h
  exact h.unique (.more hw)

/-- The parser needs more, after it has rewritten its window. -/
theorem Expects.readMore {p : HTTPParser} (h : Expects text M e p s.stream rs') {w : List Byte}
    (hw : verdict p.state p.buffer.window = .more w) (hrs : rs = s.reports ++ rs') :
    OnTheWay text M rs e (s.settle (p.rewrite w).readMore) := by
  obtain ⟨hp, hunread, hout⟩ := h
  have hw' : verdict p.state w = .more w := by
    have heq := verdict_stable.more hw []
    rw [List.append_nil, List.append_nil] at heq
    rw [heq, hw]
  have hexpects : Expects text M e (p.rewrite w) s.stream rs' :=
    ⟨hp, hunread, (verdict_stable.outputs_more hw _).mpr hout⟩
  unfold HTTPParser.readMore
  split
  · rename_i hcap
    have hcap' : p.buffer.capacity = 0 := hcap
    obtain ⟨rfl, rfl⟩ := hexpects.exhausted hw' (by rw [hcap]; rfl)
    have hM : M ≤ text.length := by
      have hle := hunread.le
      rwa [hcap', Nat.sub_zero] at hle
    simp only [OnTheWay, settle, outcome, report, lastReport, hM, if_true, body, hrs, List.append_nil,
      HTTPParser.rewrite]
    rfl
  · rename_i hcap
    exact ⟨rs', hrs, hexpects, rfl, hcap, w, hw'⟩

/-- The parser has been polled. -/
theorem Expects.parse {p : HTTPParser} (h : Expects text M e p s.stream rs')
    (hrs : rs = s.reports ++ rs') (hcallback : s.callback = .parse) :
    OnTheWay text M rs e (s.settle p.parse) := by
  have hp := h.1
  cases hv : verdict p.state p.buffer.window with
  | more w =>
    rw [parse_more hp hv]
    exact h.readMore hv hrs
  | emit r q rest =>
    obtain ⟨p', heq, hgives, hq⟩ := parse_emit hp hv
    obtain ⟨-, hunread, hout⟩ := h
    obtain ⟨rs'', rfl, hout'⟩ := verdict_stable.outputs_emit hv _ hout
    rw [heq]
    refine ⟨rs'', by simp [settle, hrs, hgives.report], ⟨?_, ?_, ?_⟩, fun hc => ?_⟩
    · exact hq ▸ (verdict_progress hv).2
    · exact hgives.capacity ▸ hunread
    · simp only [settle, hq, hgives.window, hgives.capacity]
      exact hout'
    · simp [settle, hcallback] at hc
  | stop r rest =>
    obtain ⟨p', heq, hgives⟩ := parse_stop hp hv
    obtain ⟨-, hunread, hout⟩ := h
    obtain ⟨rfl, rfl⟩ := verdict_stable.outputs_stop hv _ hout
    rw [heq]
    have hbody : s.stream = s.stream.take p.buffer.capacity ++ text.drop M := by
      have hdrop : text.drop M = s.stream.drop p.buffer.capacity := by
        rw [hunread.stream, List.drop_drop, Nat.sub_add_cancel hunread.fits]
      rw [hdrop, List.take_append_drop]
    have hcomplete : p'.result = some .complete ↔ r = .final (some .complete) := by
      rw [← hgives.report, HTTPParser.report]
      cases hr : p'.result with
      | none => simp
      | some st => cases st <;> simp
    simp only [OnTheWay, settle, outcome, lastReport, hrs, List.append_nil, hgives.report,
      hgives.window, Prod.mk.injEq, true_and]
    split
    · rename_i hc
      rw [hcomplete.mp hc, body, List.append_assoc, ← hbody]
    · rename_i hc
      have hr : r ≠ .final (some .complete) := fun hr => hc (hcomplete.mpr hr)
      unfold body
      split
      · rename_i heq
        simp only [Option.some.injEq, Prod.mk.injEq] at heq
        exact absurd heq.1 hr
      · rfl

/-- Bytes that are read move from the stream to the window. -/
theorem Expects.receive {p : HTTPParser} {stream : List Byte} (h : Expects text M e p stream rs)
    {k : Nat} (hk : k ≤ stream.length) (hcap : k ≤ p.buffer.capacity) :
    Expects text M e { p with buffer := { p.buffer with
      window := p.buffer.window ++ stream.take k
      capacity := p.buffer.capacity - (stream.take k).length } } (stream.drop k) rs := by
  obtain ⟨hp, hunread, hout⟩ := h
  have hlen : (stream.take k).length = k := by rw [List.length_take, Nat.min_eq_left hk]
  have hstream : stream.length = text.length - (M - p.buffer.capacity) := by
    rw [hunread.stream, List.length_drop]
  have hfits := hunread.fits
  have hle := hunread.le
  have hM : M - (p.buffer.capacity - k) = M - p.buffer.capacity + k := by omega
  have hunread' : Unread text M (p.buffer.capacity - k) (stream.drop k) := by
    refine ⟨by omega, by omega, ?_⟩
    rw [hM, hunread.stream, List.drop_drop]
  rw [hlen]
  refine ⟨hp, hunread', ?_⟩
  dsimp only
  rw [List.append_assoc, ← List.take_add, Nat.add_sub_cancel' hcap]
  exact hout

theorem OnTheWay.step (h : OnTheWay text M rs e s) (ht : s.step l = some t) :
    OnTheWay text M rs e t := by
  cases l with
  | await =>
    simp only [Session.step] at ht
    split at ht
    · rename_i hphase
      cases ht
      simp only [OnTheWay, hphase] at h
      obtain ⟨rs', hrs, hexpects, hwindow⟩ := h
      unfold await
      split
      · rename_i hcallback
        have hw := hwindow hcallback
        have hv : verdict s.parser.state s.parser.buffer.window = .more s.parser.buffer.window := by
          rw [hw]
          exact verdict_nil hexpects.1
        exact hexpects.readMore hv hrs
      · rename_i hcallback
        exact hexpects.parse hrs hcallback
    · simp at ht
  | read k =>
    simp only [Session.step] at ht
    split at ht
    · rename_i hphase
      obtain ⟨hphase, hpos, hk⟩ := hphase
      obtain ⟨buffer, hbuffer, rfl⟩ := Option.map_eq_some_iff.mp ht
      simp only [OnTheWay, hphase] at h
      obtain ⟨rs', hrs, hexpects, hcallback, -⟩ := h
      have hcap : k ≤ s.parser.buffer.capacity := by
        unfold BufferView.receive at hbuffer
        split at hbuffer
        · simp at hbuffer
        · simp only [List.length_take] at *
          omega
      have hlen : (s.stream.take k).length ≤ s.parser.buffer.capacity := by simp; omega
      rw [BufferView.receive_of_le hlen, Option.some.injEq] at hbuffer
      subst hbuffer
      exact Expects.parse (s := { s with stream := s.stream.drop k }) (hexpects.receive hk hcap) hrs
        hcallback
    · simp at ht
  | endOfStream =>
    simp only [Session.step] at ht
    split at ht
    · rename_i hphase
      obtain ⟨hphase, hstream⟩ := hphase
      cases ht
      simp only [OnTheWay, hphase] at h
      obtain ⟨rs', hrs, hexpects, -, hcap, w, hw⟩ := h
      obtain ⟨rfl, rfl⟩ := hexpects.exhausted hw (by simp [hstream])
      have hM : ¬ M ≤ text.length := by
        have hlen : s.stream.length = text.length - (M - s.parser.buffer.capacity) := by
          rw [hexpects.2.1.stream, List.length_drop]
        rw [hstream] at hlen
        have hle := hexpects.2.1.le
        have hfits := hexpects.2.1.fits
        simp only [List.length_nil] at hlen
        omega
      simp only [OnTheWay, settle, handleEndOfStream, outcome, report, lastReport, hM, if_false, body,
        hrs, List.append_nil]
      rfl
    · simp at ht

/-- A session before it begins, on a view in which a part of the bytes is there already. -/
theorem onTheWay_view (view : BufferView) (stream : List Byte) {rs : List Report}
    {e : Option (Report × List Byte)}
    (h : Outputs verdict .startLine (view.window ++ stream.take view.capacity) rs e) :
    OnTheWay (view.window ++ stream) (view.size + view.capacity) rs e (init view stream) := by
  refine ⟨rs, rfl, ⟨.inl rfl, ⟨Nat.le_add_left _ _, ?_, ?_⟩, h⟩, fun hc => ?_⟩
  · simp [init, BufferView.size]
  · simp [init, BufferView.size]
  · by_contra hne
    have hsize : view.size ≠ 0 := fun hz => hne (List.length_eq_zero_iff.mp hz)
    simp [init, hsize] at hc

/-- A session before it begins. -/
theorem onTheWay_init {text : List Byte} {M : Nat} {rs : List Report}
    {e : Option (Report × List Byte)} (h : Outputs verdict .startLine (text.take M) rs e) :
    OnTheWay text M rs e (init (.empty M) text) := by
  have hview := onTheWay_view (.empty M) text h
  rwa [BufferView.empty, List.nil_append, BufferView.size, List.length_nil, Nat.zero_add] at hview

/-- Every step uses up something: a read, a result, or an await. -/
def weight (s : Session) : Nat :=
  match s.phase with
  | .idle => 3 * s.stream.length + 2 * s.parser.buffer.window.length + 2
  | .reading => 3 * s.stream.length + 2 * s.parser.buffer.window.length + 1
  | _ => 0

theorem weight_readMore (p : HTTPParser) :
    (s.settle p.readMore).weight ≤ 3 * s.stream.length + 2 * p.buffer.window.length + 1 := by
  unfold HTTPParser.readMore
  split
  · exact Nat.zero_le _
  · exact Nat.le_refl _

theorem weight_parse {p : HTTPParser} (hp : Parsing p.state) :
    (s.settle p.parse).weight ≤ 3 * s.stream.length + 2 * p.buffer.window.length + 1 := by
  cases hv : verdict p.state p.buffer.window with
  | more w =>
    rw [parse_more hp hv]
    have hlen := verdict_more_length hv
    have hle := weight_readMore (s := s) (p.rewrite w)
    simp only [HTTPParser.rewrite] at hle
    rw [hlen] at hle
    exact hle
  | emit r q rest =>
    obtain ⟨p', heq, hgives, -⟩ := parse_emit hp hv
    have hlt := (verdict_progress hv).1
    rw [heq]
    simp only [weight, settle, hgives.window]
    omega
  | stop r rest =>
    obtain ⟨p', heq, -⟩ := parse_stop hp hv
    rw [heq]
    exact Nat.zero_le _

theorem OnTheWay.weight_lt (h : OnTheWay text M rs e s) (ht : s.step l = some t) :
    t.weight < s.weight := by
  cases l with
  | await =>
    simp only [Session.step] at ht
    split at ht
    · rename_i hphase
      cases ht
      simp only [OnTheWay, hphase] at h
      obtain ⟨rs', -, hexpects, -⟩ := h
      have hle : s.await.weight ≤ 3 * s.stream.length + 2 * s.parser.buffer.window.length + 1 := by
        unfold await
        split
        · exact weight_readMore _
        · exact weight_parse hexpects.1
      simp only [weight, hphase]
      simp only [weight] at hle
      omega
    · simp at ht
  | read k =>
    simp only [Session.step] at ht
    split at ht
    · rename_i hphase
      obtain ⟨hphase, hpos, hk⟩ := hphase
      obtain ⟨buffer, hbuffer, rfl⟩ := Option.map_eq_some_iff.mp ht
      simp only [OnTheWay, hphase] at h
      obtain ⟨rs', -, hexpects, -⟩ := h
      have hwindow : buffer.window.length = s.parser.buffer.window.length + k := by
        unfold BufferView.receive at hbuffer
        split at hbuffer
        · simp at hbuffer
        · obtain rfl := by simpa using hbuffer
          simp [hk]
      have hle := weight_parse (s := { s with stream := s.stream.drop k })
        (p := { s.parser with buffer := buffer }) hexpects.1
      rw [hwindow, List.length_drop] at hle
      refine Nat.lt_of_le_of_lt hle ?_
      simp only [weight, hphase]
      omega
    · simp at ht
  | endOfStream =>
    simp only [Session.step] at ht
    split at ht
    · rename_i hphase
      cases ht
      simp [weight, settle, handleEndOfStream, hphase.1]
    · simp at ht

/-- Whatever is read, a session can go on until the parser has returned. -/
theorem OnTheWay.progress (h : OnTheWay text M rs e s) (hdone : ¬ s.Done) :
    ∃ l t, s.step l = some t := by
  rcases hphase : s.phase with _ | _ | _ | _
  · exact ⟨.await, s.await, by simp [Session.step, hphase]⟩
  · simp only [OnTheWay, hphase] at h
    obtain ⟨rs', -, -, -, hcap, -⟩ := h
    rcases hstream : s.stream with _ | ⟨b, stream⟩
    · exact ⟨.endOfStream, s.settle s.parser.handleEndOfStream, by simp [Session.step, hphase, hstream]⟩
    · have hlen : (s.stream.take 1).length ≤ s.parser.buffer.capacity := by
        simp [hstream]
        omega
      exact ⟨.read 1, _, by
        simp only [Session.step, BufferView.receive_of_le hlen]
        rw [if_pos ⟨hphase, Nat.one_pos, by simp [hstream]⟩]
        rfl⟩
  · exact absurd hphase hdone
  · simp [OnTheWay, hphase] at h

/-- A session that is on the way comes to its end. -/
theorem ends_of_onTheWay (h : OnTheWay text M rs e s) :
    Runs.Ends step Done outcome s (rs ++ [lastReport text M e], body text M e) := by
  have hrun : ∀ ls t, exec s ls = some t → OnTheWay text M rs e t :=
    fun ls t ht => Runs.exec_invariant (C := fun _ _ => True) (fun _ _ _ h _ ht => h.step ht) ls _ t ht
      (Runs.meets_true _ _) h
  refine ⟨⟨s.weight, fun ls t ht => ?_⟩, fun ls t ht hdone => (hrun ls t ht).progress hdone,
    fun ls t ht hdone => ?_⟩
  · exact Nat.le_of_add_right_le (Runs.length_le_of_decreasing (I := OnTheWay text M rs e)
      (fun _ _ _ h ht => h.step ht) (fun _ _ _ h ht => h.weight_lt ht) ls _ t h ht)
  · have h := hrun ls t ht
    simpa only [OnTheWay, show t.phase = .done from hdone] using h

/-- All sessions on `text` with `M` bytes of memory end as the parser says of the bytes that fit. -/
theorem ends_of_outputs {text : List Byte} {M : Nat} {rs : List Report}
    {e : Option (Report × List Byte)} (h : Outputs verdict .startLine (text.take M) rs e) :
    Runs.Ends step Done outcome (init (.empty M) text)
      (rs ++ [lastReport text M e], body text M e) :=
  ends_of_onTheWay (onTheWay_init h)

/-- The last report says how the request has ended. -/
theorem lastReport_eq {text : List Byte} {M : Nat} {rs : List Report} {e : Option (Report × List Byte)}
    (h : Outputs verdict .startLine (text.take M) rs e) :
    ∃ st, (st = .complete ∨ st = .badRequest ∨ st = .entityTooLarge ∨ st = .endOfStream) ∧
      lastReport text M e = .final (some st) := by
  cases e with
  | none =>
    unfold lastReport
    dsimp only
    split
    · exact ⟨.entityTooLarge, by simp, rfl⟩
    · exact ⟨.endOfStream, by simp, rfl⟩
  | some last =>
    obtain ⟨r, rest⟩ := last
    obtain rfl | rfl := outputs_stop h (.inl rfl)
    · exact ⟨.badRequest, by simp, rfl⟩
    · exact ⟨.complete, by simp, rfl⟩

end Session

/-- CORRECT: whatever the reads deliver, every session on a byte string comes to an end, and all of
    them with the same events, the same last report, which ends the request one way or the other, and the
    same bytes behind the header. -/
theorem parse_independent_of_arrival (text : List Byte) (M : Nat) :
    ∃ events st body, (∀ r ∈ events, ∀ st, r ≠ .final st) ∧
      (st = .complete ∨ st = .badRequest ∨ st = .entityTooLarge ∨ st = .endOfStream) ∧
      Runs.Ends Session.step Session.Done Session.outcome (.init (.empty M) text)
        (events ++ [.final (some st)], body) := by
  have hlt : ∀ {q w r q' rest}, HTTPParser.verdict q w = .emit r q' rest → rest.length < w.length :=
    fun h => (HTTPParser.verdict_progress h).1
  obtain ⟨rs, e, h⟩ := Outputs.total hlt .startLine (text.take M)
  obtain ⟨st, hst, hlast⟩ := Session.lastReport_eq h
  exact ⟨rs, st, _, HTTPParser.outputs_emit h, hst, hlast ▸ Session.ends_of_outputs h⟩

end Jinx.Http
