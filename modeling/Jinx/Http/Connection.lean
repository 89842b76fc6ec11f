import Jinx.Http.WebApp

/-! What holds in every state of a connection.

    As long as the page buffer is there, and until a response is on its way, the builder shows what the
    page has written and the stream has taken nothing. `Inv.step` is the step lemma; the functions of
    `WebApp` are taken one after the other in the order in which they call each other. -/

namespace Jinx.Http

open HTTPBuilder

variable {π : Type*} {app t : WebApp π} {b b' : HTTPBuilder} {w : List Byte} {c : Nat}

/-- The flag for a custom server name is set by a field that stands in the window, if it was not cut
    off. -/
def ServerShown (b : HTTPBuilder) (w : List Byte) : Prop :=
  b.useCustomServerName = true → b.overflow = true ∨
    ∃ pre name post, w = pre ++ (name ++ ascii ": ") ++ post ∧ sameName name "server" = true

/-- A builder between two writes of a page. -/
structure Writing (b : HTTPBuilder) (w : List Byte) (c : Nat) : Prop where
  shows : b.Shows w c
  server : ServerShown b w
  detect : b.detectConnection = false

/-- What is shown stays in the window when more is written. -/
theorem ServerShown.writes {s : List Byte} (h : ServerShown b w) (hw : b.Writes b' w s c)
    (hserver : b'.useCustomServerName = b.useCustomServerName) : ServerShown b' (w ++ s.take c) := by
  intro hb'
  rcases h (hserver ▸ hb') with hover | ⟨pre, name, post, rfl, hname⟩
  · exact .inl (hw.overflow.mpr (.inl hover))
  · exact .inr ⟨pre, name, post ++ s.take c, by simp, hname⟩

theorem Writing.keeps {s : List Byte} (h : Writing b w c) (hw : b.Writes b' w s c)
    (hk : b.Keeps b') : Writing b' (w ++ s.take c) (c - s.length) :=
  ⟨hw.shows, h.server.writes hw hk.server, hk.detect.trans h.detect⟩

theorem Writing.responseLine (h : Writing b w c) (status : Nat) (text : List Byte) :
    ∃ b' w' c', b.writeResponseLine status text = some b' ∧ Writing b' w' c' := by
  obtain ⟨b', hb', hw, hk⟩ := writeResponseLine_writes h.shows status text
  exact ⟨b', _, _, hb', h.keeps hw hk⟩

theorem Writing.headerField (h : Writing b w c) (name value : List Byte) :
    ∃ b' w' c', b.writeHeaderField name value = some b' ∧ Writing b' w' c' := by
  obtain ⟨b', hb', hw, hdetect, hserver, -⟩ := writeHeaderField_writes h.shows h.detect name value
  refine ⟨b', _, _, hb', hw.shows, ?_, hdetect⟩
  intro hcustom
  by_cases hover : b'.overflow = true
  · exact .inl hover
  right
  have hfit : ¬ c < (name ++ ascii ": " ++ value ++ lineEnd).length := fun hlt =>
    hover (hw.overflow.mpr (.inr hlt))
  rw [List.take_of_length_le (Nat.not_lt.mp hfit)]
  rw [hserver, Bool.or_eq_true] at hcustom
  rcases hcustom with hcustom | hname
  · rcases h.server hcustom with hb | ⟨pre, n, post, rfl, hn⟩
    · exact absurd (hw.overflow.mpr (.inl hb)) hover
    · exact ⟨pre, n, post ++ (name ++ ascii ": " ++ value ++ lineEnd), by simp, hn⟩
  · exact ⟨w, name, value ++ lineEnd, by simp, hname⟩

theorem Writing.headerDone (h : Writing b w c) :
    ∃ b' w' c', b.writeHeaderDone = some (b', !b'.overflow) ∧ Writing b' w' c' := by
  obtain ⟨b', hb', hw, hk⟩ := writeHeaderDone_writes h.shows
  exact ⟨b', _, _, hb', h.keeps hw hk⟩

namespace WebApp

/-- Nothing of the response is on the stream. -/
def Unsent (app : WebApp π) : Prop := app.sent = [] ∧ ∃ w c, Writing app.builder w c

/-- What holds between two steps, whatever is awaited. -/
structure Held (app : WebApp π) : Prop where
  pageBuffer : app.bufferPage.isSome
  unsent : app.flagBrokenStream = false → app.Unsent

structure Inv (app : WebApp π) : Prop where
  held : app.phase ≠ .failed → app.Held
  page : app.phase = .running ∨ app.phase = .reading ∨ app.phase = .sending → app.page.isSome
  broken : app.phase = .sending ∨ (∃ body, app.phase = .writing body) → app.flagBrokenStream = true
  parsing : app.phase = .parsing → app.Unsent

theorem inv_fail : app.fail.Inv :=
  ⟨fun h => absurd rfl h, by simp [fail], by simp [fail], by simp [fail]⟩

theorem Held.shutdown (h : app.Held) : app.shutdown.Inv :=
  ⟨fun _ => ⟨h.pageBuffer, h.unsent⟩, by simp [WebApp.shutdown], by simp [WebApp.shutdown],
    by simp [WebApp.shutdown]⟩

theorem Held.throw (h : app.Held) (e : Error) : (app.throw e).Inv :=
  ⟨fun _ => ⟨h.pageBuffer, h.unsent⟩, by simp [WebApp.throw], by simp [WebApp.throw],
    by simp [WebApp.throw]⟩

theorem Held.sendResponse (h : app.Held) (hpage : app.page.isSome) : app.sendResponse.Inv := by
  unfold WebApp.sendResponse
  split
  · exact inv_fail
  · refine ⟨fun _ => ⟨h.pageBuffer, by simp⟩, fun _ => hpage, fun _ => rfl, by simp⟩
  · rename_i b hb
    apply Held.throw
    refine ⟨h.pageBuffer, fun hflag => ?_⟩
    obtain ⟨hsent, w, c, hw⟩ := h.unsent hflag
    obtain ⟨b', w', c', hb', hw'⟩ := hw.headerDone
    rw [hb'] at hb
    obtain ⟨rfl, -⟩ := by simpa using hb
    exact ⟨hsent, w', c', hw'⟩

theorem writing_errorHeader (h : Writing b w c) (code : Nat) :
    ∃ b' w' c', writeErrorHeader b code = some b' ∧ Writing b' w' c' := by
  obtain ⟨b₁, w₁, c₁, h₁, hw₁⟩ := h.responseLine code (ascii (httpMessage code))
  obtain ⟨b₂, w₂, c₂, h₂, hw₂⟩ := hw₁.headerField (ascii "Connection") (ascii "close")
  obtain ⟨b₃, w₃, c₃, h₃, hw₃⟩ := hw₂.headerField (ascii "Content-Type")
    (ascii "text/html; charset=UTF-8")
  obtain ⟨b₄, w₄, c₄, h₄, hw₄⟩ := hw₃.headerField (ascii "Content-Length")
    (decimal (errorBody code).length)
  exact ⟨b₄, w₄, c₄, by simp [writeErrorHeader, h₁, h₂, h₃, h₄], hw₄⟩

theorem Held.handleRequest (h : app.Held) (hpage : app.page.isSome) : app.handleRequest.Inv := by
  unfold WebApp.handleRequest
  split
  · exact inv_fail
  · rename_i b hb
    refine Held.sendResponse ⟨h.pageBuffer, fun hflag => ?_⟩ hpage
    obtain ⟨hsent, w, c, hw⟩ := h.unsent hflag
    obtain ⟨b', w', c', hb', hw'⟩ := writing_errorHeader hw app.errorCode
    obtain rfl : b' = b := by simpa [hb'] using hb
    exact ⟨hsent, w', c', hw'⟩

theorem Held.spawnPage (h : app.Held) : app.spawnPage.Inv := by
  unfold WebApp.spawnPage
  split
  · exact ⟨fun _ => ⟨h.pageBuffer, h.unsent⟩, fun _ => rfl, by simp, by simp⟩
  · dsimp only
    split
    · exact Held.handleRequest ⟨h.pageBuffer, h.unsent⟩ rfl
    · exact ⟨fun _ => ⟨h.pageBuffer, h.unsent⟩, fun _ => rfl, by simp, by simp⟩
  · exact inv_fail

theorem Held.sendErrorPage (h : app.Held) (code : Nat) : (app.sendErrorPage code).Inv := by
  unfold WebApp.sendErrorPage
  split
  · exact h.shutdown
  · exact Held.spawnPage ⟨h.pageBuffer, by simp⟩

theorem Held.handleError (h : app.Held) (e : Error) : (app.handleError e).Inv := by
  unfold WebApp.handleError
  split
  · exact h.shutdown
  · split
    · exact h.sendErrorPage _
    · exact h.sendErrorPage _

/-- A connection that has failed keeps nothing. -/
theorem Held.receiveError (h : app.Held) (e : Error) : (app.receiveError e).Inv := by
  unfold WebApp.receiveError
  split
  · exact inv_fail
  · exact h.handleError e

/-- Whether the task has returned in between does not matter. -/
theorem Inv.suspended (h : app.Inv) : ({ app with inlined := false } : WebApp π).Inv :=
  ⟨fun hphase => ⟨(h.held hphase).pageBuffer, (h.held hphase).unsent⟩, h.page, h.broken, h.parsing⟩

theorem Held.preRoute (h : app.Held) (hunsent : app.Unsent) (r : Report) : (app.preRoute r).Inv := by
  unfold WebApp.preRoute
  dsimp only
  split
  · split
    · exact inv_fail
    · split
      · exact Held.spawnPage ⟨h.pageBuffer, fun _ => hunsent⟩
      · exact Held.spawnPage ⟨h.pageBuffer, fun _ => hunsent⟩
  · apply Held.sendErrorPage
    exact ⟨h.pageBuffer, fun _ => hunsent⟩

/-- After `reset` there is no request buffer to go on with. -/
theorem init_reset (app : WebApp π) : app.reset.init = app.reset.fail := rfl

theorem Held.finish (h : app.Held) : app.finish.Inv := by
  unfold WebApp.finish
  split
  · split
    · exact h.spawnPage
    · split
      · rw [init_reset]
        exact inv_fail
      · exact h.shutdown
  · exact inv_fail

theorem Held.handleParserResult (h : app.Held) (hpage : app.page.isSome) (r : Report) :
    (app.handleParserResult r).Inv := by
  have hgoes : ∀ (s : HTTPConnectionState) (phase : AppPhase) (paused : Bool),
      phase = .running ∨ phase = .reading →
      ({ app with connectionState := s, phase := phase, parserPaused := paused } : WebApp π).Inv := by
    rintro s phase paused (rfl | rfl) <;>
      exact ⟨fun _ => ⟨h.pageBuffer, h.unsent⟩, fun _ => hpage, by simp, by simp⟩
  unfold WebApp.handleParserResult
  split
  · rename_i name value
    dsimp only
    cases sameName name "connection" <;> split
    · exact hgoes app.connectionState .reading _ (.inr rfl)
    · exact hgoes app.connectionState .running true (.inl rfl)
    · exact hgoes (.ofValue value) .reading _ (.inr rfl)
    · exact hgoes (.ofValue value) .running true (.inl rfl)
  · split
    · exact h.handleRequest hpage
    · exact hgoes app.connectionState .running _ (.inl rfl)
  · exact h.throw _
  · exact h.throw _
  · exact inv_fail
  · exact h.throw _

/-- A page of the user goes on running after a write. -/
theorem Held.wrote (h : app.Held) (hphase : app.phase = .running) (hpage : app.page.isSome)
    (write : HTTPBuilder → Option HTTPBuilder)
    (hwrite : ∀ {b w c}, Writing b w c → ∃ b' w' c', write b = some b' ∧ Writing b' w' c')
    (hb : write app.builder = some b') : ({ app with builder := b' } : WebApp π).Inv := by
  refine ⟨fun _ => ⟨h.pageBuffer, fun hflag => ?_⟩, fun _ => hpage, by simp [hphase], by simp [hphase]⟩
  obtain ⟨hsent, w, c, hw⟩ := h.unsent hflag
  obtain ⟨b₁, w₁, c₁, hb₁, hw₁⟩ := hwrite hw
  obtain rfl : b₁ = b' := by simpa [hb₁] using hb
  exact ⟨hsent, w₁, c₁, hw₁⟩

theorem Held.act (h : app.Held) (hphase : app.phase = .running) (hpage : app.page.isSome)
    (a : PageAction) : (app.act a).Inv := by
  cases a with
  | parseHeader => exact ⟨fun _ => ⟨h.pageBuffer, h.unsent⟩, fun _ => hpage, by simp [WebApp.act],
      by simp [WebApp.act]⟩
  | writeResponseLine status text =>
    simp only [WebApp.act]
    split
    · exact inv_fail
    · exact h.wrote hphase hpage (fun b => b.writeResponseLine status text)
        (fun hw => hw.responseLine status text) ‹_›
  | writeResponseField name value =>
    simp only [WebApp.act]
    split
    · exact inv_fail
    · exact h.wrote hphase hpage (fun b => b.writeHeaderField name value)
        (fun hw => hw.headerField name value) ‹_›
  | sendResponse => exact h.sendResponse hpage
  | redirect path behind =>
    simp only [WebApp.act]
    split
    · exact inv_fail
    · exact Held.finish ⟨h.pageBuffer, h.unsent⟩
  | ret => exact h.finish
  | throw e => exact h.throw e

theorem Inv.streamDone (h : app.Inv) (hheld : app.Held) : app.streamDone.Inv := by
  unfold WebApp.streamDone
  split
  · rename_i hphase
    have hbroken := h.broken (.inl hphase)
    have hpage := h.page (.inr (.inr hphase))
    split
    · exact inv_fail
    · dsimp only
      split
      · exact ⟨fun _ => ⟨hheld.pageBuffer, by simp [hbroken]⟩, by simp, fun _ => hbroken, by simp⟩
      · exact ⟨fun _ => ⟨hheld.pageBuffer, by simp [hbroken]⟩, fun _ => hpage, by simp, by simp⟩
  · rename_i body hphase
    have hbroken := h.broken (.inr ⟨body, hphase⟩)
    exact Held.finish ⟨hheld.pageBuffer, by simp [hbroken]⟩
  · exact ⟨fun _ => ⟨hheld.pageBuffer, hheld.unsent⟩, by simp, by simp, by simp⟩
  · exact h

theorem Inv.streamFails (h : app.Inv) (hheld : app.Held) (n : Nat) (e : Error) :
    (app.streamFails n e).Inv := by
  unfold WebApp.streamFails
  split
  · rename_i hphase
    have hbroken := h.broken (.inl hphase)
    split
    · exact inv_fail
    · apply Held.throw
      exact ⟨hheld.pageBuffer, by simp [hbroken]⟩
  · rename_i body hphase
    have hbroken := h.broken (.inr ⟨body, hphase⟩)
    apply Held.throw
    exact ⟨hheld.pageBuffer, by simp [hbroken]⟩
  · exact hheld.throw e
  · exact hheld.throw e
  · exact hheld.throw e
  · exact h

/-- One step preserves the invariant. -/
theorem Inv.step {l : Label} (h : app.Inv) (ht : app.step l = some t) : t.Inv := by
  have hheld : app.Held := h.held (phase_of_step ht).1
  cases l with
  | report r =>
    rcases step_report ht with ⟨hphase, rfl⟩ | ⟨hphase, rfl⟩
    · exact hheld.preRoute (h.parsing hphase) r
    · exact hheld.handleParserResult (h.page (.inr (.inl hphase))) r
  | act a =>
    obtain ⟨hphase, rfl⟩ := step_act ht
    exact hheld.act hphase (h.page (.inl hphase)) a
  | streamDone =>
    obtain ⟨-, rfl⟩ := step_streamDone ht
    exact h.streamDone hheld
  | streamFails n e =>
    obtain ⟨-, rfl⟩ := step_streamFails ht
    exact h.streamFails hheld n e
  | handle =>
    obtain ⟨e, -, rfl⟩ := step_handle ht
    exact hheld.receiveError e
  | suspend =>
    obtain ⟨-, rfl⟩ := step_suspend ht
    exact h.suspended

theorem inv_start (root : Node π) (request response page : Nat) :
    (start root request response page).Inv := by
  have hunsent : (start root request response page).Unsent :=
    ⟨rfl, [], response, ⟨⟨[], rfl⟩, rfl, by simp [start, init, HTTPBuilder.init]⟩,
      by simp [ServerShown, start, init, HTTPBuilder.init], rfl⟩
  exact ⟨fun _ => ⟨rfl, fun _ => hunsent⟩, by simp [start, init], by simp [start, init],
    fun _ => hunsent⟩

/-- The invariant holds in every state of a connection. -/
theorem inv_exec {root : Node π} {request response page : Nat} {ls : List Label}
    (h : exec (start root request response page) ls = some t) : t.Inv :=
  Runs.exec_invariant (C := fun _ _ => True) (fun _ _ _ h _ ht => h.step ht) ls _ t h
    (Runs.meets_true _ _) (inv_start root request response page)

end WebApp

end Jinx.Http
