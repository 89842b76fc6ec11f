import Jinx.Http.Connection

/-! The response to a page that has failed.

    The error page writes into the builder of the page that it replaces, behind what that page has
    written. So its response is clean only if there is nothing before it, or if it does not fit and the
    connection is shut down without a response. And there is none at all where the error goes past the
    application, to a parser that is paused. -/

namespace Jinx.Http

open HTTPBuilder

variable {π : Type*} {app : WebApp π} {b b' : HTTPBuilder} {w : List Byte} {c code : Nat} {e : Error}

/-- The status with which an error is answered; there is none if the stream is shut down at once. -/
def errorStatus (e : Error) : Option Nat :=
  if e.category = categoryWebapp ∧
      (e.value = ErrorWebApp.toInt .noError ∨ e.value = ErrorWebApp.toInt .outOfMemory) then none
  else if e.category = .http ∧ 400 ≤ e.value then some e.value.toNat
  else some 500

/-- A field line. -/
def fieldLine (name value : List Byte) : List Byte := name ++ ascii ": " ++ value ++ lineEnd

/-- The lines that the error page writes itself. -/
def errorLines (code : Nat) : List Byte :=
  ascii "HTTP/1.1" ++ [SP] ++ decimal code ++ [SP] ++ ascii (httpMessage code) ++ lineEnd ++
    fieldLine (ascii "Connection") (ascii "close") ++
    fieldLine (ascii "Content-Type") (ascii "text/html; charset=UTF-8") ++
    fieldLine (ascii "Content-Length") (decimal (errorBody code).length)

/-- The header of the error page, on a builder with the flags of `b`. -/
def errorHead (b : HTTPBuilder) (code : Nat) : List Byte := errorLines code ++ b.headerEnd

/-- The error page's own header and body. -/
def errorResponse (code : Nat) : List Byte := errorHead {} code ++ errorBody code

theorem writeErrorHeader_writes (h : Writing b w c) (code : Nat) :
    ∃ b', WebApp.writeErrorHeader b code = some b' ∧ b.Writes b' w (errorLines code) c ∧
      b'.useCustomServerName = b.useCustomServerName ∧
      (b'.overflow = false → b'.connectionState = .close) := by
  obtain ⟨b₁, h₁, hw₁, hk₁⟩ := writeResponseLine_writes h.shows code (ascii (httpMessage code))
  obtain ⟨b₂, h₂, hw₂, hd₂, hs₂, hc₂⟩ := writeHeaderField_writes hw₁.shows (hk₁.detect.trans h.detect)
    (ascii "Connection") (ascii "close")
  have hw₁₂ := hw₁.append hw₂
  obtain ⟨b₃, h₃, hw₃, hd₃, hs₃, hc₃⟩ := writeHeaderField_writes hw₁₂.shows hd₂
    (ascii "Content-Type") (ascii "text/html; charset=UTF-8")
  have hw₁₃ := hw₁₂.append hw₃
  obtain ⟨b₄, h₄, hw₄, -, hs₄, hc₄⟩ := writeHeaderField_writes hw₁₃.shows hd₃
    (ascii "Content-Length") (decimal (errorBody code).length)
  have hkept : ∀ {x y : HTTPBuilder} {v t : List Byte} {d : Nat}, x.Writes y v t d →
      y.overflow = false → x.overflow = false := by
    intro x y v t d hxy hy
    by_contra hx
    have hover := hxy.overflow.mpr (.inl (by simpa using hx))
    simp [hy] at hover
  have hnot : sameName (ascii "Connection") "server" = false ∧
      sameName (ascii "Content-Type") "server" = false ∧
      sameName (ascii "Content-Length") "server" = false ∧
      sameName (ascii "Connection") "connection" = true ∧
      sameName (ascii "Content-Type") "connection" = false ∧
      sameName (ascii "Content-Length") "connection" = false := by decide
  obtain ⟨n₁, n₂, n₃, n₄, n₅, n₆⟩ := hnot
  refine ⟨b₄, by simp [WebApp.writeErrorHeader, h₁, h₂, h₃, h₄], hw₁₃.append hw₄, ?_, fun hover => ?_⟩
  · rw [hs₄, hs₃, hs₂, hk₁.server, n₁, n₂, n₃]
    simp
  · have hover₃ := hkept hw₄ hover
    have hover₂ := hkept hw₃ hover₃
    rw [hc₄ hover, n₆, hc₃ hover₃, n₅, hc₂ hover₂, n₄]
    rfl

/-! ### The error page on a builder -/

/-- The header fits behind what the builder shows. -/
def Fits (b : HTTPBuilder) (c code : Nat) : Prop :=
  b.overflow = false ∧ (errorHead b code).length ≤ c

/-- What fits is sent. -/
theorem handleRequest_fits (h : Writing app.builder w c) (hfit : Fits app.builder c app.errorCode) :
    ∃ b' front c', app.handleRequest =
        { app with connectionState := .close, builder := b', flagBrokenStream := true,
                   phase := .sending } ∧
      b'.buffer = some { front := front, window := w ++ errorHead app.builder app.errorCode,
                         capacity := c' } := by
  obtain ⟨b₁, h₁, hw₁, hs₁, hc₁⟩ := writeErrorHeader_writes h app.errorCode
  obtain ⟨b₂, h₂, hw₂, hk₂⟩ := writeHeaderDone_writes hw₁.shows
  have hend : b₁.headerEnd = app.builder.headerEnd := by rw [headerEnd, headerEnd, hs₁]
  have hw := hw₁.append hw₂
  rw [hend] at hw
  obtain ⟨hover, hlen⟩ := hfit
  have hover₂ : b₂.overflow = false := by
    by_contra hne
    rcases hw.overflow.mp (by simpa using hne) with hb | hlt
    · simp [hover] at hb
    · exact absurd hlen (Nat.not_le.mpr hlt)
  have hover₁ : b₁.overflow = false := by
    by_contra hne
    have hb := hw₂.overflow.mpr (.inl (by simpa using hne))
    simp [hover₂] at hb
  obtain ⟨front, hbuffer⟩ := hw.shows.buffer
  have htake : (errorHead app.builder app.errorCode).take c = errorHead app.builder app.errorCode :=
    List.take_of_length_le hlen
  refine ⟨b₂, front, _, ?_, by rw [hbuffer]; exact congrArg _ (by rw [← htake]; rfl)⟩
  rw [WebApp.handleRequest, h₁]
  dsimp only
  rw [WebApp.sendResponse, h₂, hover₂, WebApp.responseState, hc₁ hover₁]
  rfl

/-- What does not fit raises `ResponseHeaderTooLarge`. -/
theorem handleRequest_overflows (h : Writing app.builder w c)
    (hfit : ¬ Fits app.builder c app.errorCode) :
    ∃ b' s, app.handleRequest = ({ app with connectionState := s, builder := b' } : WebApp π).throw
      (makeErrorWebApp .responseHeaderTooLarge) := by
  obtain ⟨b₁, h₁, hw₁, hs₁, hc₁⟩ := writeErrorHeader_writes h app.errorCode
  obtain ⟨b₂, h₂, hw₂, hk₂⟩ := writeHeaderDone_writes hw₁.shows
  have hend : b₁.headerEnd = app.builder.headerEnd := by rw [headerEnd, headerEnd, hs₁]
  have hw := hw₁.append hw₂
  rw [hend] at hw
  have hover₂ : b₂.overflow = true := by
    rw [hw.overflow]
    by_cases hb : app.builder.overflow = true
    · exact .inl hb
    · exact .inr (Nat.not_le.mp fun hlen => hfit ⟨by simpa using hb, hlen⟩)
  refine ⟨b₂, ({ app with builder := b₁ } : WebApp π).responseState, ?_⟩
  rw [WebApp.handleRequest, h₁]
  dsimp only
  rw [WebApp.sendResponse, h₂, hover₂]
  rfl

/-! ### The end of the connection -/

/-- A step of a connection whose stream takes everything; a suspension counts only where it changes
    something. -/
def stepWorking (app : WebApp π) : WebApp.Label → Option (WebApp π)
  | .streamFails _ _ => none
  | .suspend => if app.inlined then app.step .suspend else none
  | l => app.step l

/-- All ways on from `app` come to an end, with `sent` on the stream, which was shut down. -/
def EndsWith (app : WebApp π) (sent : List Byte) : Prop :=
  Runs.Ends stepWorking (fun t => t.phase = .exited) (fun t => (t.sent, t.shut)) app (sent, true)

/-- The response to the error is the error page's own header and body, or there is none. -/
def AnsweredCleanly (app : WebApp π) (e : Error) : Prop :=
  (∃ code, errorStatus e = some code ∧ EndsWith app (errorResponse code)) ∨ EndsWith app []

theorem endsWith_exited (hphase : app.phase = .exited) (hshut : app.shut = true) :
    EndsWith app app.sent := by
  have hstuck : ∀ l, stepWorking app l = none := by
    intro l
    cases l <;> simp [stepWorking, WebApp.step, hphase, AppPhase.waits]
  have hends : Runs.Ends stepWorking (fun t => t.phase = .exited) (fun t => (t.sent, t.shut)) app
      (app.sent, app.shut) := Runs.Ends.of_done hphase hstuck
  rwa [hshut] at hends

/-- An error goes to `handle_error`, and nowhere else. -/
theorem endsWith_raised {sent : List Byte} (hphase : app.phase = .raised e)
    (h : EndsWith (app.receiveError e) sent) : EndsWith app sent := by
  refine Runs.Ends.of_only (a := .handle) (by simp [hphase]) (by simp [stepWorking, WebApp.step, hphase])
    ?_ h
  intro l u hu
  cases l <;> simp [stepWorking, WebApp.step, hphase, AppPhase.waits] at hu
  exact hu.symm

/-- An error that goes past the application ends in a crash. -/
theorem not_endsWith_bypassed {sent : List Byte} (hphase : app.phase = .raised e)
    (hbypassed : app.bypassed = true) : ¬ EndsWith app sent := by
  intro hends
  have hstep : WebApp.exec app [.handle] = some (app.reset.handleError e).fail := by
    simp [WebApp.exec, Runs.exec, WebApp.step, hphase, WebApp.receiveError, hbypassed]
  obtain ⟨l, u, hu⟩ := hends.progress [.handle] _ hstep (by simp [WebApp.fail])
  cases l <;> simp [stepWorking, WebApp.step, WebApp.fail, AppPhase.waits] at hu

/-- While the stream is awaited, it succeeds or the task is suspended. -/
theorem stepWorking_cases {l : WebApp.Label} {u : WebApp π}
    (hphase : app.phase = .sending ∨ (∃ body, app.phase = .writing body) ∨ app.phase = .shutdown)
    (hu : stepWorking app l = some u) :
    u = app.streamDone ∨ app.inlined = true ∧ u = { app with inlined := false } := by
  cases l with
  | streamDone => exact .inl (WebApp.step_streamDone hu).2
  | suspend =>
    obtain ⟨hinlined, hs⟩ := Option.ite_none_right_eq_some.mp hu
    exact .inr ⟨hinlined, (WebApp.step_suspend hs).2⟩
  | streamFails n e => cases hu
  | report r | act a | handle =>
    rcases hphase with hp | ⟨body, hp⟩ | hp <;> simp [stepWorking, WebApp.step, hp] at hu

/-- An operation of the stream succeeds, at once or after the task has been suspended. -/
theorem endsWith_streamDone {sent : List Byte}
    (hphase : app.phase = .sending ∨ (∃ body, app.phase = .writing body) ∨ app.phase = .shutdown)
    (h : ∀ inlined, EndsWith ({ app with inlined := inlined } : WebApp π).streamDone sent) :
    EndsWith app sent := by
  have hnot : app.phase ≠ .exited := by
    rcases hphase with hp | ⟨body, hp⟩ | hp <;> simp [hp]
  have hstep : ∀ t : WebApp π, t.phase = app.phase → stepWorking t .streamDone = some t.streamDone := by
    intro t ht
    rcases hphase with hp | ⟨body, hp⟩ | hp <;> simp [stepWorking, WebApp.step, ht, hp]
  have hsuspended : EndsWith { app with inlined := false } sent := by
    refine Runs.Ends.of_only hnot (hstep _ rfl) (fun l u hu => ?_) (h false)
    rcases stepWorking_cases (by exact hphase) hu with hdone | ⟨hinlined, -⟩
    · exact hdone
    · cases hinlined
  exact Runs.Ends.of_two hnot (hstep app rfl)
    (fun l u hu => (stepWorking_cases hphase hu).imp id And.right) (h app.inlined) hsuspended

theorem endsWith_shutdown (app : WebApp π) : EndsWith app.shutdown app.sent := by
  refine endsWith_streamDone (.inr (.inr rfl)) fun inlined => ?_
  exact endsWith_exited rfl rfl

/-- The first error of a page is answered by the error page. -/
theorem handleError_of_status (hstatus : errorStatus e = some code) (hflag : app.flagBrokenStream = false) :
    app.handleError e =
      { app with flagBrokenStream := true, errorCode := code, next := some .errorPage }.spawnPage := by
  unfold errorStatus at hstatus
  unfold WebApp.handleError WebApp.sendErrorPage
  split at hstatus
  · simp at hstatus
  · rw [if_neg ‹_›]
    split at hstatus
    · obtain rfl := by simpa using hstatus
      rw [if_pos ‹_›, hflag]
      rfl
    · obtain rfl := by simpa using hstatus
      rw [if_neg ‹_›, hflag]
      rfl

theorem handleError_of_none (hstatus : errorStatus e = none) : app.handleError e = app.shutdown := by
  unfold errorStatus at hstatus
  unfold WebApp.handleError
  split at hstatus
  · rw [if_pos ‹_›]
  · split at hstatus <;> simp at hstatus

/-- The error page that takes the place of a page. -/
def replaced (app : WebApp π) (code : Nat) : WebApp π :=
  { app with flagBrokenStream := true, errorCode := code, next := none, page := some .errorPage,
             slotCount := 0, inlined := true, parserPaused := false }

theorem spawn_errorPage (hbuffer : app.bufferPage.isSome) (code : Nat) :
    ({ app with flagBrokenStream := true, errorCode := code, next := some .errorPage }
      : WebApp π).spawnPage = (replaced app code).handleRequest := by
  obtain ⟨size, hsize⟩ := Option.isSome_iff_exists.mp hbuffer
  simp only [WebApp.spawnPage, hsize]
  rw [if_pos trivial, replaced, hsize]

/-- The error page goes its way: its response comes behind what the builder shows. -/
theorem endsWith_fits (hsent : app.sent = []) (hbuffer : app.bufferPage.isSome)
    (h : Writing app.builder w c) (hfit : Fits app.builder c code) :
    EndsWith (replaced app code).handleRequest (w ++ errorHead app.builder code ++ errorBody code) := by
  obtain ⟨b', front, c', heq, hb'⟩ := @handleRequest_fits _ (replaced app code) _ _ h hfit
  obtain ⟨size, hsize⟩ := Option.isSome_iff_exists.mp hbuffer
  rw [heq]
  refine endsWith_streamDone (.inl rfl) fun _ => ?_
  simp only [WebApp.streamDone, hb']
  refine endsWith_streamDone (.inr (.inl ⟨_, rfl⟩)) fun _ => ?_
  simp only [WebApp.streamDone, WebApp.finish, replaced, hsize, hsent, List.nil_append]
  exact endsWith_shutdown _

/-- The error page itself has failed. -/
theorem endsWith_tooLarge (hflag : app.flagBrokenStream = true) (hdirect : app.bypassed = false) :
    EndsWith (app.throw (makeErrorWebApp .responseHeaderTooLarge)) app.sent := by
  refine endsWith_raised rfl ?_
  rw [WebApp.receiveError_of_direct (show (app.throw _).bypassed = false from hdirect)]
  have hshut : (app.throw (makeErrorWebApp .responseHeaderTooLarge)).handleError
      (makeErrorWebApp .responseHeaderTooLarge) =
        (app.throw (makeErrorWebApp .responseHeaderTooLarge)).shutdown := by
    have hstatus : ¬ ((makeErrorWebApp .responseHeaderTooLarge).category = categoryWebapp ∧
        ((makeErrorWebApp .responseHeaderTooLarge).value = ErrorWebApp.toInt .noError ∨
          (makeErrorWebApp .responseHeaderTooLarge).value = ErrorWebApp.toInt .outOfMemory)) := by decide
    have hhttp : ¬ ((makeErrorWebApp .responseHeaderTooLarge).category = .http ∧
        400 ≤ (makeErrorWebApp .responseHeaderTooLarge).value) := by decide
    rw [WebApp.handleError, if_neg hstatus, if_neg hhttp, WebApp.sendErrorPage]
    exact if_pos hflag
  exact hshut ▸ endsWith_shutdown (app.throw (makeErrorWebApp .responseHeaderTooLarge))

/-- When the header of the error page does not fit either, nothing is sent. -/
theorem endsWith_overflows (hsent : app.sent = []) (h : Writing app.builder w c)
    (hfit : ¬ Fits app.builder c code) : EndsWith (replaced app code).handleRequest [] := by
  obtain ⟨b', s, heq⟩ := @handleRequest_overflows _ (replaced app code) _ _ h hfit
  rw [heq, ← hsent]
  apply endsWith_tooLarge
  · rfl
  · rfl

/-! ### Mixed responses -/

/-- The flag for a custom server name has no place in the first bytes of a status line. -/
theorem not_server_in_status {l pre name post : List Byte}
    (hlen : (ascii "HTTP/1.1" ++ l).length ≤ 14)
    (h : ascii "HTTP/1.1" ++ l = pre ++ (name ++ ascii ": ") ++ post) : sameName name "server" = false := by
  by_contra hserver
  have hname : name.map toLower = ascii "server" := by simpa [sameName] using hserver
  have hnlen : name.length = 6 := by
    have hlen := congrArg List.length hname
    rw [List.length_map] at hlen
    exact hlen.trans rfl
  have hall := congrArg List.length h
  simp only [List.length_append] at hall hlen
  have hcolon : (ascii ": ").length = 2 := rfl
  -- the eight bytes of the field begin before the "1" of the version, and end behind it
  have hget : (pre ++ (name ++ ascii ": ") ++ post)[7]? = some 49 := by
    rw [← h]
    rfl
  rw [List.append_assoc, List.getElem?_append_right (by omega), List.getElem?_append_left (by
    simp only [List.length_append]
    omega)] at hget
  rcases List.mem_append.mp (List.mem_of_getElem? hget) with hmem | hmem
  · have hmem' : toLower 49 ∈ ascii "server" := hname ▸ List.mem_map_of_mem hmem
    exact absurd hmem' (by decide)
  · exact absurd hmem (by decide)

/-- What the page has written does not go unnoticed in the response. -/
theorem ne_errorResponse (h : Writing b w c) (hover : b.overflow = false) (hw : w ≠ []) (code : Nat) :
    w ++ errorHead b code ++ errorBody code ≠ errorResponse code := by
  intro heq
  have hserver := h.server
  rw [errorResponse, errorHead, errorHead, headerEnd, headerEnd] at heq
  rcases hcustom : b.useCustomServerName with _ | _
  · rw [hcustom] at heq
    have hlen := congrArg List.length heq
    simp only [List.length_append, Bool.false_eq_true, if_false] at hlen
    exact hw (List.length_eq_zero_iff.mp (by omega))
  · rw [hcustom] at heq
    have hlen := congrArg List.length heq
    have hname : (ascii "Server: jinx\r\n").length = 14 := rfl
    simp only [List.length_append, Bool.false_eq_true, if_false, if_true, List.length_nil] at hlen
    have hw14 : w.length = 14 := by omega
    rcases hserver hcustom with hb | ⟨pre, name, post, hpre, hserver⟩
    · simp [hover] at hb
    · obtain ⟨l, hl⟩ : ∃ l, w = ascii "HTTP/1.1" ++ l := by
        have hversion : ascii "HTTP/1.1" <+: w ++ (errorLines code ++
            ((if true = true then [] else ascii "Server: jinx\r\n") ++ lineEnd)) ++ errorBody code := by
          rw [heq, errorLines]
          simp only [List.append_assoc]
          exact List.prefix_append _ _
        have hwritten : w <+: w ++ (errorLines code ++
            ((if true = true then [] else ascii "Server: jinx\r\n") ++ lineEnd)) ++ errorBody code := by
          rw [List.append_assoc]
          exact List.prefix_append _ _
        obtain ⟨l, hl⟩ := List.prefix_of_prefix_length_le hversion hwritten (by rw [hw14]; decide)
        exact ⟨l, hl.symm⟩
      rw [not_server_in_status (by rw [← hl]; omega) (hl.symm.trans hpre)] at hserver
      exact absurd hserver (by decide)

/-- Either the page has written nothing, or the header of the error page does not fit behind it. -/
def NothingMixed (b : HTTPBuilder) (e : Error) : Prop :=
  ∀ code view, errorStatus e = some code → b.buffer = some view →
    view.window = [] ∨ ¬ Fits b view.capacity code

theorem answered_iff (hheld : app.Held) (hphase : app.phase = .raised e)
    (hflag : app.flagBrokenStream = false) (hdirect : app.bypassed = false) :
    AnsweredCleanly app e ↔ NothingMixed app.builder e := by
  have hreceive : app.receiveError e = app.handleError e := WebApp.receiveError_of_direct hdirect e
  obtain ⟨hsent, w, c, hw⟩ := hheld.unsent hflag
  obtain ⟨front, hbuffer⟩ := hw.shows.buffer
  cases hstatus : errorStatus e with
  | none =>
    refine iff_of_true (.inr (endsWith_raised hphase ?_)) fun code view hcode => by simp [hstatus] at hcode
    rw [hreceive, handleError_of_none hstatus, ← hsent]
    exact endsWith_shutdown app
  | some code =>
    have hnext : app.receiveError e = (replaced app code).handleRequest := by
      rw [hreceive, handleError_of_status hstatus hflag, spawn_errorPage hheld.pageBuffer]
    have hmixed : NothingMixed app.builder e ↔ w = [] ∨ ¬ Fits app.builder c code := by
      refine ⟨fun h => h code _ hstatus hbuffer, fun h code' view hcode hview => ?_⟩
      obtain rfl : code = code' := by simpa [hstatus] using hcode
      obtain rfl : _ = view := by simpa [hbuffer] using hview
      exact h
    rw [hmixed]
    by_cases hfit : Fits app.builder c code
    · have hends : EndsWith app (w ++ errorHead app.builder code ++ errorBody code) :=
        endsWith_raised hphase (hnext ▸ endsWith_fits hsent hheld.pageBuffer hw hfit)
      constructor
      · rintro (⟨code', hcode, hclean⟩ | hnothing)
        · obtain rfl : code = code' := by simpa [hstatus] using hcode
          have heq := congrArg Prod.fst (hends.unique hclean)
          by_contra hno
          exact ne_errorResponse hw hfit.1 (fun h => hno (.inl h)) code heq
        · have heq := congrArg Prod.fst (hends.unique hnothing)
          exact .inl (by simp at heq; exact heq.1)
      · rintro (rfl | hno)
        · have hserver : app.builder.useCustomServerName = false := by
            by_contra hcustom
            rcases hw.server (by simpa using hcustom) with hover | ⟨pre, name, post, hnil, -⟩
            · simp [hfit.1] at hover
            · have hlen := congrArg List.length hnil
              simp [ascii] at hlen
          have hhead : errorHead app.builder code = errorHead {} code := by
            rw [errorHead, errorHead, headerEnd, headerEnd, hserver]
          rw [List.nil_append, hhead] at hends
          exact .inl ⟨code, hstatus, hends⟩
        · exact absurd hfit hno
    · refine iff_of_true (.inr (endsWith_raised hphase ?_)) (.inr hfit)
      rw [hnext]
      exact endsWith_overflows hsent hw hfit

/-- The page for "/" does the given writes and raises the status 500. -/
def failing (writes : List WebApp.Label) : List WebApp.Label :=
  .report (.startLine (ascii "GET") (ascii "/") (ascii "HTTP/1.1")) :: writes ++
    [.act (.throw (makeErrorHttp 500))]

/-- A connection whose tree has one page. -/
def onePage : WebApp Nat := .start (.mk [] 0 []) 512 512 64

-- a page that throws in `http_header_field`, with the whole request there from the beginning
example : (WebApp.exec onePage [.report (.startLine (ascii "GET") (ascii "/") (ascii "HTTP/1.1")),
    .act .parseHeader, .report (.header (ascii "Host") (ascii "jinx")),
    .act (.throw (makeError .cxxException)), .handle]).map (fun app => (app.phase, app.sent, app.shut)) =
      some (.failed, [], false) := by rfl

end Jinx.Http
