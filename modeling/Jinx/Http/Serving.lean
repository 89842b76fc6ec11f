import Jinx.Http.PageSlot

/-! The stages of a page, and the parser that the pages share.

    A connection of `WebApp` takes any action of its pages. Here a page goes through the methods of
    `WebPage`, and may redirect in its first or in its last one. The pages of a request share the parser,
    which is finalized when it has returned. A step is one that the connection takes and that page and
    parser allow, so a run is also a run of `WebApp`. -/

namespace Jinx.Http

/-- The path of a `http_redirect`, with the byte behind it. -/
abbrev Redirect := List Byte × Byte

/-- Where a page redirects. Without a redirect `http_start_line` is the one of `WebPage`, and
    `http_handle_request` answers. -/
structure PageCode where
  startLine : Option Redirect := none
  handleRequest : Option Redirect := none

/-- What the parser is for a page that awaits it. -/
inductive ParserStage where
  /-- `initialize` was called -/
  | fresh
  /-- it has paused with the start line or with a field -/
  | paused
  /-- it has ended, and `async_finalize` has bound `uninitialized` -/
  | finished
  deriving DecidableEq, Repr

/-- What a parser that is awaited can report. -/
def ParserStage.gives : ParserStage → Report → Bool
  | .fresh, .startLine .. => true
  | .paused, .header .. => true
  | .paused, .final (some .complete) => true
  | .fresh, .final (some st) | .paused, .final (some st) =>
    st == .endOfStream || st == .entityTooLarge || st == .badRequest
  | _, _ => false

/-- The method of its page that is called next. -/
inductive PageStage where
  | startLine
  /-- `http_header_field`, then `parse_header` -/
  | headerField
  | handleRequest
  deriving DecidableEq, Repr

/-- An action of a page that answers. -/
def PageAction.answers : PageAction → Bool
  | .parseHeader | .redirect .. => false
  | _ => true

structure Serving (π : Type*) where
  app : WebApp π
  parser : ParserStage := .fresh
  stage : PageStage := .startLine

namespace Serving

open WebApp

variable {π : Type*}

def start (root : Node π) (request response page : Nat) : Serving π :=
  { app := .start root request response page }

/-- `parse_header`: a finalized parser throws as soon as it is polled. -/
def parseHeader (s : Serving π) : PageAction :=
  if s.parser = .finished then .throw (makeError .uninitialized) else .parseHeader

/-- `http_handle_request`. -/
def handles (c : PageCode) (a : PageAction) : Bool :=
  match c.handleRequest with
  | some r => a == .redirect r.1 r.2
  | none => a.answers

/-- The page that has control may do `a`. -/
def does (code : π → PageCode) (s : Serving π) (a : PageAction) : Bool :=
  match s.app.page with
  | some (.index page _) =>
    match s.stage with
    | .startLine =>
      match (code page).startLine with
      | some r => a == .redirect r.1 r.2
      | none => if s.app.flagBrokenStream then handles (code page) a else a == s.parseHeader
    | .headerField => a == s.parseHeader
    | .handleRequest => handles (code page) a
  | _ => false

def allows (code : π → PageCode) (s : Serving π) : Label → Bool
  | .report r => s.parser.gives r
  | .act a => s.does code a
  | _ => true

def parserAfter (s : Serving π) (l : Label) (app : WebApp π) : ParserStage :=
  if app.phase = .parsing then .fresh
  else
    match l with
    | .report (.final _) => .finished
    | .report _ => .paused
    | .streamFails .. =>
      if s.app.phase = .parsing ∨ s.app.phase = .reading then .finished else s.parser
    | _ => s.parser

def stageAfter (s : Serving π) (l : Label) : PageStage :=
  if (s.app.spawning l).isSome then .startLine
  else
    match l with
    | .report (.header ..) => .headerField
    | .report (.final (some .complete)) => .handleRequest
    | _ => s.stage

def step (code : π → PageCode) (s : Serving π) (l : Label) : Option (Serving π) :=
  if s.allows code l then
    (s.app.step l).map fun app => { app := app, parser := s.parserAfter l app, stage := s.stageAfter l }
  else none

abbrev exec (code : π → PageCode) : Serving π → List Label → Option (Serving π) := Runs.exec (step code)

end Serving

/-! ### What leaves a page in control -/

namespace WebApp

variable {π : Type*} {l : Label} {page : π} {n : Nat}

theorem next_sendResponse (app : WebApp π) : app.sendResponse.next = app.next := by
  unfold sendResponse
  split <;> rfl

theorem next_handleRequest (app : WebApp π) : app.handleRequest.next = app.next := by
  unfold handleRequest
  split
  · rfl
  · exact next_sendResponse _

/-- What is spawned is not to be spawned any more. -/
theorem spawnPage_next {a : WebApp π} (h : a.spawnPage.phase.inPage = true) :
    a.spawnPage.next = none := by
  unfold WebApp.spawnPage at h ⊢
  split
  · rfl
  · dsimp only
    split
    · exact next_handleRequest _
    · rfl
  · simp_all [fail, AppPhase.inPage]

theorem spawnPage_index {a : WebApp π} (hbuffer : a.bufferPage.isSome)
    (hnext : a.next = some (.index page n)) :
    a.spawnPage =
      { a with page := some (.index page n), slotCount := n, next := none, phase := .running,
               inlined := true, parserPaused := false } := by
  obtain ⟨size, hsize⟩ := Option.isSome_iff_exists.mp hbuffer
  simp only [WebApp.spawnPage, hsize, hnext]

theorem spawnPage_errorPage {a : WebApp π} (hbuffer : a.bufferPage.isSome)
    (hnext : a.next = some .errorPage) : a.spawnPage.page = some .errorPage := by
  obtain ⟨size, hsize⟩ := Option.isSome_iff_exists.mp hbuffer
  simp only [WebApp.spawnPage, hsize, hnext]
  split
  · exact page_handleRequest _
  · rfl

theorem errorPageSpawning_next {app a : WebApp π} {status : Nat}
    (h : app.errorPageSpawning status = some a) : a.next = some .errorPage := by
  unfold errorPageSpawning at h
  split at h
  · cases h
  · cases h
    rfl

theorem finishSpawning_eq {app a : WebApp π} (h : app.finishSpawning = some a) :
    a = app ∧ app.next.isSome := by
  unfold finishSpawning at h
  split at h
  · split at h
    · rename_i hnext
      cases h
      exact ⟨rfl, hnext⟩
    · cases h
  · cases h

/-- What was left to be spawned is spawned at the end of a page. -/
theorem finishSpawning_inPage {app b a : WebApp π} (hin : app.phase.inPage = true)
    (h : b.finishSpawning = some a) (hb : b.next = app.next) :
    app.phase.inPage = true ∧ app.next ≠ none := by
  obtain ⟨-, hsome⟩ := finishSpawning_eq h
  exact ⟨hin, hb ▸ Option.isSome_iff_ne_none.mp hsome⟩

/-- The steps that spawn a page of the user: the first one, a redirect, or what was left to be spawned. -/
theorem spawning_index {app a : WebApp π} (h : app.spawning l = some a)
    (hnext : a.next = some (.index page n)) :
    (∃ first second third, l = .report (.startLine first second third)) ∧ a.flagBrokenStream = false ∨
      (∃ path behind, l = .act (.redirect path behind)) ∧ a.flagBrokenStream = app.flagBrokenStream ∨
      app.phase.inPage = true ∧ app.next ≠ none := by
  unfold spawning at h
  split at h
  · split at h
    · unfold preRouteSpawning at h
      dsimp only at h
      split at h
      · split at h
        · cases h
        · split at h <;> cases h <;> exact .inl ⟨⟨_, _, _, rfl⟩, rfl⟩
      · cases (errorPageSpawning_next h).symm.trans hnext
    · cases h
  · split at h
    · obtain ⟨rfl, -⟩ := finishSpawning_eq h
      exact .inr (.inl ⟨⟨_, _, rfl⟩, rfl⟩)
    · cases h
  · split at h
    · rename_i hphase
      exact .inr (.inr (finishSpawning_inPage (by rw [hphase]; rfl) h rfl))
    · cases h
  · split at h
    · rename_i hphase
      exact .inr (.inr (finishSpawning_inPage (by rw [hphase]; rfl) h rfl))
    · cases h
  · split at h
    · replace h := (Option.ite_none_left_eq_some.mp h).2
      unfold handleErrorSpawning at h
      split at h
      · cases h
      · split at h
        · cases (errorPageSpawning_next h).symm.trans hnext
        · cases (errorPageSpawning_next h).symm.trans hnext
    · cases h
  · cases h

theorem streamFails_inPage {app t : WebApp π} {n : Nat} {e : Error}
    (h : app.step (.streamFails n e) = some t) : t.phase.inPage = false := by
  obtain ⟨hphase, rfl⟩ := step_streamFails h
  unfold streamFails
  rcases hphase with hphase | ⟨body, hphase⟩ | hphase | hphase | hphase <;> simp only [hphase]
  · split <;> rfl
  · rfl
  · rfl
  · rfl
  · rfl

/-- A page of the user gets control with a field, and at the end of the header. -/
theorem handleParserResult_header {app : WebApp π} (hpage : app.page = some (.index page n))
    (name value : List Byte) : ∃ c, app.handleParserResult (.header name value) =
      { app with connectionState := c, phase := .running, parserPaused := true } := by
  by_cases hname : sameName name "connection" = true
  · exact ⟨.ofValue value, by simp only [handleParserResult, if_pos hname, hpage]⟩
  · exact ⟨app.connectionState, by simp only [handleParserResult, if_neg hname, hpage]⟩

theorem handleParserResult_complete {app : WebApp π} (hpage : app.page = some (.index page n)) :
    app.handleParserResult (.final (some .complete)) = { app with phase := .running } := by
  simp only [handleParserResult, hpage]

theorem next_handleParserResult (app : WebApp π) (x : Report) :
    (app.handleParserResult x).next = app.next := by
  unfold handleParserResult
  split
  · dsimp only
    split <;> split <;> rfl
  · split
    · exact next_handleRequest _
    · rfl
  · rfl
  · rfl
  · rfl
  · rfl

/-- With any other report it has an error. -/
theorem handleParserResult_inPage {app : WebApp π} {x : Report}
    (hin : (app.handleParserResult x).phase.inPage = true) :
    (∃ name value, x = .header name value) ∨ x = .final (some .complete) := by
  cases x with
  | header name value => exact .inl ⟨name, value, rfl⟩
  | startLine first second third => cases hin
  | final st =>
    cases st with
    | none => cases hin
    | some st =>
      cases st with
      | complete => exact .inr rfl
      | _ => cases hin

theorem spawning_redirect {app : WebApp π} {path : List Byte} {behind : Byte} {route : WebRoute}
    {found : Option (Spawn π)} (hphase : app.phase = .running)
    (hroute : app.routeTo path behind = .ok (route, found)) :
    app.spawning (.act (.redirect path behind)) =
      { app with route := route, next := found }.finishSpawning := by
  simp only [spawning, hphase, hroute]

theorem act_redirect {app : WebApp π} {path : List Byte} {behind : Byte} {route : WebRoute}
    {found : Option (Spawn π)} (hroute : app.routeTo path behind = .ok (route, found)) :
    app.act (.redirect path behind) = { app with route := route, next := found }.finish := by
  simp only [act, hroute]

/-- A redirect that spawns nothing is the last thing of its page. -/
theorem redirect_inPage {app : WebApp π} {path : List Byte} {behind : Byte}
    (hphase : app.phase = .running) (hspawn : app.spawning (.act (.redirect path behind)) = none) :
    (app.act (.redirect path behind)).phase.inPage = false := by
  cases hroute : app.routeTo path behind with
  | error fault =>
    simp only [act, hroute]
    rfl
  | ok found =>
    rw [spawning_redirect hphase hroute] at hspawn
    rw [act_redirect hroute]
    exact (leaves_finish _ hspawn).phase

/-- A page of the user that goes on by itself. -/
theorem act_inPage {app : WebApp π} {a : PageAction} (hphase : app.phase = .running)
    (hspawn : app.spawning (.act a) = none) (hin : (app.act a).phase.inPage = true) :
    (app.act a).next = app.next ∧ (app.act a).page = app.page := by
  cases a with
  | parseHeader => exact ⟨rfl, rfl⟩
  | writeResponseLine status text =>
    simp only [act]
    split <;> exact ⟨rfl, rfl⟩
  | writeResponseField name value =>
    simp only [act]
    split <;> exact ⟨rfl, rfl⟩
  | sendResponse => exact ⟨next_sendResponse app, page_sendResponse app⟩
  | redirect path behind =>
    rw [redirect_inPage hphase hspawn] at hin
    cases hin
  | ret =>
    simp only [spawning, hphase] at hspawn
    rw [act, (leaves_finish app hspawn).phase] at hin
    cases hin
  | throw e => cases hin

end WebApp

namespace Serving

open WebApp

/-! ### Runs -/

variable {π : Type*} {code : π → PageCode} {s t : Serving π} {l : Label} {ls : List Label}

theorem step_spec (h : s.step code l = some t) :
    s.allows code l = true ∧ s.app.step l = some t.app ∧ t.parser = s.parserAfter l t.app ∧
      t.stage = s.stageAfter l := by
  unfold step at h
  split at h
  · rename_i hallows
    obtain ⟨app, happ, rfl⟩ := Option.map_eq_some_iff.mp h
    exact ⟨hallows, happ, rfl, rfl⟩
  · cases h

theorem step_of_allows {app : WebApp π} (hallows : s.allows code l = true)
    (h : s.app.step l = some app) : ∃ t, s.step code l = some t ∧ t.app = app ∧
      t.parser = s.parserAfter l app ∧ t.stage = s.stageAfter l := by
  have hstep : s.step code l =
      some { app := app, parser := s.parserAfter l app, stage := s.stageAfter l } := by
    rw [Serving.step, if_pos hallows, h, Option.map_some]
  exact ⟨_, hstep, rfl, rfl, rfl⟩

/-- A run is a run of the connection. -/
theorem exec_app (h : s.exec code ls = some t) : WebApp.exec s.app ls = some t.app := by
  have hstep : ∀ (s : Serving π) (l : Label) (s' : Serving π) (app : WebApp π), s.app = app →
      s.step code l = some s' → ∃ app', WebApp.step app l = some app' ∧ s'.app = app' := by
    rintro s l s' _ rfl hs
    exact ⟨s'.app, (step_spec hs).2.1, rfl⟩
  obtain ⟨app, happ, rfl⟩ := Runs.exec_simulates hstep ls s t s.app rfl h
  exact happ

theorem stageAfter_spawning {a : WebApp π} (h : s.app.spawning l = some a) :
    s.stageAfter l = .startLine :=
  if_pos (by rw [h]; rfl)

theorem parserAfter_act {a : PageAction} {app : WebApp π} (h : app.phase ≠ .parsing) :
    s.parserAfter (.act a) app = s.parser :=
  if_neg h

/-- Only a page of the user does anything of its own. -/
theorem index_of_does {a : PageAction} (h : s.does code a = true) :
    ∃ page n, s.app.page = some (.index page n) := by
  unfold does at h
  split at h
  · rename_i page n hpage
    exact ⟨page, n, hpage⟩
  · cases h

/-- While a page is awaited no other one is to be spawned. A page of the user has nothing sent before the
    parser is finished, and has not got to `http_handle_request`. -/
structure Staged (s : Serving π) : Prop where
  next : s.app.phase.inPage = true → s.app.next = none
  user : ∀ page n, s.app.page = some (.index page n) → s.app.phase.inPage = true →
    s.parser = .finished ∨ s.parser = .paused ∧ s.stage ≠ .handleRequest ∧
      s.app.flagBrokenStream = false ∧ (s.app.phase = .running ∨ s.app.phase = .reading)

/-- Where a page is spawned. -/
theorem Staged.spawned {a : WebApp π} (h : Staged s) (hinv : s.app.Inv) (ht : s.step code l = some t)
    (hspawn : s.app.spawning l = some a) : Staged t := by
  obtain ⟨hallows, hstep, hparser, hstage⟩ := step_spec ht
  obtain ⟨heq, hfound⟩ := spawning_spec hspawn
  have hbuffer : a.bufferPage.isSome :=
    hfound.bufferPage ▸ (hinv.held (phase_of_step hstep).1).pageBuffer
  have happ : t.app = a.spawnPage := Option.some.inj (hstep.symm.trans heq)
  rw [stageAfter_spawning hspawn] at hstage
  refine ⟨by rw [happ]; exact spawnPage_next, fun page n hpage hin => ?_⟩
  obtain ⟨spawn, hnext⟩ := Option.isSome_iff_exists.mp hfound.next
  cases spawn with
  | errorPage =>
    rw [happ, spawnPage_errorPage hbuffer hnext] at hpage
    cases hpage
  | index q m =>
    have hspawned := happ.trans (spawnPage_index hbuffer hnext)
    have hrunning : t.app.phase = .running := by rw [hspawned]
    have hflag : t.app.flagBrokenStream = a.flagBrokenStream := by rw [hspawned]
    rcases spawning_index hspawn hnext with ⟨⟨_, _, _, rfl⟩, hfalse⟩ | ⟨⟨path, behind, rfl⟩, hsame⟩ |
      ⟨hin', hsome⟩
    · have hpaused : t.parser = .paused := hparser.trans (if_neg (by rw [hrunning]; simp))
      exact .inr ⟨hpaused, by rw [hstage]; simp, hflag.trans hfalse, .inl hrunning⟩
    · have hphase : s.app.phase = .running := (step_act hstep).1
      obtain ⟨page', n', hpage'⟩ := index_of_does hallows
      rw [parserAfter_act (by rw [hrunning]; simp)] at hparser
      rcases h.user page' n' hpage' (by rw [hphase]; rfl) with hfinished | ⟨hpaused, -, hfalse, -⟩
      · exact .inl (hparser.trans hfinished)
      · exact .inr ⟨hparser.trans hpaused, by rw [hstage]; simp, hflag.trans (hsame.trans hfalse),
          .inl hrunning⟩
    · exact absurd (h.next hin') hsome

theorem staged_out (h : s.app.phase.inPage = false) : Staged s :=
  ⟨fun hin => by simp [h] at hin, fun _ _ _ hin => by simp [h] at hin⟩

theorem Staged.report {x : Report} (h : Staged s) (ht : s.step code (.report x) = some t)
    (hspawn : s.app.spawning (.report x) = none) : Staged t := by
  obtain ⟨hallows, hstep, hparser, hstage⟩ := step_spec ht
  rcases step_report hstep with ⟨hphase, happ⟩ | ⟨hphase, happ⟩
  · simp only [spawning, hphase] at hspawn
    apply staged_out
    rw [happ]
    exact (leaves_preRoute hspawn).phase
  · refine ⟨fun _ => ?_, fun page n hpage hin => ?_⟩
    · rw [happ, next_handleParserResult]
      exact h.next (by rw [hphase]; rfl)
    · rw [happ, page_handleParserResult] at hpage
      rcases h.user page n hpage (by rw [hphase]; rfl) with hfinished | ⟨-, -, hflag, -⟩
      · rw [allows, hfinished] at hallows
        cases hallows
      · rw [happ] at hin hparser ⊢
        rcases handleParserResult_inPage hin with ⟨name, value, rfl⟩ | rfl
        · obtain ⟨c, heq⟩ := handleParserResult_header hpage name value
          rw [heq] at hparser ⊢
          have hpaused : t.parser = .paused := hparser.trans (if_neg (by simp))
          refine .inr ⟨hpaused, ?_, hflag, .inl rfl⟩
          rw [hstage, stageAfter, hspawn]
          simp
        · rw [handleParserResult_complete hpage] at hparser
          exact .inl (hparser.trans (if_neg (by simp)))

/-- What a page does before `http_handle_request`. -/
theorem parseHeader_of_does {a : PageAction} {page : π} {n : Nat} (h : s.does code a = true)
    (hpage : s.app.page = some (.index page n)) (hstage : s.stage ≠ .handleRequest)
    (hflag : s.app.flagBrokenStream = false) :
    a = s.parseHeader ∨ ∃ r : Redirect, a = .redirect r.1 r.2 := by
  simp only [does, hpage, hflag] at h
  cases hs : s.stage with
  | startLine =>
    rw [hs] at h
    cases hcode : (code page).startLine with
    | none => exact .inl (by simpa [hcode] using h)
    | some r => exact .inr ⟨r, by simpa [hcode] using h⟩
  | headerField => exact .inl (by simpa [hs] using h)
  | handleRequest => exact absurd hs hstage

theorem Staged.act {a : PageAction} (h : Staged s) (ht : s.step code (.act a) = some t)
    (hspawn : s.app.spawning (.act a) = none) : Staged t := by
  obtain ⟨hallows, hstep, hparser, hstage⟩ := step_spec ht
  obtain ⟨hphase, happ⟩ := step_act hstep
  have hinS : s.app.phase.inPage = true := by
    rw [hphase]
    rfl
  cases hin : t.app.phase.inPage with
  | false => exact staged_out hin
  | true =>
    obtain ⟨hnext, hpage⟩ := act_inPage hphase hspawn (happ ▸ hin)
    have hnot : t.app.phase ≠ .parsing := by
      intro hp
      rw [hp] at hin
      cases hin
    rw [← happ] at hnext hpage
    refine ⟨fun _ => hnext.trans (h.next hinS), fun page n hpage' _ => ?_⟩
    rw [parserAfter_act hnot] at hparser
    rw [hpage] at hpage'
    rcases h.user page n hpage' hinS with hfinished | ⟨hpaused, hne, hflag, -⟩
    · exact .inl (hparser.trans hfinished)
    · rcases parseHeader_of_does hallows hpage' hne hflag with rfl | ⟨r, rfl⟩
      · by_cases hfinished : s.parser = .finished
        · exact .inl (hparser.trans hfinished)
        · rw [parseHeader, if_neg hfinished] at happ hspawn hstage
          have hkept : s.stageAfter (.act .parseHeader) = s.stage := if_neg (by rw [hspawn]; simp)
          rw [hstage, hkept, happ]
          exact .inr ⟨hparser.trans hpaused, hne, hflag, .inr rfl⟩
      · rw [happ, redirect_inPage hphase hspawn] at hin
        cases hin

theorem Staged.streamDone (h : Staged s) (ht : s.step code .streamDone = some t)
    (hspawn : s.app.spawning .streamDone = none) : Staged t := by
  obtain ⟨-, hstep, hparser, -⟩ := step_spec ht
  obtain ⟨hphase, happ⟩ := step_streamDone hstep
  rcases hphase with hphase | ⟨body, hphase⟩ | hphase
  · have hinS : s.app.phase.inPage = true := by
      rw [hphase]
      rfl
    cases hin : t.app.phase.inPage with
    | false => exact staged_out hin
    | true =>
      have hsame : t.app.next = s.app.next ∧ t.app.page = s.app.page := by
        rw [happ]
        simp only [WebApp.streamDone, hphase]
        split
        · exact ⟨rfl, rfl⟩
        · split <;> exact ⟨rfl, rfl⟩
      refine ⟨fun _ => hsame.1.trans (h.next hinS), fun page n hpage _ => .inl ?_⟩
      rcases h.user page n (hsame.2 ▸ hpage) hinS with hfinished | ⟨-, -, -, hrun⟩
      · rw [hparser, ← hfinished]
        refine if_neg fun hp => ?_
        rw [hp] at hin
        cases hin
      · simp [hphase] at hrun
  · simp only [spawning, hphase] at hspawn
    apply staged_out
    rw [happ]
    simp only [WebApp.streamDone, hphase]
    exact (leaves_finish _ hspawn).phase
  · apply staged_out
    rw [happ]
    simp only [WebApp.streamDone, hphase]
    rfl

theorem Staged.suspend (h : Staged s) (ht : s.step code .suspend = some t) : Staged t := by
  obtain ⟨-, hstep, hparser, hstage⟩ := step_spec ht
  obtain ⟨-, happ⟩ := step_suspend hstep
  have hphase : t.app.phase = s.app.phase := by rw [happ]
  have hkept : t.app.phase.inPage = true → t.parser = s.parser := by
    intro hin
    refine hparser.trans (if_neg fun hp => ?_)
    rw [hp] at hin
    cases hin
  refine ⟨fun hin => ?_, fun page n hpage hin => ?_⟩
  · rw [happ]
    exact h.next (hphase ▸ hin)
  · rw [hkept hin, show t.stage = s.stage from hstage, hphase]
    rw [happ] at hpage ⊢
    exact h.user page n hpage (hphase ▸ hin)

theorem Staged.step (h : Staged s) (hinv : s.app.Inv) (ht : s.step code l = some t) : Staged t := by
  cases hspawn : s.app.spawning l with
  | some a => exact h.spawned hinv ht hspawn
  | none =>
    cases l with
    | report x => exact h.report ht hspawn
    | act a => exact h.act ht hspawn
    | streamDone => exact h.streamDone ht hspawn
    | streamFails n e => exact staged_out (streamFails_inPage (step_spec ht).2.1)
    | handle =>
      obtain ⟨-, hstep, -, -⟩ := step_spec ht
      obtain ⟨e, hphase, happ⟩ := step_handle hstep
      apply staged_out
      rw [happ]
      exact (leaves_receiveError hphase hspawn).phase
    | suspend => exact h.suspend ht

/-- In every run. -/
theorem staged_run {root : Node π} {request response page : Nat}
    (h : (start root request response page).exec code ls = some s) : Staged s ∧ s.app.Inv := by
  refine Runs.exec_invariant (C := fun _ _ => True) (I := fun s => Staged s ∧ s.app.Inv)
    (fun s l t hs _ ht => ⟨hs.1.step hs.2 ht, hs.2.step (step_spec ht).2.1⟩) ls _ s h
    (Runs.meets_true _ _) ⟨staged_out rfl, inv_start root request response page⟩

end Serving

end Jinx.Http
