import Jinx.Http.HTTPBuilder

/-! `WebApp`: one connection, from its first request on.

    The task of the connection awaits the parser, a page or the stream, and each label says how the one
    that is awaited goes on. A page is code of the user: between two awaits it does any `PageAction`s.
    The error page is code of the library and goes its own way. The parser is seen by its reports, and
    the stream by whether an operation succeeds.

    Which `Awaitable::run`s are on the C++ stack matters where an error is raised. A page is run inline by
    `WebApp` until the task suspends; later the task calls the innermost awaitable itself. And the parser,
    when it has paused with a field, stands between the page and `WebApp`. -/

namespace Jinx.Http

/-- `category_webapp()`. -/
def categoryWebapp : Category := .other 1

/-- `enum class ErrorWebApp`. -/
inductive ErrorWebApp where
  | noError | outOfMemory | responseHeaderTooLarge
  deriving DecidableEq, Repr

def ErrorWebApp.toInt : ErrorWebApp → Int
  | .noError => 0
  | .outOfMemory => 1
  | .responseHeaderTooLarge => 2

def makeErrorWebApp (e : ErrorWebApp) : Error := ⟨e.toInt, categoryWebapp⟩

/-- `make_error(HTTPStatusCode)`. -/
def makeErrorHttp (status : Nat) : Error := ⟨status, .http⟩

/-- The messages of `category_http()`. -/
def httpMessage : Nat → String
  | 100 => "Continue"
  | 101 => "Switching Protocols"
  | 200 => "OK"
  | 201 => "Created"
  | 202 => "Accepted"
  | 203 => "Non-Authoritative Information"
  | 204 => "No Content"
  | 205 => "Reset Content"
  | 206 => "Partial Content"
  | 300 => "Multiple Choices"
  | 301 => "Moved Permanently"
  | 302 => "Found"
  | 303 => "See Other"
  | 304 => "Not Modified"
  | 305 => "Use Proxy"
  | 307 => "Temporary Redirect"
  | 400 => "Bad Request"
  | 401 => "Unauthorized"
  | 402 => "Payment Required"
  | 403 => "Forbidden"
  | 404 => "Not Found"
  | 405 => "Method Not Allowed"
  | 406 => "Not Acceptable"
  | 407 => "Proxy Authentication Required"
  | 408 => "Request Time-out"
  | 409 => "Conflict"
  | 410 => "Gone"
  | 411 => "Length Required"
  | 412 => "Precondition Failed"
  | 413 => "Request Entity Too Large"
  | 414 => "Request-URI Too Large"
  | 415 => "Unsupported Media Type"
  | 416 => "Requested range not satisfiable"
  | 417 => "Expectation Failed"
  | 500 => "Internal Server Error"
  | 501 => "Not Implemented"
  | 502 => "Bad Gateway"
  | 503 => "Service Unavailable"
  | 504 => "Gateway Time-out"
  | 505 => "HTTP Version not supported"
  | _ => "Unsupported status code"

/-- The views of `InternalPages`. -/
def internalPage (title : String) : List Byte :=
  ascii "<html><head><title>" ++ ascii title ++ ascii "</title></head><body><center><h1>" ++
    ascii title ++ ascii "</h1></center><hr><center>jinx</center></body></html>"

/-- The body of the error page for a status. -/
def errorBody : Nat → List Byte
  | 400 => internalPage "400 Bad Request"
  | 404 => internalPage "404 Not Found"
  | 413 => internalPage "413 Request Entity Too Large"
  | _ => internalPage "500 Internal Server Error"

/-- What a `SpawnPage` constructs: the index page of a node with its `SlotCount`, or the error page. -/
inductive Spawn (π : Type*) where
  | index (page : π) (slotCount : Nat)
  | errorPage
  deriving DecidableEq, Repr

/-- What a page does between two awaits. -/
inductive PageAction where
  | parseHeader
  | writeResponseLine (status : Nat) (text : List Byte)
  | writeResponseField (name value : List Byte)
  | sendResponse
  /-- `http_redirect`, with the byte behind the path -/
  | redirect (path : List Byte) (behind : Byte)
  | ret
  | throw (e : Error)
  deriving DecidableEq, Repr

/-- Where the task of the connection is. -/
inductive AppPhase where
  /-- it awaits the parser, and `pre_route` is next -/
  | parsing
  /-- a page of the user runs -/
  | running
  /-- the page awaits the parser, and `handle_parser_result` is next -/
  | reading
  /-- the page awaits `_builder.send()` -/
  | sending
  /-- the error page awaits the write of its body -/
  | writing (body : List Byte)
  /-- the page has raised an error, which `handle_error` has not seen yet -/
  | raised (e : Error)
  /-- it awaits `_stream->shutdown()`, and `async_return` is next -/
  | shutdown
  | exited
  /-- a null pointer was followed, an assertion failed, or the route left its URL or its array -/
  | failed
  deriving DecidableEq, Repr

/-- What is awaited is an operation of the stream, or the parser that reads from it. -/
def AppPhase.waits : AppPhase → Bool
  | .parsing | .reading | .sending | .writing _ | .shutdown => true
  | _ => false

variable {π : Type*}

/-- `WebApp`, with the `AppInterface` that the pages see. A buffer is known by the size of its memory;
    the view of the response buffer is in the builder. -/
structure WebApp (π : Type*) where
  root : Node π
  route : WebRoute
  bufferRequest : Option Nat := none
  bufferResponse : Option Nat := none
  bufferPage : Option Nat := none
  builder : HTTPBuilder := {}
  connectionState : HTTPConnectionState := .close
  slots : List (UInt64 × List Byte) := []
  slotCount : Nat := 0
  queryString : List Byte := []
  errorCode : Nat := 0
  flagBrokenStream : Bool := true
  /-- `_spawn_page` -/
  next : Option (Spawn π) := none
  page : Option (Spawn π) := none
  phase : AppPhase := .failed
  /-- its `run` is on the C++ stack, below that of the page -/
  inlined : Bool := false
  /-- the parser is paused, and it is `_caller` of the page -/
  parserPaused : Bool := false
  /-- the bytes that the stream has taken -/
  sent : List Byte := []
  /-- `_stream->shutdown()` was called -/
  shut : Bool := false

namespace WebApp

def fail (app : WebApp π) : WebApp π := { app with phase := .failed }

/-- `init`: both views are taken from their buffers. -/
def init (app : WebApp π) : WebApp π :=
  match app.bufferRequest, app.bufferResponse with
  | some _, some size =>
    { app with builder := app.builder.init (.empty size), phase := .parsing }
  | _, _ => app.fail

/-- A connection whose buffers have been allocated. -/
def start (root : Node π) (request response page : Nat) : WebApp π :=
  init { root := root, route := .new root, bufferRequest := some request,
         bufferResponse := some response, bufferPage := some page }

def shutdown (app : WebApp π) : WebApp π := { app with shut := true, phase := .shutdown }

/-- The page has raised an error; `async_throw` replaces an error without a value. -/
def throw (app : WebApp π) (e : Error) : WebApp π :=
  { app with phase := .raised (if e.isSet then e else makeError .invalidErrorCode) }

/-- The connection state that `send_response` leaves: the response has the last word. -/
def responseState (app : WebApp π) : HTTPConnectionState :=
  if app.builder.connectionState ≠ .unknown then app.builder.connectionState
  else if app.connectionState = .unknown then .close
  else app.connectionState

/-- `WebPage::send_response`. -/
def sendResponse (app : WebApp π) : WebApp π :=
  match app.builder.writeHeaderDone with
  | none => app.fail
  | some (b, true) =>
    { app with connectionState := app.responseState, builder := b, flagBrokenStream := true,
               phase := .sending }
  | some (b, false) =>
    { app with connectionState := app.responseState, builder := b }.throw
      (makeErrorWebApp .responseHeaderTooLarge)

/-- The header of the error page, without its last lines. -/
def writeErrorHeader (b : HTTPBuilder) (code : Nat) : Option HTTPBuilder :=
  (b.writeResponseLine code (ascii (httpMessage code))).bind fun b =>
    (b.writeHeaderField (ascii "Connection") (ascii "close")).bind fun b =>
      (b.writeHeaderField (ascii "Content-Type") (ascii "text/html; charset=UTF-8")).bind fun b =>
        b.writeHeaderField (ascii "Content-Length") (decimal (errorBody code).length)

/-- `ErrorPage::http_handle_request`. -/
def handleRequest (app : WebApp π) : WebApp π :=
  match writeErrorHeader app.builder app.errorCode with
  | none => app.fail
  | some b => { app with builder := b }.sendResponse

/-- `spawn_page`, up to the first await of the page. -/
def spawnPage (app : WebApp π) : WebApp π :=
  match app.bufferPage, app.next with
  | some _, some (.index page slotCount) =>
    { app with page := some (.index page slotCount), slotCount := slotCount, next := none,
               phase := .running, inlined := true, parserPaused := false }
  | some _, some .errorPage =>
    let app := { app with page := some .errorPage, slotCount := 0, next := none, inlined := true,
                          parserPaused := false }
    -- `http_start_line`: a response can still be made of a broken request
    if app.flagBrokenStream then app.handleRequest else { app with phase := .reading }
  | _, _ => app.fail

def sendErrorPage (app : WebApp π) (code : Nat) : WebApp π :=
  if app.flagBrokenStream then app.shutdown
  else { app with flagBrokenStream := true, errorCode := code, next := some .errorPage }.spawnPage

/-- `handle_error`. -/
def handleError (app : WebApp π) (e : Error) : WebApp π :=
  if e.category = categoryWebapp ∧
      (e.value = ErrorWebApp.toInt .noError ∨ e.value = ErrorWebApp.toInt .outOfMemory) then
    app.shutdown
  else if e.category = .http ∧ 400 ≤ e.value then app.sendErrorPage e.value.toNat
  else app.sendErrorPage 500

/-- `reset`. -/
def reset (app : WebApp π) : WebApp π :=
  { app with next := none, page := none, bufferPage := none, bufferRequest := none,
             bufferResponse := none }

/-- The error of the page has gone to the parser, and the `run` of the application finds that `_top` is
    another awaitable. -/
def bypassed (app : WebApp π) : Bool := app.inlined && app.parserPaused

/-- The error comes to `handle_error`. An application that was bypassed is finalized before, so that it
    has neither buffers nor a task for what it awaits. -/
def receiveError (app : WebApp π) (e : Error) : WebApp π :=
  if app.bypassed then (app.reset.handleError e).fail else app.handleError e

/-- `route`, without the page when the URL has none. -/
def routeTo (app : WebApp π) (path : List Byte) (behind : Byte) :
    Except RouteFault (WebRoute × Option (Spawn π)) :=
  (app.route.route app.root path behind).map fun r => (r.1, r.2.map fun p => .index p.1 p.2)

/-- `pre_route`. -/
def preRoute (app : WebApp π) (r : Report) : WebApp π :=
  let app := { app with flagBrokenStream := false }
  match r with
  | .startLine _ path _ =>
    match app.routeTo path SP with
    | .error _ => app.fail
    | .ok (route, page) =>
      let app := { app with route := route.freeze, slots := route.slots, queryString := route.queryString }
      match page with
      | some page => { app with next := some page }.spawnPage
      | none => { app with errorCode := 404, next := some .errorPage }.spawnPage
  | _ => app.sendErrorPage 400

/-- `finish`: the page has returned. -/
def finish (app : WebApp π) : WebApp π :=
  match app.page, app.bufferPage with
  | some _, some _ =>
    if app.next.isSome then app.spawnPage
    else if app.connectionState = .keepAlive then app.reset.init
    else app.shutdown
  | _, _ => app.fail

/-- `handle_parser_result`. What the user's page does with a field, and when the header is done, is
    up to the labels that follow. -/
def handleParserResult (app : WebApp π) (r : Report) : WebApp π :=
  match r with
  | .header name value =>
    let app := if sameName name "connection" then
      { app with connectionState := .ofValue value } else app
    match app.page with
    | some .errorPage => { app with phase := .reading }
    | _ => { app with phase := .running, parserPaused := true }
  | .final (some .complete) =>
    match app.page with
    | some .errorPage => app.handleRequest
    | _ => { app with phase := .running }
  | .final (some .entityTooLarge) => app.throw (makeErrorHttp 413)
  | .final (some .uninitialized) => app.throw (makeErrorHttp 500)
  | .final none => app.fail
  | _ => app.throw (makeErrorHttp 400)

/-- One action of a page of the user. -/
def act (app : WebApp π) : PageAction → WebApp π
  | .parseHeader => { app with phase := .reading, parserPaused := false }
  | .writeResponseLine status text =>
    match app.builder.writeResponseLine status text with
    | none => app.fail
    | some b => { app with builder := b }
  | .writeResponseField name value =>
    match app.builder.writeHeaderField name value with
    | none => app.fail
    | some b => { app with builder := b }
  | .sendResponse => app.sendResponse
  | .redirect path behind =>
    match app.routeTo path behind with
    | .error _ => app.fail
    | .ok (route, page) => { app with route := route, next := page }.finish
  | .ret => app.finish
  | .throw e => app.throw e

/-- The operation of the stream that is awaited has succeeded. -/
def streamDone (app : WebApp π) : WebApp π :=
  match app.phase with
  | .sending =>
    match app.builder.buffer with
    | none => app.fail
    | some view =>
      let app := { app with sent := app.sent ++ view.window, builder := app.builder.asyncFinalize }
      match app.page with
      | some .errorPage => { app with phase := .writing (errorBody app.errorCode) }
      | _ => { app with phase := .running }
  | .writing body => { app with sent := app.sent ++ body }.finish
  | .shutdown => { app with phase := .exited }
  | _ => app

/-- It has failed, after it has taken `n` bytes; the frames below are finalized. -/
def streamFails (app : WebApp π) (n : Nat) (e : Error) : WebApp π :=
  match app.phase with
  | .sending =>
    match app.builder.buffer with
    | none => app.fail
    | some view =>
      { app with sent := app.sent ++ view.window.take n, builder := app.builder.asyncFinalize }.throw e
  | .writing body => { app with sent := app.sent ++ body.take n }.throw e
  | .parsing | .reading | .shutdown => app.throw e
  | _ => app

inductive Label where
  /-- the parser has ended or paused -/
  | report (r : Report)
  | act (a : PageAction)
  | streamDone
  | streamFails (n : Nat) (e : Error)
  /-- `handle_error` sees the error -/
  | handle
  /-- the operation that is awaited has no outcome yet, and `Task::run` returns -/
  | suspend
  deriving DecidableEq, Repr

def step (app : WebApp π) : Label → Option (WebApp π)
  | .report r =>
    match app.phase with
    | .parsing => some (app.preRoute r)
    | .reading => some (app.handleParserResult r)
    | _ => none
  | .act a => if app.phase = .running then some (app.act a) else none
  | .streamDone =>
    match app.phase with
    | .sending | .writing _ | .shutdown => some app.streamDone
    | _ => none
  | .streamFails n e =>
    match app.phase with
    | .sending | .writing _ | .shutdown | .parsing | .reading => some (app.streamFails n e)
    | _ => none
  | .handle =>
    match app.phase with
    | .raised e => some (app.receiveError e)
    | _ => none
  | .suspend => if app.phase.waits then some { app with inlined := false } else none

abbrev exec : WebApp π → List Label → Option (WebApp π) := Runs.exec step

/-! ### What a step does -/

variable {app t : WebApp π}

theorem step_report {r : Report} (h : app.step (.report r) = some t) :
    app.phase = .parsing ∧ t = app.preRoute r ∨ app.phase = .reading ∧ t = app.handleParserResult r := by
  simp only [step] at h
  split at h
  · exact .inl ⟨‹_›, (Option.some.inj h).symm⟩
  · exact .inr ⟨‹_›, (Option.some.inj h).symm⟩
  · cases h

theorem step_act {a : PageAction} (h : app.step (.act a) = some t) :
    app.phase = .running ∧ t = app.act a := by
  obtain ⟨hphase, heq⟩ := Option.ite_none_right_eq_some.mp h
  exact ⟨hphase, (Option.some.inj heq).symm⟩

theorem step_streamDone (h : app.step .streamDone = some t) :
    (app.phase = .sending ∨ (∃ body, app.phase = .writing body) ∨ app.phase = .shutdown) ∧
      t = app.streamDone := by
  simp only [step] at h
  split at h
  · exact ⟨.inl ‹_›, (Option.some.inj h).symm⟩
  · exact ⟨.inr (.inl ⟨_, ‹_›⟩), (Option.some.inj h).symm⟩
  · exact ⟨.inr (.inr ‹_›), (Option.some.inj h).symm⟩
  · cases h

theorem step_streamFails {n : Nat} {e : Error} (h : app.step (.streamFails n e) = some t) :
    (app.phase = .sending ∨ (∃ body, app.phase = .writing body) ∨ app.phase = .shutdown ∨
      app.phase = .parsing ∨ app.phase = .reading) ∧ t = app.streamFails n e := by
  simp only [step] at h
  split at h
  · exact ⟨.inl ‹_›, (Option.some.inj h).symm⟩
  · exact ⟨.inr (.inl ⟨_, ‹_›⟩), (Option.some.inj h).symm⟩
  · exact ⟨.inr (.inr (.inl ‹_›)), (Option.some.inj h).symm⟩
  · exact ⟨.inr (.inr (.inr (.inl ‹_›))), (Option.some.inj h).symm⟩
  · exact ⟨.inr (.inr (.inr (.inr ‹_›))), (Option.some.inj h).symm⟩
  · cases h

theorem step_handle (h : app.step .handle = some t) :
    ∃ e, app.phase = .raised e ∧ t = app.receiveError e := by
  simp only [step] at h
  split at h
  · exact ⟨_, ‹_›, (Option.some.inj h).symm⟩
  · cases h

theorem step_suspend (h : app.step .suspend = some t) :
    app.phase.waits = true ∧ t = { app with inlined := false } := by
  obtain ⟨hwaits, heq⟩ := Option.ite_none_right_eq_some.mp h
  exact ⟨hwaits, (Option.some.inj heq).symm⟩

theorem receiveError_of_direct (h : app.bypassed = false) (e : Error) :
    app.receiveError e = app.handleError e := by
  rw [receiveError, h]
  rfl

theorem phase_of_step {l : Label} (h : app.step l = some t) :
    app.phase ≠ .failed ∧ app.phase ≠ .exited := by
  constructor <;> intro hphase <;> cases l <;> simp [step, hphase, AppPhase.waits] at h

end WebApp

end Jinx.Http
