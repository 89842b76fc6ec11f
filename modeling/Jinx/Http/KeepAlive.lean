import Jinx.Http.Connection

/-! Connections that are kept alive.

    `finish` drops the three buffers and goes on with `init`, which takes its views from them. So the
    second request of a connection is never served. -/

namespace Jinx.Http

open WebApp

variable {π : Type*}

/-- A request, and how its page and the connection go on until the page returns. -/
structure Request where
  method : List Byte
  path : List Byte
  version : List Byte
  page : List Label

/-- The parser reports the start line. -/
def Request.startLine (r : Request) : Label := .report (.startLine r.method r.path r.version)

/-- `app'` comes from `app` by a request whose page returns with `KeepAlive`. -/
def KeepsAlive (app : WebApp π) (r : Request) (app' : WebApp π) : Prop :=
  ∃ fin, exec app (r.startLine :: r.page) = some fin ∧ fin.phase = .running ∧ fin.next = none ∧
    fin.connectionState = .keepAlive ∧ step fin (.act .ret) = some app'

/-- The page of the request sees the slots and the query string of its URL. -/
def SeesUrl (app : WebApp π) (r : Request) : Prop :=
  match (WebRoute.new app.root).route app.root r.path SP with
  | .ok (route, some _) => app.slots = route.slots ∧ app.queryString = route.queryString
  | _ => True

/-- Every request of the sequence finds its buffers: `init` that of the request and that of the response,
    `spawn_page` that of the page; and its page sees its URL. -/
def ServesSafely : WebApp π → List Request → Prop
  | _, [] => True
  | app, r :: rs =>
    app.bufferRequest.isSome ∧ app.bufferResponse.isSome ∧
      (∀ t, step app r.startLine = some t → t.bufferPage.isSome ∧ SeesUrl t r) ∧
      ∀ app', KeepsAlive app r app' → ServesSafely app' rs

/-- A page that returns with `KeepAlive` leaves a connection without buffers. -/
theorem bufferRequest_of_keepsAlive {app app' : WebApp π} {r : Request} (h : KeepsAlive app r app')
    (happ : app.Inv) : app'.bufferRequest = none ∧ app'.phase = .failed := by
  obtain ⟨fin, hrun, hphase, hnext, hstate, hret⟩ := h
  have hinv : fin.Inv := Runs.exec_invariant (C := fun _ _ => True) (fun _ _ _ h _ ht => h.step ht) _ _ _
    hrun (Runs.meets_true _ _) happ
  obtain ⟨page, hpage⟩ := Option.isSome_iff_exists.mp (hinv.page (.inl hphase))
  obtain ⟨size, hsize⟩ := Option.isSome_iff_exists.mp (hinv.held (by simp [hphase])).pageBuffer
  have happ' : app' = fin.reset.fail := by
    have hret' : some (fin.act .ret) = some app' := by simpa [step, hphase] using hret
    rw [← Option.some.inj hret', act, finish, hpage, hsize]
    simp only [hnext, hstate, Option.isSome_none, Bool.false_eq_true, if_false, if_true]
    exact init_reset fin
  rw [happ']
  exact ⟨rfl, rfl⟩

/-- CORRECT: no sequence of two or more requests is served safely, once the first page has returned with
    `KeepAlive`. -/
theorem keepAlive_not_served (root : Node π) (request response page : Nat) (r₁ r₂ : Request)
    (rs : List Request) (app' : WebApp π)
    (h : KeepsAlive (start root request response page) r₁ app') :
    ¬ ServesSafely (start root request response page) (r₁ :: r₂ :: rs) := by
  rintro ⟨-, -, -, hserves⟩
  obtain ⟨hsome, -⟩ := hserves app' h
  rw [(bufferRequest_of_keepsAlive h (inv_start root request response page)).1] at hsome
  exact absurd hsome (by decide)

/-- A page that answers "Connection: keep-alive". -/
def aliveRequest (path : List Byte) : Request where
  method := ascii "GET"
  path := path
  version := ascii "HTTP/1.1"
  page := [.act (.writeResponseLine 200 (ascii "OK")),
    .act (.writeResponseField (ascii "Connection") (ascii "keep-alive")), .act .sendResponse, .streamDone]

/-- A tree with one page, which is the root's. -/
def aliveRoot : Node Nat := .mk [] 0 []

theorem keepsAlive_root :
    ∃ app', KeepsAlive (start aliveRoot 512 512 64) (aliveRequest (ascii "/?a")) app' :=
  ⟨_, _, rfl, rfl, rfl, rfl, rfl⟩

theorem keepAlive_not_served_root :
    ¬ ServesSafely (start aliveRoot 512 512 64)
      [aliveRequest (ascii "/?a"), aliveRequest (ascii "/?b")] := by
  obtain ⟨app', h⟩ := keepsAlive_root
  exact keepAlive_not_served aliveRoot 512 512 64 _ _ [] app' h

/-- The second request of "/?a", "/?b" has no buffer. -/
theorem second_request_fails : ¬ ServesSafely (start aliveRoot 512 512 64)
    [aliveRequest (ascii "/?a"), aliveRequest (ascii "/?b")] := by
  rintro ⟨-, -, -, hserves⟩
  obtain ⟨app', h⟩ := keepsAlive_root
  have hnone := (bufferRequest_of_keepsAlive h (inv_start aliveRoot 512 512 64)).1
  have hsome := (hserves app' h).1
  simp [hnone] at hsome

end Jinx.Http
