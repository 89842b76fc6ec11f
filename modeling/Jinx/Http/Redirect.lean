import Jinx.Http.Serving

/-! Redirects.

    `finish` spawns the page that a redirect has left in `_spawn_page`, and the target goes through the
    same stages as a first page. It gets to its `http_handle_request` if the parser is still paused; the
    parser of a header that has been read is finalized. A path without a page leaves nothing to spawn,
    and the page that is spawned is destroyed by what spawns it. -/

namespace Jinx.Http

namespace Serving

open WebApp

variable {π : Type*}

/-! ### What a redirect is for -/

/-- The page has control, and redirects. -/
def Redirects (code : π → PageCode) (s : Serving π) (r : Redirect) : Prop :=
  s.app.phase = .running ∧ s.does code (.redirect r.1 r.2) = true

/-- The page that the path routes to, or else the error page. -/
def target (app : WebApp π) (r : Redirect) : Option (Spawn π) :=
  match app.routeTo r.1 r.2 with
  | .ok (_, some page) => some page
  | .ok (_, none) => some .errorPage
  | .error _ => none

/-- `http_handle_request` of the page is called. -/
def Handles (s : Serving π) : Spawn π → Prop
  | .index page n =>
    s.app.phase = .running ∧ s.app.page = some (.index page n) ∧ s.stage = .handleRequest
  | .errorPage => s.app.phase = .sending ∧ s.app.page = some .errorPage

/-- The fields of the request arrive, and the end of its header. -/
def arrival (fields : List (List Byte × List Byte)) : Spawn π → List Label
  | .index .. => .act .parseHeader ::
      fields.flatMap (fun f => [.report (.header f.1 f.2), .act .parseHeader]) ++
      [.report (.final (some .complete))]
  | .errorPage => fields.map (fun f => .report (.header f.1 f.2)) ++ [.report (.final (some .complete))]

/-- The target is spawned, and whatever the fields are, its `http_handle_request` is called; or it
    redirects, and that reaches its target. -/
inductive Reaches (code : π → PageCode) : Serving π → Redirect → Prop
  | handled {s t : Serving π} {r : Redirect} {page : Spawn π} (htarget : target s.app r = some page)
      (hstep : s.step code (.act (.redirect r.1 r.2)) = some t) (hpage : t.app.page = some page)
      (hhandles : ∀ fields, ∃ u, t.exec code (arrival fields page) = some u ∧ u.Handles page) :
      Reaches code s r
  | redirected {s t : Serving π} {r r' : Redirect} {page : π} {n : Nat}
      (htarget : target s.app r = some (.index page n))
      (hstep : s.step code (.act (.redirect r.1 r.2)) = some t)
      (hpage : t.app.page = some (.index page n)) (hcode : (code page).startLine = some r')
      (hreaches : Reaches code t r') : Reaches code s r

/-- The path routes to a page, and if that redirects at once, so does its path. -/
inductive Leads (code : π → PageCode) (root : Node π) : WebRoute → Redirect → Prop
  | page {route route' : WebRoute} {r : Redirect} {page : π} {n : Nat}
      (hroute : route.route root r.1 r.2 = .ok (route', some (page, n)))
      (hcode : (code page).startLine = none) : Leads code root route r
  | redirect {route route' : WebRoute} {r r' : Redirect} {page : π} {n : Nat}
      (hroute : route.route root r.1 r.2 = .ok (route', some (page, n)))
      (hcode : (code page).startLine = some r') (hleads : Leads code root route' r') :
      Leads code root route r

/-- The slot of the pages after a run. -/
def slotAfter (app : WebApp π) (ls : List Label) : PageSlot := (app.pageRun ls).foldl PageSlot.after {}

/-- The page that is awaited is not destroyed. -/
def Live (slot : PageSlot) : Prop := ∀ k, slot.awaited = some k → k ∉ slot.destroyed

/-! ### Where a redirect gets to -/

variable {code : π → PageCode} {s t : Serving π} {l : Label} {ls : List Label} {r : Redirect}
  {root : Node π} {page : π} {n : Nat}

theorem routeTo_index {app : WebApp π} {route : WebRoute} {path : List Byte} {behind : Byte}
    {found : Spawn π} (h : app.routeTo path behind = .ok (route, some found)) :
    ∃ page n, found = .index page n ∧
      app.route.route app.root path behind = .ok (route, some (page, n)) := by
  unfold routeTo at h
  cases hr : app.route.route app.root path behind with
  | error fault => simp [hr, Except.map] at h
  | ok x =>
    obtain ⟨route', found'⟩ := x
    cases found' with
    | none => simp [hr, Except.map] at h
    | some p =>
      obtain ⟨rfl, rfl⟩ := by simpa [hr, Except.map] using h
      exact ⟨p.1, p.2, rfl, rfl⟩

theorem routeTo_of_route {app : WebApp π} {route : WebRoute} {path : List Byte} {behind : Byte}
    (h : app.route.route app.root path behind = .ok (route, some (page, n))) :
    app.routeTo path behind = .ok (route, some (.index page n)) := by
  rw [routeTo, h]
  rfl

/-- The page of a redirect has been spawned. -/
structure Spawned (s t : Serving π) (route : WebRoute) (page : π) (n : Nat) : Prop where
  app : t.app = { s.app with route := route, next := none, page := some (.index page n), slotCount := n,
                             phase := .running, inlined := true, parserPaused := false }
  parser : t.parser = s.parser
  stage : t.stage = .startLine

/-- A redirect to a path that routes. -/
theorem redirect_step (hinv : s.app.Inv) (hr : s.Redirects code r) {route : WebRoute}
    (hroute : s.app.routeTo r.1 r.2 = .ok (route, some (.index page n))) :
    ∃ t, s.step code (.act (.redirect r.1 r.2)) = some t ∧ Spawned s t route page n ∧
      (s.app.spawning (.act (.redirect r.1 r.2))).isSome := by
  obtain ⟨hphase, hdoes⟩ := hr
  obtain ⟨page', n', hpage⟩ := index_of_does hdoes
  have hbuffer := (hinv.held (by rw [hphase]; simp)).pageBuffer
  have hspawn : s.app.spawning (.act (.redirect r.1 r.2)) =
      some { s.app with route := route, next := some (.index page n) } := by
    rw [spawning_redirect hphase hroute]
    obtain ⟨size, hsize⟩ := Option.isSome_iff_exists.mp hbuffer
    simp only [finishSpawning, hpage, hsize]
    rfl
  have hstep : s.app.step (.act (.redirect r.1 r.2)) = some { s.app with
      route := route, next := none, page := some (.index page n), slotCount := n,
      phase := .running, inlined := true, parserPaused := false } := by
    rw [(spawning_spec hspawn).1]
    exact congrArg some (spawnPage_index hbuffer rfl)
  obtain ⟨t, ht, happ, hparser, hstage⟩ :=
    step_of_allows (show s.allows code (.act (.redirect r.1 r.2)) = true from hdoes) hstep
  exact ⟨t, ht, ⟨happ, hparser.trans (if_neg (by simp)), hstage.trans (stageAfter_spawning hspawn)⟩,
    by rw [hspawn]; rfl⟩

/-- A redirect to a path without a page spawns nothing: the error page is only spawned by `pre_route`. -/
theorem redirect_unmatched {route : WebRoute} (hroute : s.app.routeTo r.1 r.2 = .ok (route, none))
    (hstep : s.step code (.act (.redirect r.1 r.2)) = some t) :
    t.app.page = s.app.page ∨ t.app.page = none := by
  have happ := (step_spec hstep).2.1
  rw [(step_act happ).2, act_redirect hroute]
  have hnone : ({ s.app with route := route, next := none } : WebApp π).finishSpawning = none := by
    unfold finishSpawning
    split
    · rfl
    · rfl
  rcases (leaves_finish _ hnone).page with hsame | ⟨hnull, -⟩
  · exact .inl hsame
  · exact .inr hnull

/-- A redirect that has spawned its target. -/
theorem redirect_spec (hinv : s.app.Inv) (hr : s.Redirects code r) {found : Spawn π}
    (htarget : target s.app r = some found) (hstep : s.step code (.act (.redirect r.1 r.2)) = some t)
    (hpage : t.app.page = some found) :
    ∃ page n route, found = .index page n ∧
      s.app.route.route s.app.root r.1 r.2 = .ok (route, some (page, n)) ∧ Spawned s t route page n := by
  unfold target at htarget
  split at htarget
  · rename_i route found' hroute
    obtain rfl := Option.some.inj htarget
    obtain ⟨page, n, rfl, hpages⟩ := routeTo_index hroute
    obtain ⟨t', ht', hspawned, -⟩ := redirect_step hinv hr hroute
    obtain rfl := Option.some.inj (ht'.symm.trans hstep)
    exact ⟨page, n, route, rfl, hpages, hspawned⟩
  · rename_i route hroute
    obtain rfl := Option.some.inj htarget
    obtain ⟨page, n, hindex⟩ := index_of_does hr.2
    rcases redirect_unmatched hroute hstep with hsame | hnull
    · rw [hsame, hindex] at hpage
      cases hpage
    · rw [hnull] at hpage
      cases hpage
  · cases htarget

/-- A page that awaits the parser in its first stage has one that is paused. -/
theorem parser_of_does (hpage : t.app.page = some (.index page n)) (hstage : t.stage = .startLine)
    (h : t.does code .parseHeader = true) : (code page).startLine = none ∧ t.parser ≠ .finished := by
  simp only [does, hpage, hstage] at h
  cases hcode : (code page).startLine with
  | some r => simp [hcode] at h
  | none =>
    refine ⟨rfl, fun hfinished => ?_⟩
    simp only [hcode] at h
    split at h
    · unfold handles at h
      split at h
      · simp at h
      · cases h
    · simp [parseHeader, hfinished] at h

theorem Spawned.redirects {r' : Redirect} {route : WebRoute} (h : Spawned s t route page n)
    (hcode : (code page).startLine = some r') : t.Redirects code r' := by
  refine ⟨by rw [h.app], ?_⟩
  simp [does, h.app, h.stage, hcode]

/-- A redirect that reaches its target was made before the parser was finished, and its path leads to a
    page. -/
theorem Reaches.leads (h : Reaches code s r) (hinv : s.app.Inv) (hr : s.Redirects code r) :
    s.parser ≠ .finished ∧ Leads code s.app.root s.app.route r := by
  induction h with
  | @handled s t r found htarget hstep hpage hhandles =>
    obtain ⟨page, n, route, rfl, hroute, hspawned⟩ := redirect_spec hinv hr htarget hstep hpage
    obtain ⟨u, hu, -⟩ := hhandles []
    obtain ⟨m, hm, -⟩ := Runs.exec_cons.mp hu
    obtain ⟨hcode, hparser⟩ := parser_of_does hpage hspawned.stage (step_spec hm).1
    exact ⟨hspawned.parser ▸ hparser, .page hroute hcode⟩
  | @redirected s t r r' page n htarget hstep hpage hcode hreaches ih =>
    obtain ⟨page', n', route, heq, hroute, hspawned⟩ := redirect_spec hinv hr htarget hstep hpage
    obtain ⟨rfl, rfl⟩ := by simpa using heq
    obtain ⟨hparser, hleads⟩ := ih (hinv.step (step_spec hstep).2.1) (hspawned.redirects hcode)
    rw [hspawned.app] at hleads
    exact ⟨hspawned.parser ▸ hparser, .redirect hroute hcode hleads⟩

/-- The page awaits a parser that is paused. -/
theorem await_step (hpage : s.app.page = some (.index page n)) (hphase : s.app.phase = .running)
    (hparser : s.parser = .paused) (hdoes : s.does code .parseHeader = true) :
    ∃ t, s.step code (.act .parseHeader) = some t ∧ t.app.page = some (.index page n) ∧
      t.app.phase = .reading ∧ t.parser = .paused := by
  have hstep : s.app.step (.act .parseHeader) = some { s.app with phase := .reading, parserPaused := false } :=
    if_pos hphase
  obtain ⟨t, ht, happ, htparser, -⟩ :=
    step_of_allows (show s.allows code (.act .parseHeader) = true from hdoes) hstep
  rw [parserAfter_act (by simp)] at htparser
  refine ⟨t, ht, ?_, by rw [happ], htparser.trans hparser⟩
  rw [happ]
  exact hpage

/-- The page gets a field, and awaits the parser again. -/
theorem field_step (code : π → PageCode) (hpage : s.app.page = some (.index page n))
    (hphase : s.app.phase = .reading) (hparser : s.parser = .paused) (name value : List Byte) :
    ∃ t, s.exec code [.report (.header name value), .act .parseHeader] = some t ∧
      t.app.page = some (.index page n) ∧ t.app.phase = .reading ∧ t.parser = .paused := by
  obtain ⟨c, hheader⟩ := handleParserResult_header hpage name value
  have hstep : s.app.step (.report (.header name value)) =
      some { s.app with connectionState := c, phase := .running, parserPaused := true } := by
    simp only [WebApp.step, hphase]
    rw [hheader]
  have hspawn : s.app.spawning (.report (.header name value)) = none := by
    simp only [spawning, hphase]
  have hallows : s.allows code (.report (.header name value)) = true := by
    rw [allows, hparser]
    rfl
  obtain ⟨m, hm, happ, hmparser, hmstage⟩ := step_of_allows hallows hstep
  have hpaused : m.parser = .paused := hmparser.trans (if_neg (by simp))
  have hfield : m.stage = .headerField := hmstage.trans (if_neg (by rw [hspawn]; simp))
  have hawait : m.parseHeader = .parseHeader := if_neg (by rw [hpaused]; simp)
  have hmpage : m.app.page = some (.index page n) := by
    rw [happ]
    exact hpage
  have hdoes : m.does code .parseHeader = true := by
    simp [does, hmpage, hfield, hawait]
  obtain ⟨t, ht, hkept⟩ := await_step hmpage (by rw [happ]) hpaused hdoes
  exact ⟨t, Runs.exec_cons.mpr ⟨m, hm, Runs.exec_cons.mpr ⟨t, ht, rfl⟩⟩, hkept⟩

/-- The header arrives at a page that awaits the parser. -/
theorem fields_handled (code : π → PageCode) (hpage : s.app.page = some (.index page n))
    (hphase : s.app.phase = .reading) (hparser : s.parser = .paused)
    (fields : List (List Byte × List Byte)) :
    ∃ u, s.exec code (fields.flatMap (fun f => [.report (.header f.1 f.2), .act .parseHeader]) ++
      [.report (.final (some .complete))]) = some u ∧ u.Handles (.index page n) := by
  induction fields generalizing s with
  | nil =>
    have hstep : s.app.step (.report (.final (some .complete))) =
        some { s.app with phase := .running } := by
      simp only [WebApp.step, hphase]
      rw [handleParserResult_complete hpage]
    have hspawn : s.app.spawning (.report (.final (some .complete))) = none := by
      simp only [spawning, hphase]
    have hallows : s.allows code (.report (.final (some .complete))) = true := by
      rw [allows, hparser]
      rfl
    obtain ⟨u, hu, happ, -, hstage⟩ := step_of_allows hallows hstep
    refine ⟨u, Runs.exec_cons.mpr ⟨u, hu, rfl⟩, by rw [happ], ?_, ?_⟩
    · rw [happ]
      exact hpage
    · exact hstage.trans (if_neg (by rw [hspawn]; simp))
  | cons f fields ih =>
    obtain ⟨t, ht, hpage', hphase', hparser'⟩ := field_step code hpage hphase hparser f.1 f.2
    obtain ⟨u, hu, hhandles⟩ := ih hpage' hphase' hparser'
    refine ⟨u, ?_, hhandles⟩
    rw [List.flatMap_cons, List.append_assoc]
    exact Runs.exec_trans ht hu

/-- The target reads the header. -/
theorem Spawned.handled {route : WebRoute} (h : Spawned s t route page n) (hparser : s.parser = .paused)
    (hflag : s.app.flagBrokenStream = false) (hcode : (code page).startLine = none)
    (fields : List (List Byte × List Byte)) :
    ∃ u, t.exec code (arrival fields (.index page n)) = some u ∧ u.Handles (.index page n) := by
  have hpage : t.app.page = some (.index page n) := by rw [h.app]
  have hpaused := h.parser.trans hparser
  have hawait : t.parseHeader = .parseHeader := if_neg (by rw [hpaused]; simp)
  have hdoes : t.does code .parseHeader = true := by
    have hflag' : t.app.flagBrokenStream = false := by rw [h.app, hflag]
    simp [does, hpage, h.stage, hcode, hflag', hawait]
  obtain ⟨m, hm, hpage', hphase', hparser'⟩ := await_step hpage (by rw [h.app]) hpaused hdoes
  obtain ⟨u, hu, hhandles⟩ := fields_handled code hpage' hphase' hparser' fields
  exact ⟨u, Runs.exec_cons.mpr ⟨m, hm, hu⟩, hhandles⟩

/-- A redirect to a path that has a page spawns that. -/
theorem redirect_page (hinv : s.app.Inv) (hr : s.Redirects code r) {route : WebRoute}
    (hroute : s.app.route.route s.app.root r.1 r.2 = .ok (route, some (page, n))) :
    target s.app r = some (.index page n) ∧
      ∃ t, s.step code (.act (.redirect r.1 r.2)) = some t ∧ Spawned s t route page n := by
  have hfound := routeTo_of_route hroute
  obtain ⟨t, ht, hspawned, -⟩ := redirect_step hinv hr hfound
  exact ⟨by rw [target, hfound], t, ht, hspawned⟩

/-- A redirect before the parser is finished reaches its target if its path leads to a page. -/
theorem Leads.reaches {route : WebRoute} (h : Leads code root route r) (hroot : s.app.root = root)
    (hroute : s.app.route = route) (hinv : s.app.Inv) (hr : s.Redirects code r)
    (hparser : s.parser = .paused) (hflag : s.app.flagBrokenStream = false) : Reaches code s r := by
  induction h generalizing s with
  | @page route route' r page n hfound hcode =>
    obtain ⟨htarget, t, ht, hspawned⟩ := redirect_page hinv hr (hroute ▸ hroot ▸ hfound)
    exact .handled htarget ht (by rw [hspawned.app]) (hspawned.handled hparser hflag hcode)
  | @redirect route route' r r' page n hfound hcode hleads ih =>
    obtain ⟨htarget, t, ht, hspawned⟩ := redirect_page hinv hr (hroute ▸ hroot ▸ hfound)
    refine .redirected htarget ht (by rw [hspawned.app]) hcode ?_
    have happ := hspawned.app
    exact ih (by rw [happ, hroot]) (by rw [happ]) (hinv.step (step_spec ht).2.1)
      (hspawned.redirects hcode) (hspawned.parser.trans hparser) (by rw [happ, hflag])

theorem errorCode_handleRequest (app : WebApp π) : app.handleRequest.errorCode = app.errorCode := by
  unfold handleRequest
  split
  · rfl
  · unfold sendResponse
    split
    · rfl
    · rfl
    · rfl

theorem errorCode_spawnPage {a : WebApp π} (hbuffer : a.bufferPage.isSome)
    (hnext : a.next = some .errorPage) : a.spawnPage.errorCode = a.errorCode := by
  obtain ⟨size, hsize⟩ := Option.isSome_iff_exists.mp hbuffer
  simp only [WebApp.spawnPage, hsize, hnext]
  split
  · exact errorCode_handleRequest _
  · rfl

/-- After the header has been read the target raises an error as soon as it awaits the parser, and the
    request is answered by the error page. -/
theorem Spawned.refused {route : WebRoute} (h : Spawned s t route page n) (hinv : t.app.Inv)
    (hparser : s.parser = .finished) (hflag : s.app.flagBrokenStream = false)
    (hcode : (code page).startLine = none) :
    ∃ u, t.exec code [.act (.throw (makeError .uninitialized)), .handle] = some u ∧
      u.app.page = some .errorPage ∧ u.app.errorCode = 500 := by
  have hpage : t.app.page = some (.index page n) := by rw [h.app]
  have hflag' : t.app.flagBrokenStream = false := by rw [h.app, hflag]
  have hphase : t.app.phase = .running := by rw [h.app]
  have hawait : t.parseHeader = .throw (makeError .uninitialized) := if_pos (h.parser.trans hparser)
  have hdoes : t.does code (.throw (makeError .uninitialized)) = true := by
    simp [does, hpage, h.stage, hcode, hflag', hawait]
  have hbuffer := (hinv.held (by rw [hphase]; simp)).pageBuffer
  obtain ⟨m, hm, happ, -, -⟩ := step_of_allows
    (show t.allows code (.act (.throw (makeError .uninitialized))) = true from hdoes) (if_pos hphase)
  have happ' : m.app = { t.app with phase := .raised (makeError .uninitialized) } := happ
  have hdirect : m.app.bypassed = false := by
    rw [happ', h.app]
    rfl
  have hhandle : m.app.step .handle = some (m.app.handleError (makeError .uninitialized)) := by
    rw [← receiveError_of_direct hdirect, happ']
    rfl
  have hstatus : m.app.handleError (makeError .uninitialized) = m.app.sendErrorPage 500 := by
    unfold handleError
    rw [if_neg (by decide), if_neg (by decide)]
  have hspawn : m.app.sendErrorPage 500 =
      { m.app with flagBrokenStream := true, errorCode := 500, next := some .errorPage }.spawnPage := by
    have hmflag : m.app.flagBrokenStream = false := by rw [happ', hflag']
    rw [sendErrorPage, hmflag]
    rfl
  have hmbuffer : m.app.bufferPage.isSome := by
    rw [happ']
    exact hbuffer
  obtain ⟨u, hu, huapp, -, -⟩ := step_of_allows (show m.allows code .handle = true from rfl) hhandle
  refine ⟨u, Runs.exec_cons.mpr ⟨m, hm, Runs.exec_cons.mpr ⟨u, hu, rfl⟩⟩, ?_, ?_⟩
  · rw [huapp, hstatus, hspawn]
    exact spawnPage_errorPage hmbuffer rfl
  · rw [huapp, hstatus, hspawn]
    exact errorCode_spawnPage hmbuffer rfl

/-! ### Lifetimes -/

theorem owner_finishedIf (slot : PageSlot) (b : Bool) :
    ((if b then [.finished] else []).foldl PageSlot.after slot).owner = slot.owner := by
  cases b <;> rfl

/-- `_page` is null in the slot if it is null in the connection. -/
theorem owner_step {app t : WebApp π} {slot : PageSlot} (hinv : app.Inv) (ht : app.step l = some t)
    (howner : slot.owner = app.page.isSome) (hexited : t.phase ≠ .exited) :
    ((app.pageOps l t).foldl PageSlot.after slot).owner = t.page.isSome := by
  unfold pageOps
  cases hspawn : app.spawning l with
  | some a =>
    obtain ⟨hstep, hfound⟩ := spawning_spec hspawn
    obtain rfl := Option.some.inj (hstep.symm.trans ht)
    have hbuffer := (hinv.held (phase_of_step ht).1).pageBuffer
    have hset := page_spawnPage (hfound.bufferPage ▸ hbuffer) hfound.next
    dsimp only
    rw [List.foldl_append, List.foldl_cons, hset]
    cases a.spawnPage.phase.inPage <;> rfl
  | none =>
    dsimp only
    rw [List.foldl_append]
    generalize hslot : (if app.phase.inPage && !t.phase.inPage then [PageOp.finished] else []).foldl
      PageSlot.after slot = slot'
    have howner' : slot'.owner = app.page.isSome := by
      rw [← hslot, owner_finishedIf, howner]
    split
    · rename_i hreset
      have hnull : t.page.isSome = false := by
        rcases hpage : t.page with _ | _
        · rfl
        · simp [hpage, hexited] at hreset
      rw [hnull]
      rfl
    · rename_i hkept
      rcases stays_step ht hspawn with hsame | ⟨hnull, -⟩
      · rw [List.foldl_nil, howner', hsame]
      · rw [List.foldl_nil, howner', hnull]
        simpa [hnull, hexited] using hkept

theorem owner_run {app t : WebApp π} (slot : PageSlot) (hrun : WebApp.exec app ls = some t)
    (hinv : app.Inv) (howner : slot.owner = app.page.isSome) (hexited : t.phase ≠ .exited) :
    ((app.pageRun ls).foldl PageSlot.after slot).owner = t.page.isSome := by
  induction ls generalizing app slot with
  | nil =>
    obtain rfl : app = t := by simpa using hrun
    exact howner
  | cons l ls ih =>
    obtain ⟨m, hm, hmt⟩ := Runs.exec_cons.mp hrun
    rw [pageRun_cons hm ls, List.foldl_append]
    refine ih _ hmt (hinv.step hm) (owner_step hinv hm howner ?_)
    intro hphase
    cases ls with
    | nil =>
      obtain rfl : m = t := by simpa using hmt
      exact hexited hphase
    | cons l' ls =>
      obtain ⟨m', hm', -⟩ := Runs.exec_cons.mp hmt
      exact (phase_of_step hm').2 hphase

theorem pageRun_concat {app t : WebApp π} (hrun : WebApp.exec app ls = some t) (l : Label) :
    app.pageRun (ls ++ [l]) = app.pageRun ls ++ t.pageRun [l] := by
  induction ls generalizing app with
  | nil =>
    obtain rfl : app = t := by simpa using hrun
    rfl
  | cons l' ls ih =>
    obtain ⟨m, hm, hmt⟩ := Runs.exec_cons.mp hrun
    rw [List.cons_append, pageRun_cons hm, pageRun_cons hm, ih hmt, List.append_assoc]

/-- The page that a redirect spawns is destroyed before it is awaited. -/
theorem not_live_redirect {app : WebApp π} (happ : app.Inv) (hpage : app.page = none)
    (hrun : WebApp.exec app ls = some s.app) (hr : s.Redirects code r) {route : WebRoute}
    (hroute : s.app.routeTo r.1 r.2 = .ok (route, some (.index page n))) (hinv : s.app.Inv) :
    ¬ Live (slotAfter app (ls ++ [.act (.redirect r.1 r.2)])) := by
  obtain ⟨t, ht, hspawned, hspawns⟩ := redirect_step hinv hr hroute
  obtain ⟨a, hspawn⟩ := Option.isSome_iff_exists.mp hspawns
  obtain ⟨page', n', hindex⟩ := index_of_does hr.2
  have howner := owner_run {} hrun happ (by rw [hpage]; rfl) (by rw [hr.1]; simp)
  rw [hindex] at howner
  have hops : s.app.pageRun [.act (.redirect r.1 r.2)] = [.finished, .spawn] := by
    have hin : t.app.phase.inPage = true := by
      rw [hspawned.app]
      rfl
    simp only [pageRun, (step_spec ht).2.1, pageOps, hspawn, hr.1, hin]
    rfl
  intro hlive
  rw [slotAfter, pageRun_concat hrun, hops, List.foldl_append] at hlive
  generalize (app.pageRun ls).foldl PageSlot.after {} = slot at *
  refine hlive slot.constructed rfl ?_
  have hassign : ([PageOp.finished, .spawn].foldl PageSlot.after slot).destroyed =
      slot.constructed :: slot.destroyed := by
    simp [PageSlot.after, PageSlot.assign, howner]
  rw [hassign]
  exact List.mem_cons_self

/-- REDIRECTS: a page that is spawned by a redirect is destroyed before it is awaited. Apart from that a
    redirect reaches its target if and only if it is made before the header is read, and its path leads
    to a page. -/
theorem redirect_reaches_iff (code : π → PageCode) (root : Node π) (request response page : Nat)
    (ls : List Label) (r : Redirect) (hrun : (start root request response page).exec code ls = some s)
    (hr : s.Redirects code r) :
    ¬ (Reaches code s r ∧
        Live (slotAfter (.start root request response page) (ls ++ [.act (.redirect r.1 r.2)]))) ∧
      (Reaches code s r ↔ s.parser = .paused ∧ Leads code s.app.root s.app.route r) := by
  obtain ⟨hstaged, hinv⟩ := staged_run hrun
  obtain ⟨page', n, hpage⟩ := index_of_does hr.2
  have huser := hstaged.user page' n hpage (by rw [hr.1]; rfl)
  constructor
  · rintro ⟨hreaches, hlive⟩
    obtain ⟨-, hleads⟩ := hreaches.leads hinv hr
    cases hleads with
    | page hroute hcode | redirect hroute hcode hleads =>
      exact not_live_redirect (inv_start root request response page) rfl (exec_app hrun) hr
        (routeTo_of_route hroute) hinv hlive
  · constructor
    · intro hreaches
      obtain ⟨hparser, hleads⟩ := hreaches.leads hinv hr
      rcases huser with hfinished | ⟨hpaused, -⟩
      · exact absurd hfinished hparser
      · exact ⟨hpaused, hleads⟩
    · rintro ⟨hpaused, hleads⟩
      rcases huser with hfinished | ⟨-, -, hflag, -⟩
      · rw [hfinished] at hpaused
        cases hpaused
      · exact hleads.reaches rfl rfl hinv hr hpaused hflag

/-- A tree with one page below the root. -/
def twoPages : Node Nat := .mk [] 0 [.mk (ascii "a") 1 []]

/-- The page of the root redirects from `http_start_line`. -/
def rootRedirects (path : List Byte) (page : Nat) : PageCode :=
  { startLine := if page = 0 then some (path, 0) else none }

theorem redirect_reaches_child : ∃ s,
    (start twoPages 64 512 64).exec (rootRedirects (ascii "/a")) [getOnePage] = some s ∧
    ¬ (Reaches (rootRedirects (ascii "/a")) s (ascii "/a", 0) ∧ Live (slotAfter
        (.start twoPages 64 512 64) ([getOnePage] ++ [.act (.redirect (ascii "/a") 0)]))) ∧
      (Reaches (rootRedirects (ascii "/a")) s (ascii "/a", 0) ↔
        s.parser = .paused ∧ Leads (rootRedirects (ascii "/a")) s.app.root s.app.route (ascii "/a", 0)) :=
  ⟨_, rfl, redirect_reaches_iff (rootRedirects (ascii "/a")) twoPages 64 512 64 [getOnePage]
    (ascii "/a", 0) rfl ⟨rfl, rfl⟩⟩

/-- The path has no page: the connection is shut down, and the request is not answered. -/
theorem redirect_unanswered : ∃ s t : Serving Nat,
    (start (.mk [] 0 []) 64 512 64).exec (rootRedirects (ascii "/x")) [getOnePage] = some s ∧
    s.Redirects (rootRedirects (ascii "/x")) (ascii "/x", 0) ∧
    s.step (rootRedirects (ascii "/x")) (.act (.redirect (ascii "/x") 0)) = some t ∧
    t.app.phase = .shutdown ∧ t.app.sent = [] ∧
    ¬ Reaches (rootRedirects (ascii "/x")) s (ascii "/x", 0) := by
  refine ⟨_, _, rfl, ⟨rfl, rfl⟩, rfl, rfl, rfl, fun hreaches => ?_⟩
  have hrun : (start (.mk [] 0 []) 64 512 64).exec (rootRedirects (ascii "/x")) [getOnePage] =
    some _ := rfl
  obtain ⟨-, hleads⟩ := hreaches.leads (staged_run hrun).2 ⟨rfl, rfl⟩
  cases hleads with
  | page hroute hcode => cases hroute
  | redirect hroute hcode hleads => cases hroute

end Serving

end Jinx.Http
