import Jinx.Http.Connection

/-! The lifetimes of the pages of a connection.

    All pages of a connection are constructed in the memory of the page buffer, one after the other, and
    `_page` points to it. `_page.reset(_spawn_page(..))` constructs the new page before the destructor
    runs on what `_page` points to, which is the new page by then. `spawning` says in which steps of a
    connection a page is spawned; `pageOps` is what the step does to the slot. -/

namespace Jinx.Http

/-! ### The slot -/

/-- The page buffer as one slot, and `_page`. The pages are numbered in the order in which they are
    constructed, so the last one is in the slot. -/
structure PageSlot where
  constructed : Nat := 0
  /-- `_page` is not null -/
  owner : Bool := false
  /-- the pages whose destructors have run, the last one first -/
  destroyed : List Nat := []
  /-- the page whose await has not finished -/
  awaited : Option Nat := none
  deriving DecidableEq, Repr

inductive PageOp where
  /-- `_page.reset(_spawn_page(view, this))`, then the page is awaited -/
  | spawn
  /-- the page has returned or raised an error -/
  | finished
  /-- `_page.reset()` -/
  | reset
  deriving DecidableEq, Repr

namespace PageSlot

/-- `PointerAutoDestructor::reset`: the destructor runs on what the slot holds now. -/
def assign (s : PageSlot) (owner : Bool) : PageSlot :=
  { s with owner := owner,
           destroyed := if s.owner then (s.constructed - 1) :: s.destroyed else s.destroyed }

def after (s : PageSlot) : PageOp → PageSlot
  | .spawn =>
    -- the argument of `reset` is evaluated first
    let s := { s with constructed := s.constructed + 1 }.assign true
    { s with awaited := some (s.constructed - 1) }
  | .finished => { s with awaited := none }
  | .reset => s.assign false

def step (s : PageSlot) (op : PageOp) : Option PageSlot := some (s.after op)

/-- The lifetimes are right so far: what was destroyed was constructed and is destroyed once; the page that
    is awaited is there; each page that is not destroyed will be, since `_page` points to it. -/
structure Sound (s : PageSlot) : Prop where
  once : s.destroyed.Nodup
  built : ∀ k ∈ s.destroyed, k < s.constructed
  alive : ∀ k, s.awaited = some k → k < s.constructed ∧ k ∉ s.destroyed
  kept : ∀ k < s.constructed, k ∉ s.destroyed → s.owner = true ∧ k + 1 = s.constructed

/-- What `_page` points to is not destroyed. -/
structure Inv (s : PageSlot) : Prop where
  sound : s.Sound
  owned : s.owner = true → 0 < s.constructed ∧ s.constructed - 1 ∉ s.destroyed

variable {s : PageSlot}

theorem inv_init : Inv {} :=
  ⟨⟨List.nodup_nil, by simp, by simp, by simp⟩, by simp⟩

theorem Inv.finished (h : s.Inv) : (s.after .finished).Inv :=
  ⟨⟨h.sound.once, h.sound.built, by simp [after], h.sound.kept⟩, h.owned⟩

/-- A page that nobody awaits is destroyed. -/
theorem Inv.reset (h : s.Inv) (hawaited : s.awaited = none) : (s.after .reset).Inv := by
  rcases howner : s.owner with _ | _
  · have heq : s.after .reset = { s with owner := false } := by simp [after, assign, howner]
    rw [heq]
    refine ⟨⟨h.sound.once, h.sound.built, h.sound.alive, fun k hk hno => ?_⟩, by simp⟩
    have hown := (h.sound.kept k hk hno).1
    simp [howner] at hown
  · obtain ⟨hpos, hno⟩ := h.owned howner
    have heq : s.after .reset =
        { s with owner := false, destroyed := (s.constructed - 1) :: s.destroyed } := by
      simp [after, assign, howner]
    rw [heq]
    refine ⟨⟨List.nodup_cons.mpr ⟨hno, h.sound.once⟩, ?_, ?_, ?_⟩, by simp⟩
    · intro k hk
      rcases List.mem_cons.mp hk with rfl | hk
      · exact Nat.sub_lt hpos Nat.one_pos
      · exact h.sound.built k hk
    · intro k hk
      simp [hawaited] at hk
    · intro k hk hk'
      rw [List.mem_cons, not_or] at hk'
      have hlast := (h.sound.kept k hk hk'.2).2
      omega

/-- Where `_page` is null, the new page is the only one that is there. -/
theorem Inv.spawn (h : s.Inv) (howner : s.owner = false) : (s.after .spawn).Inv := by
  have heq : s.after .spawn =
      { s with constructed := s.constructed + 1, owner := true, awaited := some s.constructed } := by
    simp [after, assign, howner]
  have hnew : s.constructed ∉ s.destroyed := fun hmem => Nat.lt_irrefl _ (h.sound.built _ hmem)
  rw [heq]
  refine ⟨⟨h.sound.once, fun k hk => Nat.lt_succ_of_lt (h.sound.built k hk), ?_, ?_⟩,
    fun _ => ⟨Nat.succ_pos _, hnew⟩⟩
  · intro k hk
    obtain rfl := Option.some.inj hk
    exact ⟨Nat.lt_succ_self _, hnew⟩
  · intro k hk hno
    rcases Nat.lt_succ_iff_lt_or_eq.mp hk with hlt | rfl
    · have hown := (h.sound.kept k hlt hno).1
      simp [howner] at hown
    · exact ⟨rfl, rfl⟩

/-- Where it is not, the new page is destroyed before it is awaited. -/
theorem not_sound_spawn (howner : s.owner = true) : ¬ (s.after .spawn).Sound := by
  intro hsound
  have heq : s.after .spawn =
      { s with constructed := s.constructed + 1, owner := true, awaited := some s.constructed,
               destroyed := s.constructed :: s.destroyed } := by
    simp [after, assign, howner]
  rw [heq] at hsound
  exact (hsound.alive s.constructed rfl).2 List.mem_cons_self

/-- A page that may be awaited is finished. -/
theorem Inv.finishedIf (h : s.Inv) (b : Bool) :
    ∃ s', Runs.exec step s (if b then [.finished] else []) = some s' ∧
      Runs.Always step Sound s (if b then [.finished] else []) ∧ s'.Inv ∧ s'.owner = s.owner ∧
      s'.awaited = if b then none else s.awaited := by
  cases b with
  | false => exact ⟨s, rfl, h.sound, h, rfl, rfl⟩
  | true =>
    refine ⟨s.after .finished, rfl, ⟨h.sound, fun t ht => ?_⟩, h.finished, rfl, rfl⟩
    obtain rfl := Option.some.inj ht
    exact h.finished.sound

/-- `_page` may be reset when no page is awaited. -/
theorem Inv.resetIf (h : s.Inv) (b : Bool) (hawaited : b = true → s.awaited = none) :
    ∃ s', Runs.exec step s (if b then [.reset] else []) = some s' ∧
      Runs.Always step Sound s (if b then [.reset] else []) ∧ s'.Inv ∧ s'.owner = (s.owner && !b) ∧
      s'.awaited = s.awaited := by
  cases b with
  | false => exact ⟨s, rfl, h.sound, h, by simp, rfl⟩
  | true =>
    have hreset := h.reset (hawaited rfl)
    refine ⟨s.after .reset, rfl, ⟨h.sound, fun t ht => ?_⟩, hreset, by simp [after, assign], rfl⟩
    obtain rfl := Option.some.inj ht
    exact hreset.sound

end PageSlot

/-! ### The connection -/

/-- A page is awaited. -/
def AppPhase.inPage : AppPhase → Bool
  | .running | .reading | .sending | .writing _ => true
  | _ => false

namespace WebApp

variable {π : Type*} {app t a : WebApp π} {l : Label}

/-- The state in which `send_error_page` calls `spawn_page`. -/
def errorPageSpawning (app : WebApp π) (code : Nat) : Option (WebApp π) :=
  if app.flagBrokenStream then none
  else some { app with flagBrokenStream := true, errorCode := code, next := some .errorPage }

/-- The state in which `finish` calls it. -/
def finishSpawning (app : WebApp π) : Option (WebApp π) :=
  match app.page, app.bufferPage with
  | some _, some _ => if app.next.isSome then some app else none
  | _, _ => none

/-- The state in which `pre_route` calls it. -/
def preRouteSpawning (app : WebApp π) (r : Report) : Option (WebApp π) :=
  let app := { app with flagBrokenStream := false }
  match r with
  | .startLine _ path _ =>
    match app.routeTo path SP with
    | .error _ => none
    | .ok (route, page) =>
      let app := { app with route := route.freeze, slots := route.slots, queryString := route.queryString }
      match page with
      | some page => some { app with next := some page }
      | none => some { app with errorCode := 404, next := some .errorPage }
  | _ => app.errorPageSpawning 400

/-- The state in which `handle_error` calls it. -/
def handleErrorSpawning (app : WebApp π) (e : Error) : Option (WebApp π) :=
  if e.category = categoryWebapp ∧
      (e.value = ErrorWebApp.toInt .noError ∨ e.value = ErrorWebApp.toInt .outOfMemory) then none
  else if e.category = .http ∧ 400 ≤ e.value then app.errorPageSpawning e.value.toNat
  else app.errorPageSpawning 500

/-- The state in which the step calls `spawn_page`, if it does. -/
def spawning (app : WebApp π) : Label → Option (WebApp π)
  | .report r =>
    match app.phase with
    | .parsing => app.preRouteSpawning r
    | _ => none
  | .act (.redirect path behind) =>
    match app.phase, app.routeTo path behind with
    | .running, .ok (route, page) => { app with route := route, next := page }.finishSpawning
    | _, _ => none
  | .act .ret =>
    match app.phase with
    | .running => app.finishSpawning
    | _ => none
  | .streamDone =>
    match app.phase with
    | .writing body => { app with sent := app.sent ++ body }.finishSpawning
    | _ => none
  | .handle =>
    match app.phase with
    | .raised e => if app.bypassed then none else app.handleErrorSpawning e
    | _ => none
  | _ => none

/-- What the step does to the slot. A page that is awaited is finished before another one is spawned; the
    error page may raise an error before its first await. `finish` resets the connection to keep it alive,
    and `async_finalize` resets it at the end. -/
def pageOps (app : WebApp π) (l : Label) (t : WebApp π) : List PageOp :=
  match app.spawning l with
  | some _ =>
    (if app.phase.inPage then [.finished] else []) ++ .spawn :: if t.phase.inPage then [] else [.finished]
  | none =>
    (if app.phase.inPage && !t.phase.inPage then [.finished] else []) ++
      if (app.page.isSome && t.page.isNone) || t.phase = .exited then [.reset] else []

/-- What a run does to the slot. -/
def pageRun (app : WebApp π) : List Label → List PageOp
  | [] => []
  | l :: ls =>
    match app.step l with
    | none => []
    | some t => app.pageOps l t ++ t.pageRun ls

/-- What `spawn_page` finds, compared with the state before the step. -/
structure Spawning (app a : WebApp π) : Prop where
  page : a.page = app.page
  bufferPage : a.bufferPage = app.bufferPage
  next : a.next.isSome

theorem errorPageSpawning_spec {code : Nat} (h : app.errorPageSpawning code = some a) :
    app.sendErrorPage code = a.spawnPage ∧ Spawning app a := by
  unfold errorPageSpawning at h
  split at h
  · simp at h
  · obtain rfl := Option.some.inj h
    exact ⟨if_neg ‹_›, rfl, rfl, rfl⟩

theorem finishSpawning_spec (h : app.finishSpawning = some a) :
    app.finish = a.spawnPage ∧ Spawning app a := by
  unfold finishSpawning at h
  split at h
  · rename_i hpage hbuffer
    split at h
    · rename_i hnext
      obtain rfl := Option.some.inj h
      refine ⟨?_, rfl, rfl, hnext⟩
      simp [finish, hpage, hbuffer, hnext]
    · simp at h
  · simp at h

theorem preRouteSpawning_spec {r : Report} (h : app.preRouteSpawning r = some a) :
    app.preRoute r = a.spawnPage ∧ Spawning app a := by
  cases r with
  | startLine first path third =>
    simp only [preRouteSpawning] at h
    simp only [preRoute]
    cases hroute : ({ app with flagBrokenStream := false } : WebApp π).routeTo path SP with
    | error fault => simp [hroute] at h
    | ok found =>
      obtain ⟨route, page⟩ := found
      simp only [hroute] at h ⊢
      cases page with
      | some page | none =>
        obtain rfl := Option.some.inj h
        exact ⟨rfl, rfl, rfl, rfl⟩
  | header | final =>
    obtain ⟨heq, hspawn⟩ := errorPageSpawning_spec h
    exact ⟨heq, hspawn.page, hspawn.bufferPage, hspawn.next⟩

theorem handleErrorSpawning_spec {e : Error} (h : app.handleErrorSpawning e = some a) :
    app.handleError e = a.spawnPage ∧ Spawning app a := by
  unfold handleErrorSpawning at h
  unfold handleError
  split at h
  · simp at h
  · rw [if_neg ‹_›]
    split at h
    · rw [if_pos ‹_›]
      exact errorPageSpawning_spec h
    · rw [if_neg ‹_›]
      exact errorPageSpawning_spec h

/-- The step does what `spawning` says. -/
theorem spawning_spec (h : app.spawning l = some a) :
    app.step l = some a.spawnPage ∧ Spawning app a := by
  unfold spawning at h
  split at h
  · split at h
    · obtain ⟨heq, hspawn⟩ := preRouteSpawning_spec h
      exact ⟨by simp [step, *], hspawn⟩
    · simp at h
  · split at h
    · rename_i hphase hroute
      obtain ⟨heq, hspawn⟩ := finishSpawning_spec h
      refine ⟨?_, hspawn.page, hspawn.bufferPage, hspawn.next⟩
      simp only [hphase] at heq
      simp [step, act, hphase, hroute, heq]
    · simp at h
  · split at h
    · obtain ⟨heq, hspawn⟩ := finishSpawning_spec h
      exact ⟨by simp [step, act, *], hspawn⟩
    · simp at h
  · split at h
    · rename_i hphase
      obtain ⟨heq, hspawn⟩ := finishSpawning_spec h
      refine ⟨?_, hspawn.page, hspawn.bufferPage, hspawn.next⟩
      simp only [hphase] at heq
      simp [step, streamDone, hphase, heq]
    · simp at h
  · split at h
    · rename_i e hphase
      obtain ⟨hdirect, h⟩ := Option.ite_none_left_eq_some.mp h
      obtain ⟨heq, hspawn⟩ := handleErrorSpawning_spec h
      exact ⟨by simp [step, hphase, receiveError, hdirect, heq], hspawn⟩
    · simp at h
  · simp at h

theorem page_sendResponse (app : WebApp π) : app.sendResponse.page = app.page := by
  unfold sendResponse
  split <;> rfl

theorem page_handleRequest (app : WebApp π) : app.handleRequest.page = app.page := by
  unfold handleRequest
  split
  · rfl
  · exact page_sendResponse _

/-- `_page` is set when `spawn_page` has constructed a page. -/
theorem page_spawnPage (hbuffer : a.bufferPage.isSome) (hnext : a.next.isSome) :
    a.spawnPage.page.isSome := by
  unfold spawnPage
  split
  · rfl
  · dsimp only
    split
    · rw [page_handleRequest]
      rfl
    · rfl
  · rename_i hindex herror
    obtain ⟨size, hsize⟩ := Option.isSome_iff_exists.mp hbuffer
    obtain ⟨page, hpage⟩ := Option.isSome_iff_exists.mp hnext
    cases page with
    | index page slotCount => exact (hindex size page slotCount hsize hpage).elim
    | errorPage => exact (herror size hsize hpage).elim

/-- `_page` stays, or the connection was reset, after which `init` has no buffer. -/
def PageStays (app t : WebApp π) : Prop := t.page = app.page ∨ t.page = none ∧ t.phase = .failed

/-- Nothing is spawned, and no page is awaited any more. -/
structure Leaves (app t : WebApp π) : Prop where
  page : PageStays app t
  phase : t.phase.inPage = false

theorem leaves_sendErrorPage {code : Nat} (h : app.errorPageSpawning code = none) :
    Leaves app (app.sendErrorPage code) := by
  unfold errorPageSpawning at h
  split at h
  · rw [sendErrorPage, if_pos ‹_›]
    exact ⟨.inl rfl, rfl⟩
  · simp at h

theorem leaves_finish (app : WebApp π) (h : app.finishSpawning = none) : Leaves app app.finish := by
  unfold finishSpawning at h
  unfold finish
  split
  · rename_i hpage hbuffer
    simp only [hpage, hbuffer] at h
    split
    · simp_all
    · split
      · exact ⟨.inr ⟨rfl, rfl⟩, rfl⟩
      · exact ⟨.inl rfl, rfl⟩
  · exact ⟨.inl rfl, rfl⟩

theorem leaves_preRoute {r : Report} (h : app.preRouteSpawning r = none) :
    Leaves app (app.preRoute r) := by
  cases r with
  | startLine first path third =>
    simp only [preRouteSpawning] at h
    simp only [preRoute]
    cases hroute : ({ app with flagBrokenStream := false } : WebApp π).routeTo path SP with
    | error fault => exact ⟨.inl rfl, rfl⟩
    | ok found =>
      obtain ⟨route, page⟩ := found
      simp only [hroute] at h
      cases page with
      | some page | none => simp at h
  | header | final =>
    obtain ⟨hpage, hphase⟩ := leaves_sendErrorPage h
    exact ⟨hpage, hphase⟩

theorem leaves_handleError {e : Error} (h : app.handleErrorSpawning e = none) :
    Leaves app (app.handleError e) := by
  unfold handleErrorSpawning at h
  unfold handleError
  split
  · exact ⟨.inl rfl, rfl⟩
  · rw [if_neg ‹_›] at h
    split
    · rw [if_pos ‹_›] at h
      exact leaves_sendErrorPage h
    · rw [if_neg ‹_›] at h
      exact leaves_sendErrorPage h

/-- After `reset` there is no page, and no buffer to construct one in. -/
theorem page_handleError_reset (app : WebApp π) (e : Error) : (app.reset.handleError e).page = none := by
  have hpage : ∀ code, (app.reset.sendErrorPage code).page = none := by
    intro code
    unfold sendErrorPage
    split <;> rfl
  unfold handleError
  split
  · rfl
  · split
    · exact hpage _
    · exact hpage _

theorem leaves_receiveError {e : Error} (hphase : app.phase = .raised e)
    (h : app.spawning .handle = none) : Leaves app (app.receiveError e) := by
  simp only [spawning, hphase] at h
  unfold receiveError
  split
  · exact ⟨.inr ⟨page_handleError_reset app e, rfl⟩, rfl⟩
  · rename_i hdirect
    rw [if_neg hdirect] at h
    exact leaves_handleError h

theorem page_handleParserResult (app : WebApp π) (r : Report) :
    (app.handleParserResult r).page = app.page := by
  unfold handleParserResult
  split
  · dsimp only
    split <;> split <;> rfl
  · split
    · exact page_handleRequest _
    · rfl
  · rfl
  · rfl
  · rfl
  · rfl

theorem stays_act {x : PageAction} (hphase : app.phase = .running) (h : app.spawning (.act x) = none) :
    PageStays app (app.act x) := by
  cases x with
  | parseHeader => exact .inl rfl
  | writeResponseLine status text =>
    simp only [act]
    split <;> exact .inl rfl
  | writeResponseField name value =>
    simp only [act]
    split <;> exact .inl rfl
  | sendResponse => exact .inl (page_sendResponse app)
  | redirect path behind =>
    simp only [spawning, hphase] at h
    simp only [act]
    split
    · exact .inl rfl
    · rename_i heq
      simp only [heq] at h
      have hnone := leaves_finish { app with route := _, next := _ } (by simpa [hphase] using h)
      exact hnone.page
  | ret =>
    simp only [spawning, hphase] at h
    exact (leaves_finish app h).page
  | throw e => exact .inl rfl

theorem page_streamFails (app : WebApp π) (n : Nat) (e : Error) :
    (app.streamFails n e).page = app.page := by
  unfold streamFails
  split
  · split <;> rfl
  · rfl
  · rfl
  · rfl
  · rfl
  · rfl

theorem stays_streamDone (hphase : app.phase = .sending ∨ (∃ body, app.phase = .writing body) ∨
    app.phase = .shutdown) (h : app.spawning .streamDone = none) : PageStays app app.streamDone := by
  rcases hphase with hphase | ⟨body, hphase⟩ | hphase
  · refine .inl ?_
    simp only [streamDone, hphase]
    split
    · rfl
    · split <;> rfl
  · simp only [spawning, hphase] at h
    simp only [streamDone, hphase]
    have hnone := leaves_finish { app with sent := _ } (by simpa [hphase] using h)
    exact hnone.page
  · refine .inl ?_
    simp [streamDone, hphase]

theorem stays_step (ht : app.step l = some t) (h : app.spawning l = none) : PageStays app t := by
  cases l with
  | report r =>
    rcases step_report ht with ⟨hphase, rfl⟩ | ⟨-, rfl⟩
    · simp only [spawning, hphase] at h
      exact (leaves_preRoute h).page
    · exact .inl (page_handleParserResult app r)
  | act x =>
    obtain ⟨hphase, rfl⟩ := step_act ht
    exact stays_act hphase h
  | streamDone =>
    obtain ⟨hphase, rfl⟩ := step_streamDone ht
    exact stays_streamDone hphase h
  | streamFails n e =>
    obtain ⟨-, rfl⟩ := step_streamFails ht
    exact .inl (page_streamFails app n e)
  | handle =>
    obtain ⟨e, hphase, rfl⟩ := step_handle ht
    exact (leaves_receiveError hphase h).page
  | suspend =>
    obtain ⟨-, rfl⟩ := step_suspend ht
    exact .inl rfl

/-! ### Runs -/

/-- How a slot goes with a connection. -/
structure Linked (app : WebApp π) (s : PageSlot) : Prop where
  inv : s.Inv
  owner : app.phase ≠ .exited → s.owner = app.page.isSome
  awaited : app.phase.inPage = false → s.awaited = none

/-- In a step that spawns no page. -/
theorem Linked.quiet {s : PageSlot} (h : Linked app s) (ht : app.step l = some t)
    (hnone : app.spawning l = none) :
    ∃ s', Runs.exec PageSlot.step s (app.pageOps l t) = some s' ∧
      Runs.Always PageSlot.step PageSlot.Sound s (app.pageOps l t) ∧ Linked t s' := by
  have hexited : app.phase ≠ .exited := by
    intro hphase
    cases l <;> simp [step, hphase, AppPhase.waits] at ht
  have hstays := stays_step ht hnone
  -- a page that is reset is not awaited any more
  have hout : ((app.page.isSome && t.page.isNone) || t.phase = .exited) = true → t.phase.inPage = false := by
    intro hreset
    rcases Bool.or_eq_true_iff.mp hreset with hreset | hphase
    · rcases hstays with hpage | ⟨-, hphase⟩
      · rw [hpage] at hreset
        cases hp : app.page <;> simp [hp] at hreset
      · simp [hphase, AppPhase.inPage]
    · simp [of_decide_eq_true hphase, AppPhase.inPage]
  obtain ⟨s₁, hexec₁, halways₁, hinv₁, howner₁, hawaited₁⟩ :=
    h.inv.finishedIf (app.phase.inPage && !t.phase.inPage)
  have hnone₁ : t.phase.inPage = false → s₁.awaited = none := by
    intro hin
    rw [hawaited₁, hin]
    rcases hp : app.phase.inPage with _ | _
    · exact h.awaited hp
    · rfl
  obtain ⟨s₂, hexec₂, halways₂, hinv₂, howner₂, hawaited₂⟩ :=
    hinv₁.resetIf ((app.page.isSome && t.page.isNone) || t.phase = .exited) fun hr => hnone₁ (hout hr)
  have hops : app.pageOps l t = (if app.phase.inPage && !t.phase.inPage then [.finished] else []) ++
      if (app.page.isSome && t.page.isNone) || t.phase = .exited then [.reset] else [] := by
    simp only [pageOps, hnone]
  rw [hops, Runs.always_append]
  refine ⟨s₂, Runs.exec_trans hexec₁ hexec₂, ⟨halways₁, fun x hx => ?_⟩, hinv₂, fun hphase => ?_,
    fun hin => hawaited₂.trans (hnone₁ hin)⟩
  · obtain rfl := Option.some.inj (hexec₁.symm.trans hx)
    exact halways₂
  · rw [howner₂, howner₁, h.owner hexited]
    rcases hstays with hpage | ⟨hpage, -⟩
    · cases hp : app.page <;> simp [hpage, hp, hphase]
    · cases hp : app.page <;> simp [hpage]

/-- In a step that spawns a page where `_page` is null. -/
theorem Linked.first {s : PageSlot} (h : Linked app s) (hinv : app.Inv) (ht : app.step l = some t)
    (hspawn : app.spawning l = some a) (hpage : app.page = none) :
    ∃ s', Runs.exec PageSlot.step s (app.pageOps l t) = some s' ∧
      Runs.Always PageSlot.step PageSlot.Sound s (app.pageOps l t) ∧ Linked t s' := by
  have hexited : app.phase ≠ .exited ∧ app.phase ≠ .failed := by
    constructor <;> intro hphase <;> cases l <;> simp [step, hphase, AppPhase.waits] at ht
  obtain ⟨hstep, hfound⟩ := spawning_spec hspawn
  obtain rfl := Option.some.inj (hstep.symm.trans ht)
  have hset : a.spawnPage.page.isSome :=
    page_spawnPage (hfound.bufferPage ▸ (hinv.held hexited.2).pageBuffer) hfound.next
  obtain ⟨s₁, hexec₁, halways₁, hinv₁, howner₁, -⟩ := h.inv.finishedIf app.phase.inPage
  have hnull : s₁.owner = false := by simp [howner₁, h.owner hexited.1, hpage]
  obtain ⟨s₂, hexec₂, halways₂, hinv₂, howner₂, hawaited₂⟩ :=
    (hinv₁.spawn hnull).finishedIf (!a.spawnPage.phase.inPage)
  have hops : app.pageOps l a.spawnPage = (if app.phase.inPage then [.finished] else []) ++
      .spawn :: if !a.spawnPage.phase.inPage then [.finished] else [] := by
    simp only [pageOps, hspawn]
    cases a.spawnPage.phase.inPage <;> rfl
  rw [hops, Runs.always_append]
  refine ⟨s₂, Runs.exec_trans hexec₁ (Runs.exec_cons.mpr ⟨_, rfl, hexec₂⟩),
    ⟨halways₁, fun x hx => ?_⟩, hinv₂, fun _ => ?_, fun hin => ?_⟩
  · obtain rfl := Option.some.inj (hexec₁.symm.trans hx)
    refine ⟨hinv₁.sound, fun y hy => ?_⟩
    obtain rfl := Option.some.inj hy
    exact halways₂
  · rw [howner₂, hset]
    rfl
  · rw [hawaited₂, hin]
    rfl

/-- In a step that spawns a page where it is not. -/
theorem Linked.second {s : PageSlot} (h : Linked app s) (ht : app.step l = some t)
    (hspawn : app.spawning l = some a) (hpage : app.page ≠ none) :
    ¬ Runs.Always PageSlot.step PageSlot.Sound s (app.pageOps l t) := by
  intro halways
  have hexited : app.phase ≠ .exited := by
    intro hphase
    cases l <;> simp [step, hphase, AppPhase.waits] at ht
  obtain ⟨s₁, hexec₁, -, -, howner₁, -⟩ := h.inv.finishedIf app.phase.inPage
  have hset : s₁.owner = true := by
    rw [howner₁, h.owner hexited]
    exact Option.isSome_iff_ne_none.mpr hpage
  simp only [pageOps, hspawn] at halways
  have hspawned := ((Runs.always_append _ _ _).mp halways).2 s₁ hexec₁
  exact PageSlot.not_sound_spawn hset (hspawned.2 (s₁.after .spawn) rfl).head

/-- The step spawns a page only where `_page` is null. -/
def SpawnsFirst (app : WebApp π) (l : Label) : Prop := (app.spawning l).isSome → app.page = none

theorem pageRun_cons (h : app.step l = some t) (ls : List Label) :
    app.pageRun (l :: ls) = app.pageOps l t ++ t.pageRun ls := by
  simp [pageRun, h]

/-- By induction on the run: up to a step that spawns a second page the lifetimes are right. -/
theorem linked_run {s : PageSlot} {ls : List Label} (hrun : exec app ls = some t) (hinv : app.Inv)
    (h : Linked app s) : Runs.Always PageSlot.step PageSlot.Sound s (app.pageRun ls) ↔
      Runs.Meets step SpawnsFirst app ls := by
  induction ls generalizing app s with
  | nil => exact ⟨fun _ => trivial, fun _ => h.inv.sound⟩
  | cons l ls ih =>
    obtain ⟨m, hm, hmt⟩ := Runs.exec_cons.mp hrun
    have hops := pageRun_cons hm ls
    have hnext : ∀ s', Runs.exec PageSlot.step s (app.pageOps l m) = some s' →
        Runs.Always PageSlot.step PageSlot.Sound s (app.pageOps l m) → Linked m s' →
        SpawnsFirst app l → (Runs.Always PageSlot.step PageSlot.Sound s (app.pageRun (l :: ls)) ↔
          Runs.Meets step SpawnsFirst app (l :: ls)) := by
      intro s' hexec halways hlinked hfirst
      rw [hops, Runs.always_append]
      constructor
      · intro hall
        refine ⟨hfirst, fun x hx => ?_⟩
        obtain rfl := Option.some.inj (hm.symm.trans hx)
        exact (ih hmt (hinv.step hm) hlinked).mp (hall.2 s' hexec)
      · intro hmeets
        refine ⟨halways, fun x hx => ?_⟩
        obtain rfl := Option.some.inj (hexec.symm.trans hx)
        exact (ih hmt (hinv.step hm) hlinked).mpr (hmeets.2 m hm)
    cases hspawn : app.spawning l with
    | none =>
      obtain ⟨s', hexec, halways, hlinked⟩ := h.quiet hm hspawn
      exact hnext s' hexec halways hlinked (by simp [SpawnsFirst, hspawn])
    | some a =>
      by_cases hpage : app.page = none
      · obtain ⟨s', hexec, halways, hlinked⟩ := h.first hinv hm hspawn hpage
        exact hnext s' hexec halways hlinked fun _ => hpage
      · have hsecond := h.second hm hspawn hpage
        rw [hops, Runs.always_append]
        refine iff_of_false (fun hall => hsecond hall.1) fun hmeets => ?_
        exact hpage (hmeets.1 (by simp [hspawn]))

/-- LIFETIMES: in every run of a connection, each page is constructed, awaited and destroyed once and in this
    order, if and only if a page is spawned only where `_page` is null. -/
theorem page_lifetimes_iff (root : Node π) (request response page : Nat) (ls : List Label)
    (hrun : exec (start root request response page) ls = some t) :
    Runs.Always PageSlot.step PageSlot.Sound {} ((start root request response page).pageRun ls) ↔
      Runs.Meets step SpawnsFirst (start root request response page) ls := by
  refine linked_run hrun (inv_start root request response page) ⟨PageSlot.inv_init, fun _ => rfl, fun _ => rfl⟩

/-- "GET /" on a connection whose tree has one page. -/
def getOnePage : Label := .report (.startLine (ascii "GET") (ascii "/") (ascii "HTTP/1.1"))

theorem page_lifetimes_onePage :
    ∃ app, exec (start (.mk [] 0 []) 64 512 64) [getOnePage, .act .ret, .streamDone] = some app ∧
    (Runs.Always PageSlot.step PageSlot.Sound {}
        ((start (.mk [] 0 []) 64 512 64).pageRun [getOnePage, .act .ret, .streamDone]) ↔
      Runs.Meets step SpawnsFirst (start (.mk [] 0 []) 64 512 64) [getOnePage, .act .ret, .streamDone]) :=
  ⟨_, rfl, page_lifetimes_iff (.mk [] 0 []) 64 512 64 _ rfl⟩

/-- A page redirects to itself, and the second one is destroyed as soon as it has been constructed. -/
theorem redirect_destroyed : ¬ ∀ ls app, exec (start (.mk [] 0 []) 64 512 64) ls = some app →
    Runs.Always PageSlot.step PageSlot.Sound {} ((start (.mk [] 0 []) 64 512 64).pageRun ls) := by
  intro hall
  have h := hall [getOnePage, .act (.redirect (ascii "/") 0)] _ rfl
  have hops : (start (.mk [] 0 []) 64 512 64).pageRun
      [getOnePage, .act (.redirect (ascii "/") 0)] = [.spawn, .finished, .spawn] := by rfl
  rw [hops] at h
  have hsound := ((h.2 _ rfl).2 _ rfl).2 _ rfl
  exact (hsound.alive 1 rfl).2 (by decide)

end WebApp

end Jinx.Http
