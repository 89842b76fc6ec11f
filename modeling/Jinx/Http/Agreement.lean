import Jinx.Http.ClientReceive
import Jinx.Http.Connection

/-! Do both ends of a connection agree on what becomes of it?

    A client says it in its request, a page in its response, and each of them also goes by what it has
    said itself. Four functions decide it: `field_end` of the two builders, the reports of the client and
    those of the page. A Connection field that asks for none of the three states makes the difference: the
    builder of the page takes it for no field, and the client for an unknown state. -/

namespace Jinx.Http
open Jinx Posix Incremental HTTPBuilder
open ClientReceive (viewOf)

/-! ### What a list of fields announces -/

namespace Field

def isConnection (f : Field) : Bool := sameName f.name "connection"

/-- The state after these fields, in a builder and at the other end. -/
def announced (s : HTTPConnectionState) (fields : List Field) : HTTPConnectionState :=
  fields.foldl (fun s f => s.announce f.report) s

/-- The last Connection field decides. -/
theorem announced_eq (fields : List Field) (s : HTTPConnectionState) :
    announced s fields = ((fields.filter isConnection).getLast?.map fun f =>
      HTTPConnectionState.ofValue f.value).getD s := by
  induction fields generalizing s with
  | nil => rfl
  | cons f fields ih =>
    show announced (s.announce f.report) fields = _
    rw [ih, List.filter_cons]
    cases hf : f.isConnection with
    | false =>
      have hsame : s.announce f.report = s := if_neg (Bool.eq_false_iff.mp hf)
      rw [hsame]
      rfl
    | true =>
      have hvalue : s.announce f.report = .ofValue f.value := if_pos hf
      rw [hvalue, if_pos rfl, List.getLast?_cons]
      cases (fields.filter isConnection).getLast? <;> rfl

theorem announced_append (s : HTTPConnectionState) (fields fields' : List Field) :
    announced s (fields ++ fields') = announced (announced s fields) fields' := List.foldl_append ..

theorem announced_withDefault (s : HTTPConnectionState) (fields : List Field) (name : String)
    {default : Field} (h : default.isConnection = false) :
    announced s (withDefault fields name default) = announced s fields := by
  rw [withDefault, announced_append]
  split
  · rfl
  · exact if_neg (Bool.eq_false_iff.mp h)

end Field

/-! ### The builder -/

namespace HTTPBuilder

variable {b b' : HTTPBuilder} {w : List Byte} {c : Nat}

/-- By induction on the fields: as long as everything fits, the builder has the state they announce. -/
theorem writeFields_state (fields : List Field) (h : b.Shows w c) (hdetect : b.detectConnection = false)
    (hb : b.writeFields (fields.map Field.pair) = some b') (hover : b'.overflow = false) :
    b'.connectionState = Field.announced b.connectionState fields := by
  induction fields generalizing b w c with
  | nil =>
    obtain rfl := Option.some.inj hb
    rfl
  | cons f fields ih =>
    obtain ⟨b₁, h₁, hrest⟩ := Option.bind_eq_some_iff.mp hb
    obtain ⟨b₂, h₂, hw, hdetect₂, -, hstate⟩ := writeHeaderField_writes h hdetect f.name f.value
    obtain rfl : b₁ = b₂ := Option.some.inj (h₁.symm.trans h₂)
    obtain ⟨b₃, h₃, hw₃, -⟩ := writeFields_writes (fields.map Field.pair) hw.shows hdetect₂
    obtain rfl : b₃ = b' := Option.some.inj (h₃.symm.trans hrest)
    have hover₁ : b₁.overflow = false :=
      Bool.eq_false_iff.mpr fun h => Bool.eq_false_iff.mp hover (hw₃.overflow.mpr (.inl h))
    rw [ih hw.shows hdetect₂ hrest, hstate hover₁]
    rfl

/-- A first line and fields in a fresh builder. -/
theorem fresh_state (front : List Byte) (line : List (List Byte)) (fields : List Field)
    (hc : line.flatten.length + ((fields.map Field.pair).flatMap fieldBytes).length ≤ c) :
    ∃ b, ((fresh front c).puts line).bind (fun b => b.writeFields (fields.map Field.pair)) = some b ∧
      b.connectionState = Field.announced .unknown fields := by
  obtain ⟨b₁, h₁, hw₁, hk₁⟩ := puts_writes (fresh_shows front c) line
  obtain ⟨b₂, h₂, hw₂, -⟩ := writeFields_writes (fields.map Field.pair) hw₁.shows hk₁.detect
  have hover : b₂.overflow = false := by
    rw [Bool.eq_false_iff]
    intro hover
    rcases (hw₁.append hw₂).overflow.mp hover with h | h
    · cases h
    · rw [List.length_append] at h
      omega
  refine ⟨b₂, by rw [h₁]; exact h₂, ?_⟩
  rw [writeFields_state fields hw₁.shows hk₁.detect h₂ hover, hk₁.state]
  rfl

end HTTPBuilder

/-- What is written before `write_header_done`. -/
def RequestHead.written (q : RequestHead) (b : HTTPBuilder) : Option HTTPBuilder :=
  (b.writeRequestLine q.method q.path q.version).bind fun b => b.writeFields (q.fields.map Field.pair)

def ResponseHead.written (r : ResponseHead) (b : HTTPBuilder) : Option HTTPBuilder :=
  (b.writeVersionLine r.version r.status r.reason).bind fun b =>
    b.writeFields (r.fields.map Field.pair)

theorem ResponseHead.write_written (r : ResponseHead) (b : HTTPBuilder) :
    r.write b = (r.written b).bind fun b => b.writeHeaderDone :=
  (Option.bind_assoc ..).symm

theorem RequestHead.written_state (q : RequestHead) (front : List Byte) {c : Nat}
    (hc : q.head.bytes.length ≤ c) :
    ∃ b, q.written (.fresh front c) = some b ∧ b.connectionState = Field.announced .unknown q.fields := by
  refine fresh_state front [q.method, [SP], q.path, [SP], q.version, lineEnd] q.fields ?_
  rw [q.head_bytes] at hc
  simp only [List.length_append, List.flatten_cons, List.flatten_nil, List.append_nil] at hc ⊢
  omega

theorem ResponseHead.written_state (r : ResponseHead) (front : List Byte) {c : Nat}
    (hc : r.head.bytes.length ≤ c) :
    ∃ b, r.written (.fresh front c) = some b ∧ b.connectionState = Field.announced .unknown r.fields := by
  refine fresh_state front [r.version, [SP], decimal r.status, [SP], r.reason, lineEnd] r.fields ?_
  rw [r.head_bytes] at hc
  simp only [List.length_append, List.flatten_cons, List.flatten_nil, List.append_nil] at hc ⊢
  omega

/-! ### The page -/

namespace WebApp

variable {π : Type*} {app : WebApp π}

/-- A connection up to its first response: the parser reports, and the pages act. -/
def awaiter (π : Type*) : Awaiter (WebApp π) PageAction where
  waits app := app.phase = .parsing ∨ app.phase = .reading
  react app r := (app.step (.report r)).getD app
  act app a := app.step (.act a)

/-- The request is read, or a page runs. -/
def Open (app : WebApp π) : Prop :=
  app.phase = .parsing ∨ app.phase = .running ∨ app.phase = .reading

/-- Nothing has been answered yet, and the connection state is still `s`. -/
def OpenIn (s : HTTPConnectionState) (app : WebApp π) : Prop := app.Open → app.connectionState = s

theorem not_open_fail : ¬ app.fail.Open := by simp [Open, fail]

theorem not_open_shutdown : ¬ app.shutdown.Open := by simp [Open, shutdown]

theorem not_open_throw (e : Error) : ¬ (app.throw e).Open := by simp [Open, throw]

theorem not_open_sendResponse : ¬ app.sendResponse.Open := by
  unfold sendResponse
  split
  · exact not_open_fail
  · simp [Open]
  · exact not_open_throw _

theorem not_open_handleRequest : ¬ app.handleRequest.Open := by
  unfold handleRequest
  split
  · exact not_open_fail
  · exact not_open_sendResponse

theorem spawnPage_openIn (app : WebApp π) : OpenIn app.connectionState app.spawnPage := by
  intro hopen
  unfold spawnPage at hopen ⊢
  split at hopen
  · rfl
  · dsimp only at hopen ⊢
    split at hopen
    · exact (not_open_handleRequest hopen).elim
    · rename_i hflag
      rw [if_neg hflag]
  · exact (not_open_fail hopen).elim

theorem finish_openIn (app : WebApp π) : OpenIn app.connectionState app.finish := by
  intro hopen
  unfold finish at hopen ⊢
  split at hopen
  · split at hopen
    · rename_i hnext
      rw [if_pos hnext]
      exact spawnPage_openIn app hopen
    · split at hopen
      · -- `init` finds no buffer
        exact (not_open_fail hopen).elim
      · exact (not_open_shutdown hopen).elim
  · exact (not_open_fail hopen).elim

/-- Only the report of a start line opens a page of the user. -/
theorem preRoute_openIn (app : WebApp π) (r : Report) :
    OpenIn (app.connectionState.announce r) (app.preRoute r) := by
  intro hopen
  have herror (t : WebApp π) (ht : t.flagBrokenStream = false) (code : Nat) :
      ¬ (t.sendErrorPage code).Open := by
    intro hopen
    rw [sendErrorPage, if_neg (Bool.eq_false_iff.mp ht)] at hopen
    unfold spawnPage at hopen
    cases hpage : t.bufferPage with
    | none => simp [hpage, Open, fail] at hopen
    | some size =>
      simp only [hpage] at hopen
      exact not_open_handleRequest hopen
  unfold preRoute at hopen ⊢
  split at hopen
  · dsimp only at hopen ⊢
    split at hopen
    · exact (not_open_fail hopen).elim
    · split at hopen
      · exact spawnPage_openIn _ hopen
      · exact spawnPage_openIn _ hopen
  · exact (herror _ rfl 400 hopen).elim

theorem handleParserResult_openIn (app : WebApp π) (r : Report) :
    OpenIn (app.connectionState.announce r) (app.handleParserResult r) := by
  intro hopen
  unfold handleParserResult at hopen ⊢
  split at hopen
  · rename_i name value
    have hstate : (if sameName name "connection" then
        { app with connectionState := HTTPConnectionState.ofValue value } else app).connectionState =
          app.connectionState.announce (.header name value) := by
      simp only [HTTPConnectionState.announce]
      split <;> rfl
    rw [← hstate]
    dsimp only
    split <;> rfl
  · split at hopen
    · exact (not_open_handleRequest hopen).elim
    · rfl
  · exact (not_open_throw _ hopen).elim
  · exact (not_open_throw _ hopen).elim
  · exact (not_open_fail hopen).elim
  · exact (not_open_throw _ hopen).elim

theorem act_openIn (app : WebApp π) (a : PageAction) : OpenIn app.connectionState (app.act a) := by
  intro hopen
  cases a with
  | parseHeader => rfl
  | writeResponseLine status text =>
    unfold act at hopen ⊢
    dsimp only at hopen ⊢
    split at hopen
    · exact (not_open_fail hopen).elim
    · rfl
  | writeResponseField name value =>
    unfold act at hopen ⊢
    dsimp only at hopen ⊢
    split at hopen
    · exact (not_open_fail hopen).elim
    · rfl
  | sendResponse => exact (not_open_sendResponse hopen).elim
  | redirect path behind =>
    unfold act at hopen ⊢
    dsimp only at hopen ⊢
    split at hopen
    · exact (not_open_fail hopen).elim
    · exact finish_openIn _ hopen
  | ret => exact finish_openIn app hopen
  | throw e => exact (not_open_throw e hopen).elim

/-- What a connection keeps in its state before it answers is what the fields have announced that it has
    seen. -/
theorem awaiter_tracks {x y : Reading (WebApp π)} {s : HTTPConnectionState}
    {as : List (Reading.Label PageAction)} (hrun : Reading.exec (awaiter π) x as = some y)
    (h : x.Tracks Open connectionState HTTPConnectionState.announce s) :
    y.Tracks Open connectionState HTTPConnectionState.announce s := by
  refine h.run (fun t r hwaits hopen => ?_) (fun t a u hstep hopen => ?_) hrun
  · have hwaits' : t.phase = .parsing ∨ t.phase = .reading := of_decide_eq_true hwaits
    refine ⟨hwaits'.imp_right .inr, ?_⟩
    rcases hwaits' with hphase | hphase
    · have hreact : (awaiter π).react t r = t.preRoute r := by simp [awaiter, step, hphase]
      rw [hreact] at hopen ⊢
      exact preRoute_openIn t r hopen
    · have hreact : (awaiter π).react t r = t.handleParserResult r := by simp [awaiter, step, hphase]
      rw [hreact] at hopen ⊢
      exact handleParserResult_openIn t r hopen
  · obtain ⟨hphase, rfl⟩ := step_act hstep
    exact ⟨.inr (.inl hphase), act_openIn t a hopen⟩

end WebApp

/-! ### Both ends -/

section
variable {ρ α : Type*} {A : Awaiter ρ α} {h : MessageHead} {v : RawView} {body : List Byte} {M : Nat}

/-- Who was told that the header is complete has seen all that there is to report. -/
theorem MessageHead.taken_eq (hfields : h.fields ≠ []) (hv : v.content = h.bytes ++ body)
    (hM : h.bytes.length ≤ M) {ioHandle : Int} {s : ρ} {as : List (Reading.Label α)} {x : Reading ρ}
    (hrun : Reading.exec A (.init ioHandle v M s) as = some x)
    (hmem : .final (some .complete) ∈ x.taken) : x.taken = h.reports := by
  have hout := h.outputs_bytes hfields (body.take (M - h.bytes.length))
  rw [← h.take_bytes hM, ← hv] at hout
  have hinv := Reading.exec_exchange (fun _ _ _ hx hstep => Exchange.Inv.step hx hstep) hrun
    (Exchange.inv_init ioHandle rfl hout)
  have hrs := HTTPParser.outputs_emit hout
  obtain ⟨hall, hends⟩ := hinv.seen_final hrs hmem
  obtain hends | ⟨-, -, p, hp, hends⟩ := hends
  · exact hall.trans hends
  · have hlast : Report.final (some .complete) ∈ p ++ [.final (some .endOfStream)] := by
      rw [← hends, ← hall]
      exact hmem
    rcases List.mem_append.mp hlast with hin | hin
    · exact (hrs _ (hp.subset hin) _ rfl).elim
    · simp at hin

end

namespace Field

/-- What a parser reports of a head announces what its fields do. -/
theorem foldl_reports (first second third : List Byte) (fields : List Field) (s : HTTPConnectionState) :
    (.startLine first second third :: fields.map report ++ [Report.final (some .complete)]).foldl
      HTTPConnectionState.announce s = announced s fields := by
  rw [List.cons_append, List.foldl_cons, List.foldl_append, List.foldl_map]
  rfl

end Field

theorem RequestHead.announces (q : RequestHead) (s : HTTPConnectionState) :
    q.reports.foldl HTTPConnectionState.announce s = Field.announced s q.fields :=
  (Field.foldl_reports ..).trans
    (Field.announced_withDefault s q.fields _ (show userAgent.isConnection = false by decide))

theorem ResponseHead.announces (r : ResponseHead) (s : HTTPConnectionState) :
    r.reports.foldl HTTPConnectionState.announce s = Field.announced s r.fields :=
  (Field.foldl_reports ..).trans
    (Field.announced_withDefault s r.fields _ (show server.isConnection = false by decide))

/-- The last Connection field of the response asks for none of the states. -/
def ResponseHead.Unrecognized (r : ResponseHead) : Prop :=
  ∃ f, (r.fields.filter Field.isConnection).getLast? = some f ∧
    HTTPConnectionState.ofValue f.value = .unknown

/-- A state that is not unknown has the word before another one. -/
def HTTPConnectionState.orElse (s t : HTTPConnectionState) : HTTPConnectionState :=
  if s ≠ .unknown then s else t

theorem WebApp.responseState_eq {π : Type*} (app : WebApp π) :
    app.responseState = app.builder.connectionState.orElse (app.connectionState.orElse .close) := by
  unfold responseState HTTPConnectionState.orElse
  split
  · rfl
  · rw [ite_not]

theorem HTTPClient.requestState_eq (b : HTTPBuilder) :
    requestState { builder := b } = b.connectionState.orElse .close := rfl

theorem HTTPConnectionState.orElse_ne {s t : HTTPConnectionState} (h : t ≠ .unknown) :
    s.orElse t ≠ .unknown := by
  unfold orElse
  split
  · assumption
  · exact h

/-- The client and the page make the same of a request, each in its way. -/
theorem request_agrees (fields : List Field) :
    (Field.announced .close fields).orElse .close = (Field.announced .unknown fields).orElse .close := by
  rw [Field.announced_eq, Field.announced_eq]
  cases (fields.filter Field.isConnection).getLast? <;> rfl

/-- The page asks its builder, and the client the fields. -/
theorem response_agrees_iff (r : ResponseHead) {s : HTTPConnectionState} (hs : s ≠ .unknown) :
    Field.announced s r.fields = (Field.announced .unknown r.fields).orElse s ↔ ¬ r.Unrecognized := by
  rw [Field.announced_eq, Field.announced_eq, ResponseHead.Unrecognized]
  cases (r.fields.filter Field.isConnection).getLast? with
  | none => simp [HTTPConnectionState.orElse]
  | some f =>
    simp only [Option.map_some, Option.getD_some, Option.some.injEq, exists_eq_left',
      HTTPConnectionState.orElse]
    split
    · rename_i hne
      exact iff_of_true rfl hne
    · rename_i heq
      have hunknown := not_not.mp heq
      rw [hunknown]
      exact iff_of_false hs.symm (not_not.mpr rfl)

/-- A client sends a request, a page reads it to the end of its header and sends a response, and the client
    reads that, each in any pieces. Then the two think the same of the connection, unless the last
    Connection field of the response asks for none of the states. -/
theorem ends_agree_iff {π : Type*} (root : Node π) (q : RequestHead) (r : ResponseHead)
    (front : List Byte) (c request response page M : Nat) (hq : q.head.bytes.length ≤ c)
    (hqr : q.head.bytes.length ≤ request) (hr : r.head.bytes.length ≤ response)
    (hrM : r.head.bytes.length ≤ M) :
    ∃ bq bq' viewq, q.written (.fresh front c) = some bq ∧ q.write (.fresh front c) = some (bq', true) ∧
      bq'.buffer = some viewq ∧
      ∀ (vq : RawView) (bodyq : List Byte), vq.content = viewq.window ++ bodyq → ∀ ioq as up,
        Reading.exec (WebApp.awaiter π)
          (.init ioq vq request (WebApp.start root request response page)) as = some up →
        .final (some .complete) ∈ up.taken → up.awaiter.phase = .running →
        r.written (.fresh [] response) = some up.awaiter.builder →
      ∃ viewr, up.awaiter.sendResponse.phase = .sending ∧
        up.awaiter.sendResponse.builder.buffer = some viewr ∧
        ∀ (vr : RawView) (bodyr : List Byte), vr.content = viewr.window ++ bodyr → ∀ ior bs down,
          Reading.exec ClientReceive.awaiter
            (.init ior vr M ⟨HTTPClient.requestState { builder := bq }, .parsing⟩) bs = some down →
          down.awaiter.phase = .paused →
          (down.awaiter.connectionState = up.awaiter.sendResponse.connectionState ↔
            ¬ r.Unrecognized) := by
  obtain ⟨bq, hbq, hbqs⟩ := q.written_state front hq
  obtain ⟨bq', viewq, hwq, hviewq, hbytesq⟩ := q.write_eq front hq
  refine ⟨bq, bq', viewq, hbq, hwq, hviewq, fun vq bodyq hvq ioq as up hup hdone hphase hbr => ?_⟩
  obtain ⟨br, hwritten, hbrs⟩ := r.written_state [] hr
  obtain rfl : br = up.awaiter.builder := Option.some.inj (hwritten.symm.trans hbr)
  obtain ⟨br', viewr, hwr, hviewr, hbytesr⟩ := r.write_eq [] hr
  -- the page has seen the whole request
  have hupState : up.awaiter.connectionState = Field.announced .close q.fields := by
    have htracks := WebApp.awaiter_tracks hup (Reading.tracks_init _ _ _ ioq vq request _)
    have htaken : up.taken = q.head.reports :=
      MessageHead.taken_eq q.head_fields_ne (hbytesq ▸ hvq) hqr hup hdone
    rw [htracks.shows (.inr (.inl hphase)), htaken, q.head_reports, q.announces]
    rfl
  have hdoneBuilder : up.awaiter.builder.writeHeaderDone = some (br', true) := by
    rw [r.write_written, hwritten] at hwr
    exact hwr
  have hsend : up.awaiter.sendResponse = { up.awaiter with
      connectionState := up.awaiter.responseState, builder := br', flagBrokenStream := true,
      phase := .sending } := by
    rw [WebApp.sendResponse, hdoneBuilder]
  rw [hsend]
  refine ⟨viewr, rfl, hviewr, fun vr bodyr hvr ior bs down hdown hpaused => ?_⟩
  -- the client has seen the whole response
  have hdown' := ClientReceive.awaiter_eq hdown
  have hcomplete : .final (some .complete) ∈ down.taken :=
    (ClientReceive.complete_mem down.taken ⟨_, .parsing⟩ (hdown' ▸ hpaused)).resolve_left (by simp)
  have htaken : down.taken = r.head.reports :=
    MessageHead.taken_eq r.head_fields_ne (hbytesr ▸ hvr) hrM hdown hcomplete
  rw [hdown', ClientReceive.foldl_state, htaken, r.head_reports, r.announces]
  show Field.announced (HTTPClient.requestState { builder := bq }) r.fields = up.awaiter.responseState ↔ _
  rw [WebApp.responseState_eq, hbrs, hupState, request_agrees, HTTPClient.requestState_eq, hbqs]
  exact response_agrees_iff r (HTTPConnectionState.orElse_ne (by decide))

/-- "Connection: Keep-Alive", whose value is not "keep-alive". -/
def keepAliveField : Field where
  name := ascii "Connection"
  value := ascii "Keep-Alive"
  name_ne := by decide
  name_token := List.all_eq_true.mp (by decide)
  value_line := by decide
  value_begin := by decide
  value_end := by decide

def notFoundAlive : ResponseHead := { notFound with fields := [keepAliveField] }

/-- A page reads "GET / HTTP/1.1" to the end of its header, and writes the response. -/
def answering : List (Reading.Label PageAction) :=
  .await :: (ClientReceive.inOnePiece 36).map .wire ++
    [.report, .act .parseHeader, .await, .report, .act .parseHeader, .await, .report,
      .act (.writeResponseLine 404 (ascii "Not Found")),
      .act (.writeResponseField (ascii "Connection") (ascii "Keep-Alive"))]

theorem ends_agree_iff_capitals : ∃ up down,
    Reading.exec (WebApp.awaiter Nat) (.init 5 (viewOf getRootBytes) 64
      (WebApp.start (.mk [] 0 []) 64 128 64)) answering = some up ∧
    Reading.exec ClientReceive.awaiter
      (.init 6 (viewOf notFoundAlive.head.bytes) 128 ⟨.close, .parsing⟩)
      (ClientReceive.threeReports 64 ++ [.await, .report]) = some down ∧
    down.awaiter.connectionState ≠ up.awaiter.sendResponse.connectionState := by
  have hup : (Reading.exec (WebApp.awaiter Nat) (.init 5 (viewOf getRootBytes)
      64 (WebApp.start (.mk [] 0 []) 64 128 64)) answering).map (fun x => (x.awaiter.phase,
        decide (Report.final (some .complete) ∈ x.taken), some x.awaiter.builder,
        x.awaiter.sendResponse.builder.buffer.map BufferView.window)) =
      some (.running, true, notFoundAlive.written (.fresh [] 128), some notFoundAlive.head.bytes) := by
    decide +kernel
  have hdown : (Reading.exec ClientReceive.awaiter
      (.init 6 (viewOf notFoundAlive.head.bytes) 128 ⟨.close, .parsing⟩)
      (ClientReceive.threeReports 64 ++ [.await, .report])).map (fun x => x.awaiter.phase) =
      some .paused := by decide +kernel
  have hbytes : getRootOnly.head.bytes = getRootBytes := by decide +kernel
  have hstate : (getRootOnly.written (.fresh [] 64)).map
      (fun b => HTTPClient.requestState { builder := b }) = some .close := by decide +kernel
  obtain ⟨up, hup, hx⟩ := Option.map_eq_some_iff.mp hup
  obtain ⟨hphase, hx⟩ := Prod.mk.inj hx
  obtain ⟨hdone, hx⟩ := Prod.mk.inj hx
  obtain ⟨hbuilder, hview⟩ := Prod.mk.inj hx
  obtain ⟨down, hdown, hpaused⟩ := Option.map_eq_some_iff.mp hdown
  obtain ⟨bq, bq', viewq, hbq, hwq, hviewq, hboth⟩ := ends_agree_iff (.mk [] 0 []) getRootOnly
    notFoundAlive [] 64 64 128 64 128 (by decide +kernel) (by decide +kernel) (by decide +kernel)
    (by decide +kernel)
  have hvq : (viewOf getRootBytes).content = getRootBytes ++ [] := by
    decide +kernel
  have hvr : (viewOf notFoundAlive.head.bytes).content =
      notFoundAlive.head.bytes ++ [] := by decide +kernel
  have hwq' : viewq.window = getRootBytes := by
    obtain ⟨b, view, hw, hv, hwindow⟩ := getRootOnly.write_eq [] (c := 64) (by decide +kernel)
    obtain ⟨rfl, -⟩ := Prod.mk.inj (Option.some.inj (hw.symm.trans hwq))
    rw [← hbytes, ← hwindow, Option.some.inj (hv.symm.trans hviewq)]
  obtain ⟨viewr, -, hviewr, hends⟩ := hboth (viewOf getRootBytes) []
    (hwq' ▸ hvq) 5 answering up hup (of_decide_eq_true hdone) hphase hbuilder.symm
  have hwr : viewr.window = notFoundAlive.head.bytes := by
    rw [hviewr] at hview
    exact Option.some.inj hview
  have hclose : HTTPClient.requestState { builder := bq } = .close := by
    rw [hbq] at hstate
    exact Option.some.inj hstate
  have hdiffer := hends (viewOf notFoundAlive.head.bytes) []
    (hwr ▸ hvr) 6 _ down (hclose ▸ hdown) hpaused
  exact ⟨up, down, hup, hdown, fun heq => hdiffer.mp heq ⟨keepAliveField, rfl, by decide +kernel⟩⟩

end Jinx.Http
