import Jinx.Await.Program

/-! Synchronous and suspended completion cannot be told apart.

    `code_runs` follows a frame from the moment it is entered to the moment its caller is entered
    again, whether it finished inside `async_call` or was resumed in between, by induction on the
    program. `Ready` is the state when a frame is about to be polled, `Handling` when its
    `handle_error` is called; `Delivered` is the state when its outcome has reached the caller. The
    frames below the caller may be gone from the C++ stack by then, since a wait unwinds it. -/

namespace Jinx.Await

namespace Config

variable {c d : Config} {f k : ObjId} {K : Ptr} {S : List Activation} {r : Routine} {e : Error}

/-- A frame `f` that was called by `K`, with the activations `S` below it: either all of its callers
    are still on the C++ stack, or none. -/
structure Here (c : Config) (f : ObjId) (K : Ptr) (S : List Activation) : Prop where
  task : (c.m.obj f).task = true
  caller : (c.m.obj f).caller = K
  plain : (c.m.obj f).pausable = false
  lt : f < c.fresh
  new : ∀ i, c.fresh ≤ i → c.m.obj i = {}
  taskError : c.m.taskError = {}
  awaiter : K = .task ∨ ∃ k, K = .obj k ∧ k ≠ f ∧ k < c.fresh ∧ (c.m.obj k).task = true ∧
    (c.m.obj k).error.isSet = false
  below : S = [] ∨ ∃ k h S', S = ⟨k, h⟩ :: S' ∧ K = .obj k

/-- `f` is about to be polled. -/
structure Ready (c : Config) (f : ObjId) (K : Ptr) (S : List Activation) (r : Routine) : Prop
    extends Here c f K S where
  error : (c.m.obj f).error.isSet = false
  ctl : c.m.ctl = .entering
  stack : ∃ h, c.m.stack = ⟨f, h⟩ :: S
  routine : (c.m.obj f).routine = r
  bound : r ≠ .uninitialized

/-- The user's callback or `handle_error` of `f` has control. -/
structure User (c : Config) (f : ObjId) (K : Ptr) (S : List Activation) (h : Option Error) : Prop
    extends Here c f K S where
  error : (c.m.obj f).error.isSet = false
  ctl : c.m.ctl = if h.isSome then .handling else .polling
  stack : c.m.stack = ⟨f, h⟩ :: S

/-- The outcome `o` of `f` has reached its caller. -/
structure Delivered (c d : Config) (f : ObjId) (K : Ptr) (S : List Activation) (o : Outcome) :
    Prop where
  log : d.m.log = o.events.reverse ++ c.m.log
  fresh : d.fresh = o.fresh
  le : c.fresh ≤ d.fresh
  new : ∀ i, d.fresh ≤ i → d.m.obj i = {}
  error : ∀ e, o.error = some e → e.isSet = true
  frame : ∀ i, i < c.fresh → i ≠ f → K ≠ .obj i → d.m.obj i = c.m.obj i
  program : ∀ i, i < c.fresh → i ≠ f → d.code i = c.code i ∧ d.onError i = c.onError i
  toTask : K = .task → d.m.ctl = .running ∧ d.m.stack = [] ∧ d.m.top = .task ∧
    d.m.taskError = o.error.getD {}
  toCaller : ∀ k, K = .obj k → d.m.ctl = .entering ∧ d.m.taskError = {} ∧
    (∃ h, d.m.stack = [⟨k, h⟩] ∨ d.m.stack = ⟨k, h⟩ :: S.tail) ∧
    d.m.obj k = o.error.elim (c.m.obj k) fun e => { c.m.obj k with error := e }

theorem Reaches.head {b : Config} (h : c.drive = some b) (hr : Reaches b d) : Reaches c d :=
  Relation.ReflTransGen.head h hr

theorem Reaches.single (h : c.drive = some d) : Reaches c d := Relation.ReflTransGen.single h

theorem Reaches.refl (c : Config) : Reaches c c := Relation.ReflTransGen.refl

theorem Reaches.trans {b : Config} (h₁ : Reaches b c) (h₂ : Reaches c d) : Reaches b d :=
  Relation.ReflTransGen.trans h₁ h₂

/-- Inside the library the program ticks. -/
theorem drive_tick {m : Machine} (h : c.m.tick = some m)
    (hctl : c.m.ctl ≠ .polling ∧ c.m.ctl ≠ .handling ∧ c.m.ctl ≠ .stopped) :
    c.drive = some { c with m := m } := by
  have htake : c.take .tick = some { c with m := m } := by simp [take, Machine.step, h]
  unfold drive
  split <;> simp_all

/-- A frame without an error is polled. -/
theorem Ready.polled (h : Ready c f K S r) :
    ∃ d, c.drive = some d ∧ User d f K S none ∧ d.m.log = .polled f r :: c.m.log ∧
      d.m.obj = c.m.obj ∧ d.code = c.code ∧ d.onError = c.onError ∧ d.fresh = c.fresh := by
  obtain ⟨g, hstack⟩ := h.stack
  have htick : c.m.tick = some { c.m with
      stack := ⟨f, none⟩ :: S, ctl := .polling, log := .polled f r :: c.m.log } := by
    have hpaused : (c.m.obj f).isPaused = false := by simp [Obj.isPaused, h.plain]
    simp [Machine.tick, h.ctl, hstack, Machine.enter, h.error, Machine.poll, hpaused,
      Machine.callback, h.routine, h.bound, Machine.emit]
  refine ⟨_, drive_tick htick (by simp [h.ctl]), ?_, rfl, rfl, rfl, rfl, rfl⟩
  exact { h.toHere with error := h.error, ctl := rfl, stack := rfl }

theorem Here.caller_lt (h : Here c f K S) (hk : K = .obj k) : k < c.fresh ∧ k ≠ f := by
  rcases h.awaiter with h' | ⟨j, h', hne, hlt, -⟩
  · simp [hk] at h'
  · obtain rfl : k = j := by simpa [hk] using h'
    exact ⟨hlt, hne⟩

theorem stops_ready : ControlState.stops .ready = false := rfl

/-- After `Ready` was returned to it, the caller is entered, by its own loop or by `Task::run`. -/
theorem control_to_caller (c : Config) (m : Machine) (htop : m.top = .obj k)
    (htask : (m.obj k).task = true) (hbelow : S = [] ∨ ∃ h S', S = ⟨k, h⟩ :: S') :
    ∃ h st, (st = [⟨k, h⟩] ∨ st = ⟨k, h⟩ :: S.tail) ∧
      Reaches { c with m := m.deliver .ready S }
        { c with m := { m with ctl := .entering, stack := st } } := by
  rcases hbelow with rfl | ⟨h, S', rfl⟩
  · have hdel : m.deliver .ready [] = { m with stack := [], ctl := .running } := rfl
    refine ⟨none, [⟨k, none⟩], .inl rfl, .single (drive_tick ?_ (by simp [hdel]))⟩
    simp [hdel, Machine.tick, Machine.runTop, htop]
  · have hdel : m.deliver .ready (⟨k, h⟩ :: S') =
        { m with stack := ⟨k, h⟩ :: S', ctl := .returned .ready } := rfl
    refine ⟨h, ⟨k, h⟩ :: S', .inr rfl, .single (drive_tick ?_ (by simp [hdel]))⟩
    cases h <;>
      simp [hdel, Machine.tick, Machine.afterCallback, stops_ready, htask, htop]

/-- `f` is finalized and its outcome is on the way: what is left is to pass control on. -/
theorem Here.finish (h : Here c f K S) (m : Machine) (o : Outcome) (hfresh : o.fresh = c.fresh)
    (hlog : m.log = o.events.reverse ++ c.m.log)
    (herr : ∀ e, o.error = some e → e.isSet = true) (htop : m.top = K)
    (hobj : ∀ i, i ≠ f → K ≠ .obj i → m.obj i = c.m.obj i)
    (hcaller : ∀ k, K = .obj k →
      m.obj k = o.error.elim (c.m.obj k) fun e => { c.m.obj k with error := e })
    (htaskError : m.taskError = if K = .task then o.error.getD {} else {}) :
    ∃ d, Reaches { c with m := m.deliver .ready S } d ∧ Delivered c d f K S o := by
  have hnew : ∀ i, c.fresh ≤ i → m.obj i = {} := fun i hi => by
    rw [hobj i (Nat.ne_of_gt (Nat.lt_of_lt_of_le h.lt hi))
      fun hc => Nat.not_le_of_gt (h.caller_lt hc).1 hi]
    exact h.new i hi
  have hbase : ∀ mc st, (K = .task → mc = .running ∧ st = []) → (∀ k, K = .obj k → mc = .entering ∧
      ∃ g, st = [⟨k, g⟩] ∨ st = ⟨k, g⟩ :: S.tail) →
      Delivered c { c with m := { m with ctl := mc, stack := st } } f K S o := by
    intro mc st htask hobjk
    refine { log := hlog, fresh := hfresh.symm, le := Nat.le_refl _, new := hnew, error := herr,
             frame := fun i _ => hobj i, program := fun _ _ _ => ⟨rfl, rfl⟩, toTask := ?_,
             toCaller := ?_ }
    · rintro rfl
      exact ⟨(htask rfl).1, (htask rfl).2, htop, by simpa using htaskError⟩
    · rintro k rfl
      exact ⟨(hobjk k rfl).1, by simpa using htaskError, (hobjk k rfl).2, hcaller k rfl⟩
  rcases h.awaiter with rfl | ⟨k, rfl, hne, -, hktask, -⟩
  · obtain rfl : S = [] := by
      rcases h.below with h' | ⟨k, g, S', -, h'⟩
      · exact h'
      · simp at h'
    exact ⟨_, .refl _, hbase .running [] (fun _ => ⟨rfl, rfl⟩) (fun k hk => by simp at hk)⟩
  · have hbelow : S = [] ∨ ∃ g S', S = ⟨k, g⟩ :: S' := by
      rcases h.below with h' | ⟨j, g, S', h', hj⟩
      · exact .inl h'
      · obtain rfl : k = j := by simpa using hj
        exact .inr ⟨g, S', h'⟩
    have hktask' : (m.obj k).task = true := by
      rw [hcaller k rfl]
      cases o.error <;> exact hktask
    obtain ⟨g, st, hst, hreach⟩ := control_to_caller c m htop hktask' hbelow
    refine ⟨_, hreach, hbase .entering st (fun hc => by simp at hc) fun j hj => ?_⟩
    obtain rfl : k = j := by simpa using hj
    exact ⟨rfl, g, hst⟩

/-- Events that happened before, and awaitables that were used up before. -/
theorem Delivered.after {b : Config} {o : Outcome} (h : Delivered c d f K S o) (es : List Event)
    (hlog : c.m.log = es.reverse ++ b.m.log) (hle : b.fresh ≤ c.fresh)
    (hobj : ∀ i, i < b.fresh → i ≠ f → c.m.obj i = b.m.obj i)
    (hprog : ∀ i, i < b.fresh → i ≠ f → c.code i = b.code i ∧ c.onError i = b.onError i)
    (hK : ∀ k, K = .obj k → k < b.fresh ∧ k ≠ f) : Delivered b d f K S (o.after es) := by
  refine { log := ?_, fresh := h.fresh, le := Nat.le_trans hle h.le, new := h.new, error := h.error,
           frame := fun i hi hf hk => ?_, program := fun i hi hf => ?_, toTask := h.toTask,
           toCaller := fun k hk => ?_ }
  · rw [h.log, hlog]
    simp [Outcome.after]
  · exact (h.frame i (Nat.lt_of_lt_of_le hi hle) hf hk).trans (hobj i hi hf)
  · have h₁ := h.program i (Nat.lt_of_lt_of_le hi hle) hf
    have h₂ := hprog i hi hf
    exact ⟨h₁.1.trans h₂.1, h₁.2.trans h₂.2⟩
  · have hk' := h.toCaller k hk
    obtain ⟨hlt, hne⟩ := hK k hk
    rw [hobj k hlt hne] at hk'
    exact hk'

/-- A wait may have unwound the C++ stack. -/
theorem Delivered.of_unwound {o : Outcome} {S' : List Activation} (hS : S' = S ∨ S' = [])
    (h : Delivered c d f K S' o) : Delivered c d f K S o := by
  rcases hS with rfl | rfl
  · exact h
  · refine { h with toCaller := fun k hk => ?_ }
    obtain ⟨h₁, h₂, ⟨g, h₃⟩, h₄⟩ := h.toCaller k hk
    exact ⟨h₁, h₂, ⟨g, .inl (h₃.elim id id)⟩, h₄⟩

/-! ### How a callback or `handle_error` ends -/

theorem User.step_act {h : Option Error} (hu : User c f K S h) {x : Act} {m : Machine}
    (hact : c.m.act f x = some m) : c.take (.act x) = some { c with m := m } := by
  have hcode : c.m.userCode = true := by
    cases h <;> simp [Machine.userCode, hu.ctl]
  simp [take, Machine.step, hu.stack, hcode, hact]

theorem User.ret {h : Option Error} (hu : User c f K S h) (hdrive : c.drive = c.take (.act .ret)) :
    ∃ d, Reaches c d ∧ Delivered c d f K S ⟨[.finalized f], none, c.fresh⟩ := by
  have hret : c.m.act f .ret = some { c.m with top := K, ctl := .returned .ready } := by
    simp [Machine.act, Machine.asyncReturn, hu.task, hu.caller]
  have hKf : K ≠ .obj f := fun hc => (hu.caller_lt hc).2 rfl
  have htick : ({ c.m with top := K, ctl := .returned .ready } : Machine).tick =
      some ((Machine.finalize { c.m with top := K, ctl := .returned .ready } f).deliver .ready S) := by
    cases h <;>
      simp [Machine.tick, hu.stack, Machine.afterCallback, stops_ready, hu.task, hKf]
  obtain ⟨d, hreach, hd⟩ := hu.toHere.finish
    (Machine.finalize { c.m with top := K, ctl := .returned .ready } f)
    ⟨[.finalized f], none, c.fresh⟩ rfl rfl (by simp) rfl
    (fun i hi _ => by simp [Machine.finalize, Machine.set_obj_ne _ _ hi])
    (fun k hk => by simp [Machine.finalize, Machine.set_obj_ne _ _ (hu.caller_lt hk).2])
    (by simp [Machine.finalize, hu.taskError])
  exact ⟨d, .head (hdrive.trans (hu.step_act hret)) (.head (drive_tick htick (by simp)) hreach), hd⟩

theorem User.propagate (hu : User c f K S (some e)) (he : e.isSet = true)
    (hdrive : c.drive = c.take (.act .propagate)) :
    ∃ d, Reaches c d ∧ Delivered c d f K S ⟨[.raised f e, .finalized f], some e, c.fresh⟩ := by
  have hact : c.m.act f .propagate = some { c.m with ctl := .returned .raise } := by
    simp [Machine.act, hu.ctl]
  have hK : K ≠ .null := by
    rcases hu.awaiter with rfl | ⟨k, rfl, -⟩ <;> simp
  have htick : ({ c.m with ctl := .returned .raise } : Machine).tick =
      some ((Machine.finalize { Machine.setError
        (Machine.emit { c.m with ctl := .returned .raise } (.raised f e)) K e with top := K } f).deliver
          .ready S) := by
    simp [Machine.tick, hu.stack, Machine.afterCallback, Machine.propagate, hu.task, hu.caller, hK]
  have hobj : ∀ i, i ≠ f → K ≠ .obj i → (Machine.finalize { Machine.setError
      (Machine.emit { c.m with ctl := .returned .raise } (.raised f e)) K e with top := K } f).obj i =
        c.m.obj i := fun i hi hKi => by
    rcases hu.awaiter with rfl | ⟨k, rfl, -⟩
    · simp [Machine.finalize, Machine.set_obj_ne _ _ hi, Machine.setError]
    · have hik : i ≠ k := fun hc => hKi (by rw [hc])
      simp [Machine.finalize, Machine.set_obj_ne _ _ hi, Machine.setError, Machine.set_obj_ne _ _ hik]
  obtain ⟨d, hreach, hd⟩ := hu.toHere.finish _ ⟨[.raised f e, .finalized f], some e, c.fresh⟩ rfl
    (by rcases hu.awaiter with rfl | ⟨k, rfl, -⟩ <;> rfl) (by simpa using he) rfl hobj
    (fun k hk => by
      subst hk
      simp [Machine.finalize, Machine.set_obj_ne _ _ (hu.caller_lt rfl).2, Machine.setError])
    (by
      rcases hu.awaiter with rfl | ⟨k, rfl, -⟩
      · simp [Machine.finalize, Machine.setError]
      · simp [Machine.finalize, Machine.setError, hu.taskError])
  exact ⟨d, .head (hdrive.trans (hu.step_act hact)) (.head (drive_tick htick (by simp)) hreach), hd⟩

/-- What a user state changes for the other frames: nothing. -/
structure Same (c d : Config) (f : ObjId) : Prop where
  obj : ∀ i, i ≠ f → d.m.obj i = c.m.obj i
  code : d.code = c.code
  onError : ∀ i, i ≠ f → d.onError i = c.onError i
  fresh : d.fresh = c.fresh

/-- A frame with an error handles it. -/
theorem Here.handled (h : Here c f K S) (hctl : c.m.ctl = .entering)
    (hstack : ∃ g, c.m.stack = ⟨f, g⟩ :: S) (herr : (c.m.obj f).error = e) (he : e.isSet = true) :
    ∃ d, c.drive = some d ∧ User d f K S (some e) ∧ d.m.log = .handled f e :: c.m.log ∧
      Same c d f ∧ d.onError f = c.onError f := by
  obtain ⟨g, hstack⟩ := hstack
  have hpaused : (c.m.obj f).isPaused = false := by simp [Obj.isPaused, h.plain]
  have htick : c.m.tick = some { c.m.set f (fun o => { o with error := .cleared }) with
      stack := ⟨f, some e⟩ :: S, ctl := .handling, log := .handled f e :: c.m.log } := by
    simp [Machine.tick, hctl, hstack, Machine.enter, herr, he, hpaused, Machine.emit]
  refine ⟨_, drive_tick htick (by simp [hctl]), ?_, rfl, ?_, rfl⟩
  · refine { task := by simpa using h.task, caller := by simpa using h.caller,
             plain := by simpa using h.plain, lt := h.lt, new := fun i hi => ?_,
             taskError := h.taskError, awaiter := ?_, below := h.below, error := by simp,
             ctl := rfl, stack := rfl }
    · rw [Machine.set_obj_ne _ _ (Nat.ne_of_gt (Nat.lt_of_lt_of_le h.lt hi))]
      exact h.new i hi
    · rcases h.awaiter with h' | ⟨k, hk, hne, hlt, hkt, hke⟩
      · exact .inl h'
      · refine .inr ⟨k, hk, hne, hlt, ?_, ?_⟩ <;> rwa [Machine.set_obj_ne _ _ hne]
  · exact { obj := fun i hi => by simp [Machine.set_obj_ne _ _ hi], code := rfl,
            onError := fun _ _ => rfl, fresh := rfl }

/-- A frame that throws handles its own error first. -/
theorem User.throw (hu : User c f K S none) (he : e.isSet = true) (h : Handler)
    (hdrive : c.drive = (c.take (.act (.throw e))).map fun d =>
      { d with onError := Function.update d.onError f fun _ => h }) :
    ∃ d, Reaches c d ∧ User d f K S (some e) ∧ d.m.log = .handled f e :: c.m.log ∧
      Same c d f ∧ d.onError f = fun _ => h := by
  have hval : e.value ≠ 0 := by simpa using he
  let m := { c.m.set f (fun o => { o with error := e }) with
    top := .obj f, ctl := .returned .raise }
  let b : Config := { c with m := m, onError := Function.update c.onError f fun _ => h }
  have hact : c.m.act f (.throw e) = some m := by
    simp [m, Machine.act, Machine.asyncThrow, hu.task, hval, Machine.set]
  have hb : c.drive = some b := by rw [hdrive, hu.step_act hact]; rfl
  have hraise : ControlState.stops .raise = false := rfl
  have htick : m.tick = some { m with ctl := .entering } := by
    simp [m, Machine.tick, hu.stack, Machine.afterCallback, hraise, hu.task]
  have hhere : Here { b with m := { m with ctl := .entering } } f K S := by
    refine { task := by simpa [m] using hu.task, caller := by simpa [m] using hu.caller,
             plain := by simpa [m] using hu.plain, lt := hu.lt, new := fun i hi => ?_,
             taskError := hu.taskError, awaiter := ?_, below := hu.below }
    · simp only [m, Machine.set_obj_ne _ _ (Nat.ne_of_gt (Nat.lt_of_lt_of_le hu.lt hi))]
      exact hu.new i hi
    · rcases hu.awaiter with h' | ⟨k, hk, hne, hlt, hkt, hke⟩
      · exact .inl h'
      · refine .inr ⟨k, hk, hne, hlt, ?_, ?_⟩ <;> simpa only [m, Machine.set_obj_ne _ _ hne]
  obtain ⟨d, hd, hud, hlog, hsame, hon⟩ := hhere.handled (e := e) rfl ⟨none, hu.stack⟩
    (by simp [m]) he
  refine ⟨d, .head hb (.head (drive_tick htick (by simp [b, m])) (.single hd)), hud, hlog, ?_, ?_⟩
  · refine { obj := fun i hi => (hsame.obj i hi).trans ?_, code := hsame.code,
             onError := fun i hi => (hsame.onError i hi).trans ?_, fresh := hsame.fresh }
    · simp [m, Machine.set_obj_ne _ _ hi]
    · simp [b, Function.update_of_ne hi]
  · rw [hon]; simp [b]

/-- A wait unwinds the C++ stack. -/
theorem unwinds (c : Config) {st : ControlState} (hst : st = .suspended ∨ st = .yield) :
    ∀ (m : Machine) (a : Activation) (S : List Activation), m.ctl = .returned st →
      m.stack = a :: S →
      Reaches { c with m := m } { c with m := { m with stack := [], ctl := .stopped, state := st } }
  | m, a, S, hctl, hstack => by
    have hstops : st.stops = true ∧ st ≠ .pause ∧ st ≠ .ready := by
      rcases hst with rfl | rfl <;> decide
    have htick : m.tick = some (m.deliver st S) := by
      have hafter : m.afterCallback a st S = m.deliver st S := by
        rcases hst with rfl | rfl <;> cases h : a.handling <;>
          simp [Machine.afterCallback, h, hstops.1]
      simp [Machine.tick, hctl, hstack, hafter]
    have hdrive : Config.drive { c with m := m } = some { c with m := m.deliver st S } :=
      drive_tick htick (by simp [hctl])
    cases S with
    | nil =>
      have hdel : m.deliver st [] = { m with stack := [], ctl := .stopped, state := st } := by
        simp [Machine.deliver, hstops.2.2]
      rw [hdel] at hdrive
      exact .single hdrive
    | cons b S =>
      exact .head hdrive (unwinds c hst { m with stack := b :: S, ctl := .returned st } b S rfl rfl)

/-- The scheduler gets a stopped task to run again, and its top is entered. -/
theorem reschedules (c : Config) (m : Machine) (w : Wait) (hctl : m.ctl = .stopped)
    (htop : m.top = .obj f) (htaskError : m.taskError = {})
    (hstate : m.state = if w = .suspend then .suspended else .yield) :
    ∃ st, Reaches { c with m := m, wait := w } { c with
      m := { m with stack := [⟨f, none⟩], ctl := .entering, state := st }, wait := w } := by
  have hrun : ∀ m : Machine, m.ctl = .running → m.top = .obj f →
      Config.drive { c with m := m, wait := w } =
        some { c with m := { m with stack := [⟨f, none⟩], ctl := .entering }, wait := w } := by
    intro m hm htop
    exact drive_tick (c := { c with m := m, wait := w })
      (by simp [Machine.tick, Machine.runTop, hm, htop]) (by simp [hm])
  have hready : ∀ m : Machine, m.ctl = .stopped → m.top = .obj f → m.state = .ready →
      Config.drive { c with m := m, wait := w } =
        some { c with m := { m with ctl := .running }, wait := w } := by
    intro m hm htop hst
    simp [drive, schedule, take, Machine.step, hm, htop, hst]
  have hresume : ∀ m : Machine, m.ctl = .stopped → m.top = .obj f → m.taskError = {} →
      (m.state = .suspended ∨ m.state = .yield ∧ w ≠ .yield false) →
      Config.drive { c with m := m, wait := w } =
        some { c with m := { m with state := .ready }, wait := w } := by
    intro m hm htop herr hst
    rcases hst with hst | ⟨hst, hw⟩
    · simp [drive, schedule, take, Machine.step, hm, htop, hst, ← herr]
    · rcases w with _ | _ | _
      · simp [drive, schedule, take, Machine.step, hm, htop, hst, ← herr]
      · exact absurd rfl hw
      · simp [drive, schedule, take, Machine.step, hm, htop, hst, ← herr]
  have hscheduled : Config.drive { c with m := m, wait := w } =
        some { c with m := { m with state := .ready }, wait := w } →
      ∃ st, Reaches { c with m := m, wait := w } { c with
        m := { m with stack := [⟨f, none⟩], ctl := .entering, state := st }, wait := w } :=
    fun h => ⟨.ready, .head h (.head (hready { m with state := .ready } hctl htop rfl)
      (.single (hrun { m with state := .ready, ctl := .running } rfl htop)))⟩
  rcases w with _ | _ | _
  · exact hscheduled (hresume m hctl htop htaskError (.inl (by simpa using hstate)))
  · -- the loop goes on with the task without scheduling it
    have hyield : m.state = .yield := by simpa using hstate
    refine ⟨m.state, .head ?_ (.single (hrun { m with ctl := .running } rfl htop))⟩
    simp [drive, schedule, take, Machine.step, hctl, htop, hyield]
  · exact hscheduled (hresume m hctl htop htaskError (.inr ⟨by simpa using hstate, by simp⟩))

theorem User.wait (hu : User c f K S none) (w : Wait) (next : Code)
    (hdrive : c.drive = (c.take (.act (if w = .suspend then .suspend else .yield))).map fun d =>
      { d with code := Function.update d.code f next, wait := w }) :
    ∃ d, Reaches c d ∧ d.m.obj = c.m.obj ∧ d.m.log = .waited f :: c.m.log ∧ d.m.ctl = .entering ∧
      d.m.stack = [⟨f, none⟩] ∧ d.m.taskError = {} ∧ d.code = Function.update c.code f next ∧
      d.onError = c.onError ∧ d.fresh = c.fresh := by
  let st : ControlState := if w = .suspend then .suspended else .yield
  let m : Machine := { c.m with top := .obj f, ctl := .returned st, log := .waited f :: c.m.log }
  let b : Config := { c with m := m, code := Function.update c.code f next, wait := w }
  have hact : c.m.act f (if w = .suspend then .suspend else .yield) = some m := by
    by_cases hw : w = .suspend <;>
      simp [m, st, hw, Machine.act, Machine.asyncWait, hu.task, Machine.emit]
  have hb : c.drive = some b := by rw [hdrive, hu.step_act hact]; rfl
  have hunwind : Reaches b { b with m := { m with stack := [], ctl := .stopped, state := st } } :=
    unwinds b (by by_cases hw : w = .suspend <;> simp [st, hw]) m ⟨f, none⟩ S rfl hu.stack
  obtain ⟨st', hsched⟩ := reschedules (f := f) b
    { m with stack := [], ctl := .stopped, state := st } w rfl rfl hu.taskError rfl
  exact ⟨_, .head hb (hunwind.trans hsched), rfl, rfl, rfl, rfl, hu.taskError, rfl, rfl, rfl⟩

/-- The frame awaits a new one, which is entered inside `async_call`. -/
theorem User.call {h : Option Error} (hu : User c f K S h) {callee next : Code}
    {g : Error → Handler} (hdrive : c.drive = c.callNew f callee next g) :
    ∃ d, c.drive = some d ∧ Ready d c.fresh (.obj f) (⟨f, h⟩ :: S) .start ∧
      d.m.log = .called (.obj f) c.fresh :: c.m.log ∧ d.fresh = c.fresh + 1 ∧
      d.m.obj f = { c.m.obj f with routine := .later } ∧
      (∀ i, i < c.fresh → i ≠ f → d.m.obj i = c.m.obj i) ∧
      d.code = Function.update (Function.update c.code f next) c.fresh callee ∧
      d.onError = Function.update c.onError f g := by
  have hact : c.m.act f (.call c.fresh) = some (c.m.asyncCall f c.fresh) := rfl
  have hne : f ≠ c.fresh := Nat.ne_of_lt hu.lt
  have hf : (c.m.asyncCall f c.fresh).obj f = { c.m.obj f with routine := .later } := by
    simp [Machine.asyncCall, Machine.set_obj_ne _ _ hne]
  have hcallee : (c.m.asyncCall f c.fresh).obj c.fresh = { caller := .obj f, task := true } := by
    simp [Machine.asyncCall, Machine.set_obj_ne _ _ hne.symm, hu.new _ (Nat.le_refl _), hu.task]
  have hother : ∀ i, i ≠ f → i ≠ c.fresh → (c.m.asyncCall f c.fresh).obj i = c.m.obj i :=
    fun i hi hi' => by simp [Machine.asyncCall, Machine.set_obj_ne _ _ hi, Machine.set_obj_ne _ _ hi']
  have hdrive' := hdrive
  rw [callNew, hu.step_act hact] at hdrive'
  refine ⟨_, hdrive', ?_, rfl, rfl, hf, fun i hlt hi => hother i hi (Nat.ne_of_lt hlt), rfl, rfl⟩
  exact {
    task := by simp [hcallee]
    caller := by simp [hcallee]
    plain := by simp [hcallee]
    lt := Nat.lt_succ_self _
    new := fun i hi => by
      have hi' : c.fresh < i := hi
      rw [← hu.new i (Nat.le_of_lt hi')]
      exact hother i (Nat.ne_of_gt (Nat.lt_trans hu.lt hi')) (Nat.ne_of_gt hi')
    taskError := hu.taskError
    awaiter := .inr ⟨f, rfl, hne, Nat.lt_succ_of_lt hu.lt, by simp [hf, hu.task],
      by simp [hf, hu.error]⟩
    below := .inr ⟨f, h, S, rfl, rfl⟩
    error := by simp [hcallee]
    ctl := rfl
    stack := ⟨none, by simp [Machine.asyncCall, hu.stack]⟩
    routine := by simp [hcallee]
    bound := by simp }

/-! ### The program follows its meaning -/

/-- Whatever frame is about to be polled and runs `p`, its outcome is the one `p` means. -/
def RunsCode (p : Code) : Prop :=
  ∀ (c : Config) (f : ObjId) (K : Ptr) (S : List Activation) (r : Routine), Ready c f K S r →
    c.code f = p → ∃ d, Reaches c d ∧ Delivered c d f K S (p.eval f r c.fresh)

/-- The same, for a frame that handles an error. -/
def RunsHandler (h : Handler) : Prop :=
  ∀ (c : Config) (f : ObjId) (K : Ptr) (S : List Activation) (e : Error), User c f K S (some e) →
    e.isSet = true → c.onError f e = h →
    ∃ d, Reaches c d ∧ Delivered c d f K S (h.eval e f c.fresh)

/-- The callee of `f` has delivered its outcome: `f` is entered again. -/
theorem Here.resumed {b : Config} {g : ObjId} {h : Option Error} {o : Outcome} (hc : Here c f K S)
    (hready : Ready b g (.obj f) (⟨f, h⟩ :: S) .start) (hg : g = c.fresh)
    (hb : b.m.obj f = { c.m.obj f with routine := .later })
    (hobj : ∀ i, i < c.fresh → i ≠ f → b.m.obj i = c.m.obj i)
    (hd : Delivered b d g (.obj f) (⟨f, h⟩ :: S) o) :
    ∃ S', (S' = S ∨ S' = []) ∧ Here d f K S' ∧ ∃ a, d.m.stack = ⟨f, a⟩ :: S' := by
  have hle : c.fresh ≤ b.fresh := hg ▸ Nat.le_of_lt hready.lt
  obtain ⟨-, htaskError, ⟨a, hstack⟩, hdf⟩ := hd.toCaller f rfl
  have hf : (d.m.obj f).task = true ∧ (d.m.obj f).caller = K ∧ (d.m.obj f).pausable = false := by
    rw [hdf, hb]
    cases o.error <;> exact ⟨hc.task, hc.caller, hc.plain⟩
  have hhere : ∀ S', S' = S ∨ S' = [] → Here d f K S' := fun S' hS => {
    task := hf.1, caller := hf.2.1, plain := hf.2.2
    lt := Nat.lt_of_lt_of_le hc.lt (Nat.le_trans hle hd.le)
    new := hd.new
    taskError := htaskError
    awaiter := by
      rcases hc.awaiter with rfl | ⟨k, rfl, hne, hlt, hk⟩
      · exact .inl rfl
      · refine .inr ⟨k, rfl, hne, Nat.lt_of_lt_of_le hlt (Nat.le_trans hle hd.le), ?_⟩
        rw [hd.frame k (Nat.lt_of_lt_of_le hlt hle) (hg ▸ Nat.ne_of_lt hlt)
          (by simpa using hne.symm), hobj k hlt hne]
        exact hk
    below := by
      rcases hS with rfl | rfl
      · exact hc.below
      · exact .inl rfl }
  rcases hstack with hstack | hstack
  · exact ⟨[], .inr rfl, hhere [] (.inr rfl), a, hstack⟩
  · exact ⟨S, .inl rfl, hhere S (.inl rfl), a, hstack⟩

/-- What comes after an await is what its callee's outcome leads to. -/
theorem User.awaits {h : Option Error} (hu : User c f K S h) {callee next : Code}
    {g : Error → Handler} (hcallee : RunsCode callee) (hnext : RunsCode next)
    (hg : ∀ e, RunsHandler (g e)) (hdrive : c.drive = c.callNew f callee next g) :
    ∃ d, Reaches c d ∧ Delivered c d f K S (awaited callee next g f c.fresh) := by
  obtain ⟨b, hcb, hready, hlog, hfresh, hbf, hbobj, hbcode, hbon⟩ := hu.call hdrive
  have hK : ∀ k, K = .obj k → k < c.fresh ∧ k ≠ f := fun k hk => hu.caller_lt hk
  have hfg : f ≠ c.fresh := Nat.ne_of_lt hu.lt
  obtain ⟨d, hbd, hd⟩ := hcallee b c.fresh _ _ _ hready (by simp [hbcode])
  rw [hfresh] at hd
  unfold awaited
  dsimp only
  generalize callee.eval c.fresh .start (c.fresh + 1) = o at hd ⊢
  have hle : c.fresh ≤ d.fresh := Nat.le_trans (by rw [hfresh]; exact Nat.le_succ _) hd.le
  have hdlog : d.m.log = (.called (.obj f) c.fresh :: o.events).reverse ++ c.m.log := by
    rw [hd.log, hlog]
    simp
  have hdobj : ∀ i, i < c.fresh → i ≠ f → d.m.obj i = c.m.obj i := fun i hi hif => by
    rw [hd.frame i (by rw [hfresh]; exact Nat.lt_succ_of_lt hi) (Nat.ne_of_lt hi)
      (by simpa using hif.symm), hbobj i hi hif]
  have hdprog : ∀ i, i < c.fresh → (d.code i = Function.update c.code f next i ∧
      d.onError i = Function.update c.onError f g i) := fun i hi => by
    have hi' : i ≠ c.fresh := Nat.ne_of_lt hi
    have h := hd.program i (by rw [hfresh]; exact Nat.lt_succ_of_lt hi) hi'
    rw [hbcode, hbon, Function.update_of_ne hi'] at h
    exact h
  have hdprog' : ∀ i, i < c.fresh → i ≠ f → d.code i = c.code i ∧ d.onError i = c.onError i :=
    fun i hi hif => by simpa [Function.update_of_ne hif] using hdprog i hi
  obtain ⟨hctl, -, -, hdf⟩ := hd.toCaller f rfl
  obtain ⟨S', hS, hhere, a, hstack⟩ := hu.toHere.resumed hready rfl hbf hbobj hd
  rw [hbf] at hdf
  cases herr : o.error with
  | none =>
    have hf : d.m.obj f = { c.m.obj f with routine := .later } := by simpa [herr] using hdf
    have hready' : Ready d f K S' .later := {
      hhere with
      error := by simp [hf, hu.error], ctl := hctl, stack := ⟨a, hstack⟩
      routine := by simp [hf], bound := by simp }
    obtain ⟨d', hdd', hd'⟩ := hnext d f K S' .later hready' (by simp [(hdprog f hu.lt).1])
    rw [hd.fresh] at hd'
    exact ⟨d', .head hcb (hbd.trans hdd'), (hd'.of_unwound hS).after _ hdlog hle hdobj hdprog' hK⟩
  | some e =>
    have hf : (d.m.obj f).error = e := by simp [hdf, herr]
    have he : e.isSet = true := hd.error e herr
    obtain ⟨b', hb', hub', hlog', hsame, hon⟩ := hhere.handled hctl ⟨a, hstack⟩ hf he
    obtain ⟨d', hdd', hd'⟩ := hg e b' f K S' e hub' he (by simp [hon, (hdprog f hu.lt).2])
    rw [hsame.fresh, hd.fresh] at hd'
    refine ⟨d', .head hcb (hbd.trans (.head hb' hdd')), ?_⟩
    have hafter : Delivered d d' f K S (((g e).eval e f o.fresh).after [.handled f e]) :=
      (hd'.of_unwound hS).after [.handled f e] hlog' (Nat.le_of_eq hsame.fresh.symm)
        (fun i _ hi => hsame.obj i hi) (fun i _ hi => ⟨by rw [hsame.code], hsame.onError i hi⟩)
        (fun k hk => hhere.caller_lt hk)
    exact hafter.after _ hdlog hle hdobj hdprog' hK

theorem User.drive (hu : User c f K S none) : c.drive = c.driveCode f (c.code f) := by
  have hctl : c.m.ctl = .polling := hu.ctl
  simp only [Config.drive, hctl, hu.stack]

theorem User.drive_handling (hu : User c f K S (some e)) :
    c.drive = c.driveHandler f (c.onError f e) := by
  have hctl : c.m.ctl = .handling := hu.ctl
  simp only [Config.drive, hctl, hu.stack]

mutual

theorem code_runs : ∀ p : Code, RunsCode p
  | .ret => fun c f K S r h hcode => by
    obtain ⟨b, hcb, hu, hlog, hobj, hbcode, hon, hfresh⟩ := h.polled
    obtain ⟨d, hbd, hd⟩ := hu.ret (by rw [hu.drive, hbcode, hcode]; rfl)
    rw [hfresh] at hd
    exact ⟨d, .head hcb hbd, hd.after [.polled f r] hlog
      (Nat.le_of_eq hfresh.symm) (fun i _ _ => by rw [hobj]) (fun i _ _ => by simp [hbcode, hon])
      fun k hk => h.caller_lt hk⟩
  | .throw e he g => fun c f K S r h hcode => by
    obtain ⟨b, hcb, hu, hlog, hobj, hbcode, hon, hfresh⟩ := h.polled
    obtain ⟨a, hba, hua, hlog', hsame, hon'⟩ :=
      hu.throw he g (by rw [hu.drive, hbcode, hcode]; rfl)
    obtain ⟨d, had, hd⟩ := handler_runs g a f K S e hua he (by rw [hon'])
    rw [hsame.fresh, hfresh] at hd
    exact ⟨d, .head hcb (hba.trans had), hd.after [.polled f r, .handled f e]
      (by rw [hlog', hlog]; rfl) (Nat.le_of_eq (by rw [hsame.fresh, hfresh]))
      (fun i _ hi => by rw [hsame.obj i hi, hobj])
      (fun i _ hi => by rw [hsame.code, hsame.onError i hi, hbcode, hon]; exact ⟨rfl, rfl⟩)
      fun k hk => h.caller_lt hk⟩
  | .await callee next g => fun c f K S r h hcode => by
    obtain ⟨b, hcb, hu, hlog, hobj, hbcode, hon, hfresh⟩ := h.polled
    obtain ⟨d, hbd, hd⟩ := hu.awaits (code_runs callee) (code_runs next)
      (fun e => handler_runs (g e)) (by rw [hu.drive, hbcode, hcode]; rfl)
    rw [hfresh] at hd
    rw [Code.eval_await]
    exact ⟨d, .head hcb hbd, hd.after [.polled f r] hlog (Nat.le_of_eq hfresh.symm)
      (fun i _ _ => by rw [hobj]) (fun i _ _ => by simp [hbcode, hon]) fun k hk => h.caller_lt hk⟩
  | .wait w next => fun c f K S r h hcode => by
    obtain ⟨b, hcb, hu, hlog, hobj, hbcode, hon, hfresh⟩ := h.polled
    obtain ⟨a, hba, haobj, halog, hactl, hastack, haerr, hacode, haon, hafresh⟩ :=
      hu.wait w next (by rw [hu.drive, hbcode, hcode]; rfl)
    have hready : Ready a f K [] r := {
      task := by simp [haobj, hobj, h.task], caller := by simp [haobj, hobj, h.caller]
      plain := by simp [haobj, hobj, h.plain], lt := by rw [hafresh, hfresh]; exact h.lt
      new := fun i hi => by rw [haobj, hobj]; exact h.new i (by rwa [hafresh, hfresh] at hi)
      taskError := haerr, awaiter := by rw [haobj, hobj, hafresh, hfresh]; exact h.awaiter
      below := .inl rfl, error := by simp [haobj, hobj, h.error], ctl := hactl
      stack := ⟨none, hastack⟩, routine := by simp [haobj, hobj, h.routine], bound := h.bound }
    obtain ⟨d, had, hd⟩ := code_runs next a f K [] r hready (by simp [hacode])
    rw [hafresh, hfresh] at hd
    refine ⟨d, .head hcb (hba.trans had), ?_⟩
    exact (hd.of_unwound (.inr rfl)).after [.polled f r, .waited f] (by rw [halog, hlog]; rfl)
      (Nat.le_of_eq (by rw [hafresh, hfresh])) (fun i _ _ => by rw [haobj, hobj])
      (fun i _ hi => by simp [hacode, hbcode, haon, hon, Function.update_of_ne hi])
      fun k hk => h.caller_lt hk

theorem handler_runs : ∀ h : Handler, RunsHandler h
  | .propagate => fun c f K S e hu he hon => by
    exact hu.propagate he (by rw [hu.drive_handling, hon]; rfl)
  | .ret => fun c f K S e hu he hon => by
    exact hu.ret (by rw [hu.drive_handling, hon]; rfl)
  | .await callee next g => fun c f K S e hu he hon => by
    rw [Handler.eval_await]
    exact hu.awaits (code_runs callee) (code_runs next) (fun e => handler_runs (g e))
      (by rw [hu.drive_handling, hon]; rfl)

end

end Config

end Jinx.Await
