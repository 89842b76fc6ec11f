import Jinx.Await.Bottom

/-! An error that `handle_error` raises itself.

    `Awaitable::run` moves the stored error into a local, calls `handle_error` with it, and hands the
    local to the caller. What the handler has stored meanwhile, by `async_throw`, is cleared by the
    finalizer. So the frames below see the first error, whatever the handler has made of it.

    The caller of a frame need not be the one that runs it: a frame that has paused may stand between
    them. It gets the error then and becomes `_top`, and the activations that are left find that `_top`
    is not theirs, so that all of them are finalized before the error comes to them. -/

namespace Jinx.Await

open LinkedList

/-! ### What a run shows next -/

/-- How an error that is given to `_caller` shows. -/
def shown : Ptr → Error → Event
  | .obj g, e => .handled g e
  | _, e => .exited e

/-- Somebody gets an error. -/
def Event.delivers : Event → Bool
  | .handled _ _ => true
  | .exited _ => true
  | _ => false

def Event.exits : Event → Bool
  | .exited _ => true
  | _ => false

/-- The library goes on, and where `handle_error` is called, it is the one of the base class. -/
def Label.Unattended (l : Label) : Prop := l = .tick ∨ l = .act .propagate

/-- A run in which nobody attends to errors. -/
def Drifts (s t : Machine) : Prop := ∃ ls, (∀ k ∈ ls, k.Unattended) ∧ s.exec ls = some t

/-- After `l`, and without anybody attending to errors, `ev` is the next event of its kind. -/
def Leads (kind : Event → Bool) (s : Machine) (l : Label) (ev : Event) : Prop :=
  ∃ m t es, s.step l = some m ∧ Drifts m t ∧ t.log = ev :: (es ++ s.log) ∧ ∀ e ∈ es, kind e = false

/-- What `async_throw` stores. -/
def thrown (e : Error) : Error := if e.value = 0 then makeError .invalidErrorCode else e

variable {s t u : Machine} {f g : ObjId} {e : Error} {rest : List Activation} {frames : List ObjId}
  {kind : Event → Bool} {l : Label}

/-- The library and user code are not in control at once. -/
theorem unattended_one (s : Machine) (a b : Label) (t u : Machine) (ha : a.Unattended)
    (hb : b.Unattended) (ht : s.step a = some t) (hu : s.step b = some u) : a = b := by
  have hnever : ∀ t u, s.step .tick = some t → s.step (.act .propagate) = some u → False := by
    intro t u ht hu
    simp only [Machine.step] at ht hu
    split at hu
    · cases hu
    · rename_i c rest hstack
      simp only [Machine.userCode, Bool.or_eq_true, decide_eq_true_eq,
        Option.ite_none_right_eq_some] at hu
      obtain ⟨hctl | hctl, -⟩ := hu <;> simp [Machine.tick, hctl] at ht
  rcases ha with rfl | rfl <;> rcases hb with rfl | rfl
  · rfl
  · exact (hnever t u ht hu).elim
  · exact (hnever u t hu ht).elim
  · rfl

/-- Of two events of the kind, the one that is logged first is the same in both logs. -/
theorem first_event {ev ev' : Event} {es es' log : List Event} (hkind : kind ev = true)
    (hes : ∀ e ∈ es', kind e = false) (h : ev :: (es ++ log) <:+ ev' :: (es' ++ log)) : ev = ev' := by
  obtain ⟨X, hX⟩ := h
  have hlog : (X ++ ev :: es) ++ log = (ev' :: es') ++ log := by simpa using hX
  have hX' : X ++ ev :: es = ev' :: es' := List.append_cancel_right hlog
  cases X with
  | nil => exact (List.cons.inj hX').1
  | cons x X =>
    have hmem : ev ∈ es' := by
      rw [← (List.cons.inj hX').2]
      simp
    rw [hes ev hmem] at hkind
    cases hkind

theorem Drifts.refl (s : Machine) : Drifts s s := ⟨[], by simp, rfl⟩

theorem Drifts.cons (hl : l.Unattended) (h : s.step l = some t) (htu : Drifts t u) : Drifts s u := by
  obtain ⟨ls, hls, hu⟩ := htu
  refine ⟨l :: ls, fun k hk => ?_, Runs.exec_cons.mpr ⟨t, h, hu⟩⟩
  rcases List.mem_cons.mp hk with rfl | hk
  · exact hl
  · exact hls k hk

theorem Drifts.tick (h : s.tick = some t) (htu : Drifts t u) : Drifts s u := htu.cons (.inl rfl) h

theorem Drifts.trans (h : Drifts s t) (h' : Drifts t u) : Drifts s u := by
  obtain ⟨ls, hls, ht⟩ := h
  obtain ⟨ls', hls', hu⟩ := h'
  refine ⟨ls ++ ls', fun k hk => ?_, Runs.exec_trans ht hu⟩
  rcases List.mem_append.mp hk with hk | hk
  · exact hls k hk
  · exact hls' k hk

theorem Leads.unique {ev ev' : Event} (h : Leads kind s l ev) (h' : Leads kind s l ev')
    (hev : kind ev = true) (hev' : kind ev' = true) : ev = ev' := by
  obtain ⟨m, t, es, hm, ⟨ls, hls, ht⟩, hlog, hes⟩ := h
  obtain ⟨m', t', es', hm', ⟨ls', hls', ht'⟩, hlog', hes'⟩ := h'
  obtain rfl : m = m' := Option.some.inj (hm.symm.trans hm')
  rcases Runs.exec_comparable unattended_one ls ls' m t t' hls hls' ht ht' with ⟨cs, hcs⟩ | ⟨cs, hcs⟩
  · have hsuffix := Machine.exec_log cs t t' hcs
    rw [hlog, hlog'] at hsuffix
    exact first_event hev hes' hsuffix
  · have hsuffix := Machine.exec_log cs t' t hcs
    rw [hlog, hlog'] at hsuffix
    exact (first_event hev' hes hsuffix).symm

theorem crashed_stuck (hctl : u.ctl = .crashed) (l : Label) : u.step l = none := by
  cases l with
  | act a => cases hstack : u.stack <;> simp [Machine.step, Machine.userCode, hctl, hstack]
  | _ => simp [Machine.step, Machine.tick, Machine.userCode, hctl]

/-- A run in which nobody attends to errors, and in which the task does not exit. -/
def Drops (s t : Machine) : Prop :=
  Drifts s t ∧ ∃ es, t.log = es ++ s.log ∧ ∀ ev ∈ es, ev.exits = false

theorem Drops.refl (s : Machine) : Drops s s := ⟨.refl s, [], rfl, by simp⟩

theorem Drops.trans (h : Drops s t) (h' : Drops t u) : Drops s u := by
  obtain ⟨hst, es, hlog, hes⟩ := h
  obtain ⟨htu, es', hlog', hes'⟩ := h'
  refine ⟨hst.trans htu, es' ++ es, by rw [hlog', hlog, List.append_assoc], fun ev hev => ?_⟩
  exact (List.mem_append.mp hev).elim (hes' ev) (hes ev)

theorem Drops.tick (h : s.tick = some t) (es : List Event) (hlog : t.log = es ++ s.log)
    (hes : ∀ ev ∈ es, ev.exits = false) : Drops s t :=
  ⟨.tick h (.refl t), es, hlog, hes⟩

/-- With nobody attending to errors a null pointer is followed before the task exits. -/
def Fails (s : Machine) : Prop := ∃ u, Drops s u ∧ u.ctl = .crashed

theorem Fails.after (h : Drops s t) (h' : Fails t) : Fails s := by
  obtain ⟨u, hu, hctl⟩ := h'
  exact ⟨u, h.trans hu, hctl⟩

/-- The task does not exit with any error then. -/
theorem Fails.not_leads {ev : Event} (hm : s.step l = some t) (hlog : t.log = s.log) (h : Fails t)
    (hev : ev.exits = true) : ¬ Leads Event.exits s l ev := by
  rintro ⟨m, v, es, hm', ⟨ls, hls, hv⟩, hlogv, -⟩
  obtain rfl : t = m := Option.some.inj (hm.symm.trans hm')
  obtain ⟨u, ⟨⟨ls', hls', hu⟩, es', hlogu, hes'⟩, hctl⟩ := h
  have hsuffix : v.log <:+ u.log := by
    rcases Runs.exec_comparable unattended_one ls ls' t v u hls hls' hv hu with ⟨cs, hcs⟩ | ⟨cs, hcs⟩
    · exact Machine.exec_log cs v u hcs
    · cases cs with
      | nil =>
        obtain rfl := Option.some.inj hcs
        exact List.suffix_refl _
      | cons c cs =>
        obtain ⟨m, hm, -⟩ := Runs.exec_cons.mp hcs
        rw [crashed_stuck hctl c] at hm
        cases hm
  obtain ⟨X, hX⟩ := hsuffix
  have hcut : (X ++ ev :: es) ++ s.log = es' ++ s.log := by
    rw [← hlog, ← hlogu, ← hX, hlogv, hlog]
    simp
  have hmem : ev ∈ es' := by
    rw [← List.append_cancel_right hcut]
    simp
  rw [hes' ev hmem] at hev
  cases hev

/-! ### A stack of awaitables -/

namespace Machine

/-- The frames of the task from the innermost one on, each awaited by the next. Those that are run are
    among them: a frame that is paused may stand between one and the frame that runs it. -/
structure Framed (s : Machine) (frames : List ObjId) : Prop where
  links : Links s.callers .obj .task s.current frames
  nodup : frames.Nodup
  order : (s.stack.map (·.self)).Sublist frames

/-- The frames all belong to the task, and those that are run are the first ones, each inline in the
    next. -/
structure Nested (s : Machine) (frames : List ObjId) : Prop where
  links : Links s.callers .obj .task s.current frames
  nodup : frames.Nodup
  task : ∀ f ∈ frames, (s.obj f).task = true
  inline : s.stack.map (·.self) <+: frames

theorem Nested.of_framed (h : Framed s frames) (htask : ∀ f ∈ frames, (s.obj f).task = true)
    (hinline : s.stack.map (·.self) <+: frames) : Nested s frames :=
  ⟨h.links, h.nodup, htask, hinline⟩

/-- Both are about the pointers and the stack. -/
theorem Framed.congr {a : Activation} (h : Framed s frames) (hstack : s.stack = a :: rest)
    (hstack' : t.stack = a :: rest) (hcallers : t.callers = s.callers) : Framed t frames := by
  have horder := h.order
  refine ⟨?_, h.nodup, by rwa [hstack', ← hstack]⟩
  rw [hcallers, show t.current = s.current by rw [current, hstack', current, hstack]]
  exact h.links

theorem Nested.congr {a : Activation} (h : Nested s frames) (hstack : s.stack = a :: rest)
    (hstack' : t.stack = a :: rest) (hcallers : t.callers = s.callers)
    (htask : ∀ i, (t.obj i).task = (s.obj i).task) : Nested t frames := by
  have hframed : Framed t frames :=
    Framed.congr ⟨h.links, h.nodup, h.inline.sublist⟩ hstack hstack' hcallers
  have hinline := h.inline
  exact .of_framed hframed (fun i hi => (htask i).trans (h.task i hi)) (by rwa [hstack', ← hstack])

theorem Nested.head_eq (h : Nested s (f :: frames)) {a : Activation} (hstack : s.stack = a :: rest) :
    a.self = f ∧ rest.map (·.self) <+: frames := by
  have hinline := h.inline
  rw [hstack, List.map_cons, List.cons_prefix_cons] at hinline
  exact hinline

/-- The state after `propagate`, up to where control goes on. -/
def raised (s : Machine) (f : ObjId) (e : Error) : Machine :=
  ({ (s.emit (.raised f e)).setError (s.obj f).caller e with top := (s.obj f).caller }).finalize f

theorem propagate_eq (htask : (s.obj f).task = true) (hcaller : (s.obj f).caller ≠ .null) (e : Error)
    (rest : List Activation) : s.propagate f e rest = (s.raised f e).deliver .ready rest := by
  simp [propagate, htask, hcaller, raised]

/-- The loop body ends with the error on its way to the caller. -/
theorem tick_raise (htask : (s.obj f).task = true) (hcaller : (s.obj f).caller ≠ .null)
    (hstack : s.stack = ⟨f, some e⟩ :: rest)
    (hctl : s.ctl = .returned .raise ∨ s.ctl = .returned .passthrough) :
    s.tick = some ((s.raised f e).deliver .ready rest) := by
  have hpropagate := propagate_eq htask hcaller e rest
  rcases hctl with hctl | hctl <;> simp [tick, hctl, hstack, afterCallback, hpropagate]

theorem raised_obj (s : Machine) (f : ObjId) (e : Error) (hg : g ≠ f) :
    (s.raised f e).obj g =
      if (s.obj f).caller = .obj g then { s.obj g with error := e } else s.obj g := by
  cases hc : (s.obj f).caller <;> simp [raised, hc, setError, finalize, set, hg, crash, eq_comm]

theorem raised_callers (s : Machine) (f : ObjId) (e : Error) : (s.raised f e).callers = s.callers := by
  funext i
  by_cases hi : i = f
  · subst hi
    cases hc : (s.obj i).caller <;> simp [callers, raised, hc, setError, finalize, set, crash]
    split <;> simp [hc]
  · rw [callers, raised_obj s f e hi, callers]
    split <;> rfl

theorem raised_task (s : Machine) (e : Error) (hg : g ≠ f) :
    ((s.raised f e).obj g).task = (s.obj g).task := by
  rw [raised_obj s f e hg]
  split <;> rfl

theorem raised_top (s : Machine) (f : ObjId) (e : Error) : (s.raised f e).top = (s.obj f).caller := rfl

theorem raised_log (s : Machine) (f : ObjId) (e : Error) :
    (s.raised f e).log = .finalized f :: .raised f e :: s.log := by
  simp [raised, finalize]

/-- The frame has taken its error, and `handle_error` is called with it. -/
def given (s : Machine) (g : ObjId) (rest : List Activation) : Machine :=
  ({ s.set g (fun o => { o with error := .cleared }) with
      stack := ⟨g, some (s.obj g).error⟩ :: rest } : Machine).emit (.handled g (s.obj g).error)

theorem enter_given (hset : (s.obj g).error.isSet = true) (rest : List Activation) :
    s.enter g rest = { s.given g rest with
      ctl := if (s.obj g).isPaused then .returned .passthrough else .handling } := by
  simp [enter, given, hset]

theorem given_quiet (s : Machine) (g : ObjId) (rest : List Activation) : Quiet s (s.given g rest) :=
  Quiet.of_obj g (fun i hi => by simp [given, set_obj_ne s _ hi]) (by simp [given]) (by simp [given])
    (by simp [given]) ⟨[.handled g (s.obj g).error], rfl, by simp [Event.quiet]⟩

theorem given_obj (s : Machine) (g i : ObjId) (rest : List Activation) :
    ((s.given g rest).obj i).task = (s.obj i).task ∧
      ((s.given g rest).obj i).routine = (s.obj i).routine := by
  rcases eq_or_ne i g with rfl | hi
  · simp [given]
  · simp [given, set_obj_ne s _ hi]

/-- An activation that finds an error in its frame calls `handle_error`. -/
theorem tick_error {b : Activation} (hctl : s.ctl = .entering) (hstack : s.stack = b :: rest)
    (hb : b.self = g) (he : (s.obj g).error = e) (hset : e.isSet = true) :
    ∃ t, s.tick = some t ∧ t.log = .handled g e :: s.log ∧ t.stack = ⟨g, some e⟩ :: rest ∧
      (t.ctl = .handling ∨ t.ctl = .returned .passthrough) ∧ t.callers = s.callers ∧
      ∀ i, (t.obj i).task = (s.obj i).task := by
  subst he
  refine ⟨s.enter g rest, by simp [tick, hctl, hstack, hb], ?_⟩
  rw [enter_given hset]
  refine ⟨rfl, rfl, ?_, (given_quiet s g rest).callers, fun i => (given_obj s g i rest).1⟩
  by_cases hp : (s.obj g).isPaused = true <;> simp [hp]

/-- A frame that does not attend to its error gives it on. -/
theorem gives_on (hstack : s.stack = ⟨f, some e⟩ :: rest)
    (hctl : s.ctl = .handling ∨ s.ctl = .returned .passthrough) :
    ∃ t, Drops s t ∧ t.obj = s.obj ∧ t.stack = ⟨f, some e⟩ :: rest ∧ t.log = s.log ∧
      (t.ctl = .returned .raise ∨ t.ctl = .returned .passthrough) := by
  rcases hctl with hctl | hctl
  · have hact : s.step (.act .propagate) = some { s with ctl := .returned .raise } := by
      simp [Machine.step, hstack, userCode, hctl, Machine.act]
    exact ⟨_, ⟨(Drifts.refl _).cons (.inr rfl) hact, [], rfl, by simp⟩, rfl, hstack, rfl, .inl rfl⟩
  · exact ⟨s, .refl s, rfl, hstack, rfl, .inr hctl⟩

/-- The caller of the frame finds the error, whether it runs the frame inline or not. -/
theorem Nested.raise_obj (h : Nested s (f :: g :: frames)) (hstack : s.stack = ⟨f, some e⟩ :: rest)
    (hctl : s.ctl = .returned .raise ∨ s.ctl = .returned .passthrough) (he : e.isSet = true) :
    ∃ t rest', Drifts s t ∧ t.log = .handled g e :: .finalized f :: .raised f e :: s.log ∧
      t.stack = ⟨g, some e⟩ :: rest' ∧ (t.ctl = .handling ∨ t.ctl = .returned .passthrough) ∧
      Nested t (g :: frames) := by
  obtain ⟨-, hrest⟩ := h.head_eq hstack
  have hcaller : (s.obj f).caller = .obj g := h.links.2.1
  have hgf : g ≠ f := fun hgf => (List.nodup_cons.mp h.nodup).1 (hgf ▸ List.mem_cons_self)
  have hraise := tick_raise (h.task f List.mem_cons_self) (by simp [hcaller]) hstack hctl
  have herror : ((s.raised f e).obj g).error = e := by
    rw [raised_obj s f e hgf, if_pos hcaller]
  have htop : (s.raised f e).top = .obj g := hcaller
  -- the caller is about to look for an error, on top of the stack that is left
  obtain ⟨b, rest', hnext, hrest', hb⟩ : ∃ b rest',
      ((s.raised f e).deliver .ready rest).tick =
          some { s.raised f e with stack := b :: rest', ctl := .entering } ∧
        rest'.map (·.self) <+: frames ∧ b.self = g := by
    cases rest with
    | nil =>
      refine ⟨⟨g, none⟩, [], ?_, List.nil_prefix, rfl⟩
      simp [deliver, tick, runTop, htop]
    | cons b rest' =>
      rw [List.map_cons, List.cons_prefix_cons] at hrest
      obtain ⟨hb, hrest'⟩ := hrest
      refine ⟨b, rest', ?_, hrest', hb⟩
      have htask : ((s.raised f e).obj g).task = true := by
        rw [raised_task s e hgf]
        exact h.task g (by simp)
      have hstops : ControlState.stops .ready = false := rfl
      simp [deliver, tick, afterCallback, hb, htop, htask, hstops]
  obtain ⟨t, henter, hlog, hstack', hctl', hcallers, htask⟩ :=
    tick_error (s := { s.raised f e with stack := b :: rest', ctl := .entering }) rfl rfl hb herror he
  refine ⟨t, rest', .tick hraise (.tick hnext (.tick henter (.refl _))), hlog.trans ?_, hstack', hctl',
    ?_⟩
  · rw [← raised_log s f e]
  · refine ⟨?_, (List.nodup_cons.mp h.nodup).2, fun i hi => ?_, ?_⟩
    · have hlinks := h.links.2
      rw [hcallers, current, hstack']
      rw [show s.callers f = .obj g from hcaller] at hlinks
      rwa [show ({ s.raised f e with stack := b :: rest', ctl := .entering } : Machine).callers =
        (s.raised f e).callers from rfl, raised_callers]
    · have hif : i ≠ f := fun hif => (List.nodup_cons.mp h.nodup).1 (hif ▸ hi)
      rw [htask]
      exact (raised_task s e hif).trans (h.task i (List.mem_cons_of_mem f hi))
    · rw [hstack', List.map_cons, List.cons_prefix_cons]
      exact ⟨rfl, hrest'⟩

/-- The entry has nobody below: the task exits. -/
theorem Nested.raise_task (h : Nested s [f]) (hstack : s.stack = ⟨f, some e⟩ :: rest)
    (hctl : s.ctl = .returned .raise ∨ s.ctl = .returned .passthrough) :
    ∃ t, Drifts s t ∧ t.log = .exited e :: .finalized f :: .raised f e :: s.log := by
  obtain ⟨-, hrest⟩ := h.head_eq hstack
  obtain rfl : rest = [] := by simpa using hrest
  have hcaller : (s.obj f).caller = .task := h.links.2
  have hraise := tick_raise (h.task f List.mem_cons_self) (by simp [hcaller]) hstack hctl
  have htop : (s.raised f e).top = .task := hcaller
  have herror : (s.raised f e).taskError = e := by
    simp [raised, hcaller, setError, finalize]
  have hnext : ((s.raised f e).deliver .ready []).tick =
      some ({ s.raised f e with
        stack := [], top := .null, state := .exited, ctl := .stopped }.emit (.exited e)) := by
    simp [deliver, tick, runTop, htop, herror]
  refine ⟨_, .tick hraise (.tick hnext (.refl _)), ?_⟩
  simp [raised_log]

/-- By induction on the frames below: with nobody attending to it, the error ends the task. -/
theorem Nested.exits (h : Nested s (f :: frames)) (hstack : s.stack = ⟨f, some e⟩ :: rest)
    (hctl : s.ctl = .returned .raise ∨ s.ctl = .returned .passthrough) (he : e.isSet = true) :
    ∃ t es, Drifts s t ∧ t.log = .exited e :: (es ++ s.log) ∧ ∀ ev ∈ es, ev.exits = false := by
  induction frames generalizing s f rest with
  | nil =>
    obtain ⟨t, ht, hlog⟩ := h.raise_task hstack hctl
    exact ⟨t, [.finalized f, .raised f e], ht, hlog, by simp [Event.exits]⟩
  | cons g frames ih =>
    obtain ⟨t, rest', ht, hlog, hstack', hctl', hn⟩ := h.raise_obj hstack hctl he
    obtain ⟨u, ⟨hu, -⟩, hobj, hstacku, hlogu, hctlu⟩ := gives_on hstack' hctl'
    have hnu : Nested u (g :: frames) :=
      hn.congr hstack' hstacku (by unfold callers; rw [hobj]) (fun i => by rw [hobj])
    obtain ⟨v, es, hv, hlogv, hes⟩ := ih hnu hstacku hctlu
    refine ⟨v, es ++ [.handled g e, .finalized f, .raised f e], ht.trans (hu.trans hv), ?_, ?_⟩
    · rw [hlogv, hlogu, hlog]
      simp
    · intro ev hev
      rcases List.mem_append.mp hev with hev | hev
      · exact hes ev hev
      · simp only [List.mem_cons, List.not_mem_nil, or_false] at hev
        rcases hev with rfl | rfl | rfl <;> rfl

/-! ### A paused frame between an inline frame and its awaiter -/

/-- Activations that `_top` does not point to are finalized, from the innermost one to `Task::run`. -/
theorem unwinds (htop : s.top = .obj g) (hg : g ∉ rest.map (·.self)) :
    Fails (s.deliver .ready rest) ∨ ∃ t, Drops (s.deliver .ready rest) t ∧ t.ctl = .running ∧
      t.top = .obj g ∧ t.callers = s.callers ∧ t.obj g = s.obj g ∧
      ∀ i, (t.obj i).task = true → (s.obj i).task = true ∧ i ∉ rest.map (·.self) := by
  induction rest generalizing s with
  | nil =>
    exact .inr ⟨_, .refl _, rfl, htop, rfl, rfl, fun i hi => ⟨hi, List.not_mem_nil⟩⟩
  | cons b rest ih =>
    rw [List.map_cons, List.mem_cons, not_or] at hg
    obtain ⟨hgb, hg⟩ := hg
    have hstops : ControlState.stops .ready = false := rfl
    by_cases hb : (s.obj b.self).task = true
    · have hnext : (s.deliver .ready (b :: rest)).tick =
          some (((s.deliver .ready (b :: rest)).finalize b.self).deliver .ready rest) := by
        simp [deliver, tick, afterCallback, hstops, hb, htop, hgb]
      have hdrop :=
        Drops.tick hnext [.finalized b.self] (by rw [deliver_log]; rfl) (by simp [Event.exits])
      rcases ih (s := (s.deliver .ready (b :: rest)).finalize b.self) htop hg with
        hfails | ⟨t, ht, hctl, htop', hcallers, hobj, htask⟩
      · exact .inl (.after hdrop hfails)
      · refine .inr ⟨t, hdrop.trans ht, hctl, htop', ?_, ?_, fun i hi => ?_⟩
        · rw [hcallers]
          exact (Quiet.finalize (s.deliver .ready (b :: rest)) b.self).callers
        · rw [hobj]
          simp [finalize, set_obj, hgb, deliver]
        · obtain ⟨hi', hrest⟩ := htask i hi
          have hib : i ≠ b.self := by
            rintro rfl
            simp [finalize] at hi'
          refine ⟨?_, ?_⟩
          · simpa [finalize, set_obj, hib, deliver] using hi'
          · rw [List.map_cons, List.mem_cons, not_or]
            exact ⟨hib, hrest⟩
    · left
      have hnext : (s.deliver .ready (b :: rest)).tick = some (s.deliver .ready (b :: rest)).crash := by
        simp [deliver, tick, afterCallback, hstops, hb]
      exact ⟨_, .tick hnext [] rfl (by simp), rfl⟩

/-- A frame that does not belong to the task any more has no task to give the error to. -/
theorem fails_finalized (htask : (s.obj f).task ≠ true) (hstack : s.stack = ⟨f, some e⟩ :: rest)
    (hctl : s.ctl = .returned .raise ∨ s.ctl = .returned .passthrough) : Fails s := by
  have hnext : s.tick = some s.crash := by
    rcases hctl with hctl | hctl <;> simp [tick, hctl, hstack, afterCallback, propagate, htask]
  exact ⟨_, .tick hnext [] rfl (by simp), rfl⟩

/-- The frame below has its error and is about to find it. -/
theorem Framed.below (h : Framed s (f :: g :: frames)) {c : Machine} {b : Activation}
    (hctl : c.ctl = .entering) (hstack : c.stack = b :: rest) (hb : b.self = g)
    (herror : (c.obj g).error = e) (he : e.isSet = true) (hcallers : c.callers = s.callers)
    (horder : (rest.map (·.self)).Sublist frames) :
    ∃ u, Drops c u ∧ Framed u (g :: frames) ∧ u.stack = ⟨g, some e⟩ :: rest ∧
      (u.ctl = .returned .raise ∨ u.ctl = .returned .passthrough) ∧
      ∀ i, (u.obj i).task = (c.obj i).task := by
  obtain ⟨t, ht, hlog, hstackt, hctlt, hcallerst, htask⟩ := tick_error hctl hstack hb herror he
  obtain ⟨u, hu, hobj, hstacku, -, hctlu⟩ := gives_on hstackt hctlt
  refine ⟨u, (Drops.tick ht [.handled g e] hlog (by simp [Event.exits])).trans hu,
    ⟨?_, (List.nodup_cons.mp h.nodup).2, ?_⟩, hstacku, hctlu, fun i => by rw [hobj, htask]⟩
  · have hcallersu : u.callers = s.callers := by
      rw [← hcallers, ← hcallerst]
      unfold callers
      rw [hobj]
    have hlinks := h.links.2
    rw [show s.callers f = .obj g from hlinks.1] at hlinks
    rwa [hcallersu, current, hstacku]
  · rw [hstacku]
    exact horder.cons_cons g

/-- The frame gives its error to the one below, which becomes `_top`. -/
theorem Framed.raises (h : Framed s (f :: g :: frames)) (hstack : s.stack = ⟨f, some e⟩ :: rest)
    (hctl : s.ctl = .returned .raise ∨ s.ctl = .returned .passthrough)
    (htask : (s.obj f).task = true) :
    Drops s ((s.raised f e).deliver .ready rest) ∧ ((s.raised f e).obj g).error = e ∧
      (s.raised f e).top = .obj g ∧ (rest.map (·.self)).Sublist (g :: frames) := by
  have hcaller : (s.obj f).caller = .obj g := h.links.2.1
  have hgf : g ≠ f := fun hgf => (List.nodup_cons.mp h.nodup).1 (hgf ▸ List.mem_cons_self)
  have hraise := tick_raise htask (by simp [hcaller]) hstack hctl
  refine ⟨.tick hraise [.finalized f, .raised f e] ?_ (by simp [Event.exits]), ?_, hcaller, ?_⟩
  · rw [deliver_log, raised_log]
    rfl
  · rw [raised_obj s f e hgf, if_pos hcaller]
  · have horder := h.order
    rw [hstack, List.map_cons] at horder
    exact List.cons_sublist_cons.mp horder

/-- Who belongs to the task once `f` has given its error on, did so before. -/
theorem task_before (htask : (s.obj f).task = true) {i : ObjId}
    (hi : ((s.raised f e).obj i).task = true) : (s.obj i).task = true := by
  by_cases hif : i = f
  · exact hif ▸ htask
  · rwa [← raised_task s e hif]

/-- The frames are nested if those below `f` belong to the task and are inline in it. -/
theorem Framed.nested (h : Framed s (f :: frames)) (hstack : s.stack = ⟨f, some e⟩ :: rest)
    (htask : (s.obj f).task = true) (hbelow : ∀ i ∈ frames, (s.obj i).task = true)
    (hinline : rest.map (·.self) <+: frames) : Nested s (f :: frames) := by
  refine .of_framed h (fun i hi => ?_) ?_
  · rcases List.mem_cons.mp hi with rfl | hi
    · exact htask
    · exact hbelow i hi
  · rw [hstack, List.map_cons, List.cons_prefix_cons]
    exact ⟨rfl, hinline⟩

/-- A frame gives its error to the one below, which runs it inline. -/
theorem Framed.raise_inline {b : Activation} (h : Framed s (f :: b.self :: frames))
    (hstack : s.stack = ⟨f, some e⟩ :: b :: rest)
    (hctl : s.ctl = .returned .raise ∨ s.ctl = .returned .passthrough)
    (htask : (s.obj f).task = true) (he : e.isSet = true) :
    Fails s ∨ ∃ u, Drops s u ∧ Framed u (b.self :: frames) ∧ u.stack = ⟨b.self, some e⟩ :: rest ∧
      (u.ctl = .returned .raise ∨ u.ctl = .returned .passthrough) ∧
      (Nested u (b.self :: frames) → Nested s (f :: b.self :: frames)) := by
  obtain ⟨hdrop, herror, htop, horder⟩ := h.raises hstack hctl htask
  have hstops : ControlState.stops .ready = false := rfl
  by_cases hb : ((s.raised f e).obj b.self).task = true
  swap
  · have hnext : ((s.raised f e).deliver .ready (b :: rest)).tick =
        some ((s.raised f e).deliver .ready (b :: rest)).crash := by
      simp [deliver, tick, afterCallback, hstops, hb]
    exact .inl (.after hdrop ⟨_, .tick hnext [] rfl (by simp), rfl⟩)
  have hnext : ((s.raised f e).deliver .ready (b :: rest)).tick =
      some { s.raised f e with stack := b :: rest, ctl := .entering } := by
    simp [deliver, tick, afterCallback, hb, htop, hstops]
  obtain ⟨u, hu, hframed, hstacku, hctlu, htasku⟩ :=
    h.below (c := { s.raised f e with stack := b :: rest, ctl := .entering }) rfl rfl rfl herror he
      (raised_callers s f e) (List.cons_sublist_cons.mp horder)
  refine .inr ⟨u, (hdrop.trans (.tick hnext [] rfl (by simp))).trans hu, hframed, hstacku, hctlu,
    fun hnu => h.nested hstack htask (fun i hi => ?_) ?_⟩
  · exact task_before htask ((htasku i).symm.trans (hnu.task i hi))
  · have hinline := hnu.inline
    rwa [hstacku] at hinline

/-- A frame gives its error to one that is not run, and all activations that are left are finalized. -/
theorem Framed.raise_unwound (h : Framed s (f :: g :: frames))
    (hstack : s.stack = ⟨f, some e⟩ :: rest) (hg : g ∉ rest.map (·.self))
    (hctl : s.ctl = .returned .raise ∨ s.ctl = .returned .passthrough)
    (htask : (s.obj f).task = true) (he : e.isSet = true) :
    Fails s ∨ ∃ u, Drops s u ∧ Framed u (g :: frames) ∧ u.stack = [⟨g, some e⟩] ∧
      (u.ctl = .returned .raise ∨ u.ctl = .returned .passthrough) ∧
      (Nested u (g :: frames) → Nested s (f :: g :: frames)) := by
  obtain ⟨hdrop, herror, htop, horder⟩ := h.raises hstack hctl htask
  rcases unwinds htop hg with hfails | ⟨t, ht, hctlt, htopt, hcallerst, hobjt, htaskt⟩
  · exact .inl (.after hdrop hfails)
  have hnext : t.tick = some { t with stack := [⟨g, none⟩], ctl := .entering } := by
    simp [tick, hctlt, runTop, htopt]
  obtain ⟨u, hu, hframed, hstacku, hctlu, htasku⟩ :=
    h.below (c := { t with stack := [⟨g, none⟩], ctl := .entering }) rfl rfl rfl
      ((congrArg Obj.error hobjt).trans herror) he (hcallerst.trans (raised_callers s f e))
      (List.nil_sublist _)
  refine .inr ⟨u, ((hdrop.trans ht).trans (.tick hnext [] rfl (by simp))).trans hu, hframed, hstacku,
    hctlu, fun hnu => ?_⟩
  have halive : ∀ i ∈ g :: frames, (s.obj i).task = true ∧ i ∉ rest.map (·.self) := by
    intro i hi
    obtain ⟨hraised, hrest⟩ := htaskt i ((htasku i).symm.trans (hnu.task i hi))
    exact ⟨task_before htask hraised, hrest⟩
  -- what was finalized is awaited below
  have hnil : rest.map (·.self) = [] :=
    List.eq_nil_iff_forall_not_mem.mpr fun i hi => (halive i (horder.subset hi)).2 hi
  exact h.nested hstack htask (fun i hi => (halive i hi).1) (hnil ▸ List.nil_prefix)

/-- A frame gives its error to the one below, and those that were run inline above that one are
    finalized. -/
theorem Framed.raise_next (h : Framed s (f :: g :: frames)) (hstack : s.stack = ⟨f, some e⟩ :: rest)
    (hctl : s.ctl = .returned .raise ∨ s.ctl = .returned .passthrough) (he : e.isSet = true) :
    Fails s ∨ ∃ u rest', Drops s u ∧ Framed u (g :: frames) ∧ u.stack = ⟨g, some e⟩ :: rest' ∧
      (u.ctl = .returned .raise ∨ u.ctl = .returned .passthrough) ∧
      (Nested u (g :: frames) → Nested s (f :: g :: frames)) := by
  by_cases htask : (s.obj f).task = true
  swap
  · exact .inl (fails_finalized htask hstack hctl)
  by_cases hg : g ∈ rest.map (·.self)
  swap
  · rcases h.raise_unwound hstack hg hctl htask he with hfails | ⟨u, hu⟩
    · exact .inl hfails
    · exact .inr ⟨u, [], hu⟩
  obtain ⟨-, -, -, horder⟩ := h.raises hstack hctl htask
  cases rest with
  | nil => simp at hg
  | cons b rest =>
    have hbg : b.self = g := by
      by_contra hbg
      rw [List.map_cons] at horder hg
      have hlast := (List.nodup_cons.mp (List.nodup_cons.mp h.nodup).2).1
      exact hlast ((List.Sublist.of_cons_of_ne hbg horder).subset hg)
    subst hbg
    rcases h.raise_inline hstack hctl htask he with hfails | ⟨u, hu⟩
    · exact .inl hfails
    · exact .inr ⟨u, rest, hu⟩

/-- By induction on the frames below: where those that are run are not the first ones, one of them is
    finalized before the error comes to it. -/
theorem Framed.fails (h : Framed s (f :: frames)) (hstack : s.stack = ⟨f, some e⟩ :: rest)
    (hctl : s.ctl = .returned .raise ∨ s.ctl = .returned .passthrough) (he : e.isSet = true)
    (hn : ¬ Nested s (f :: frames)) : Fails s := by
  induction frames generalizing s f rest with
  | nil =>
    refine fails_finalized (fun htask => hn (.of_framed h (by simpa using htask) ?_)) hstack hctl
    have horder := h.order
    rw [hstack, List.map_cons] at horder ⊢
    have hrest : rest.map (·.self) = [] := by simpa using List.cons_sublist_cons.mp horder
    rw [hrest]
  | cons g frames ih =>
    rcases h.raise_next hstack hctl he with hfails | ⟨u, rest', hu, hframed, hstacku, hctlu, hnested⟩
    · exact hfails
    · exact .after hu (ih hframed hstacku hctlu fun hnu => hn (hnested hnu))

/-- What `async_throw` does in a handler, as far as the frames are concerned. -/
theorem throws (hctl : s.ctl = .handling) (hstack : s.stack = ⟨f, some e⟩ :: rest) (e' : Error) :
    ∃ m, s.step (.act (.throw e')) = some m ∧ m.callers = s.callers ∧
      (∀ i, (m.obj i).task = (s.obj i).task) ∧ m.stack = ⟨f, some e⟩ :: rest ∧
      m.ctl = .returned .raise ∧ m.log = s.log := by
  refine ⟨s.asyncThrow f e', by simp [Machine.step, hstack, userCode, hctl, Machine.act],
    (Quiet.asyncThrow s f e').callers, fun i => ?_, (asyncThrow_stack s f e').trans hstack, rfl,
    asyncThrow_log s f e'⟩
  by_cases hi : i = f <;> simp [asyncThrow, set_obj, hi] <;> split <;> rfl

end Machine

/-- CORRECT: where `handle_error` of a frame raises an error of its own, the caller sees this error next,
    and with nobody attending to it the task exits with it, if and only if it is the error that was
    handled and no paused frame stands between one that is run and its caller. Else the first error goes
    on, or a caller is finalized before it is told. -/
theorem rethrow_replaces_iff (s : Machine) (f : ObjId) (e e' : Error) (rest : List Activation)
    (frames : List ObjId) (hctl : s.ctl = .handling) (hstack : s.stack = ⟨f, some e⟩ :: rest)
    (he : e.isSet = true) (hs : s.Framed (f :: frames)) :
    (Leads Event.delivers s (.act (.throw e')) (shown (s.obj f).caller (thrown e')) ∧
        Leads Event.exits s (.act (.throw e')) (.exited (thrown e')) ↔
      thrown e' = e ∧ s.Nested (f :: frames)) ∧
    (s.Nested (f :: frames) →
      (Leads Event.delivers s (.act (.throw e')) (shown (s.obj f).caller (thrown e')) ↔ thrown e' = e) ∧
      (Leads Event.exits s (.act (.throw e')) (.exited (thrown e')) ↔ thrown e' = e)) := by
  obtain ⟨m, hm, hcallersm, htaskm, hstackm, hctlm, hlogm⟩ := Machine.throws hctl hstack e'
  have hnested : s.Nested (f :: frames) →
      (Leads Event.delivers s (.act (.throw e')) (shown (s.obj f).caller (thrown e')) ↔ thrown e' = e) ∧
      (Leads Event.exits s (.act (.throw e')) (.exited (thrown e')) ↔ thrown e' = e) := by
    intro hn
    have hnm : m.Nested (f :: frames) := hn.congr hstack hstackm hcallersm htaskm
    have hnext : Leads Event.delivers s (.act (.throw e')) (shown (s.obj f).caller e) := by
      cases frames with
      | nil =>
        obtain ⟨t, ht, hlog⟩ := hnm.raise_task hstackm (.inl hctlm)
        rw [show (s.obj f).caller = .task from hn.links.2]
        exact ⟨m, t, [.finalized f, .raised f e], hm, ht, by rw [hlog, hlogm]; rfl,
          by simp [Event.delivers]⟩
      | cons g frames =>
        obtain ⟨t, rest', ht, hlog, -⟩ := hnm.raise_obj hstackm (.inl hctlm) he
        rw [show (s.obj f).caller = .obj g from hn.links.2.1]
        exact ⟨m, t, [.finalized f, .raised f e], hm, ht, by rw [hlog, hlogm]; rfl,
          by simp [Event.delivers]⟩
    have hexit : Leads Event.exits s (.act (.throw e')) (.exited e) := by
      obtain ⟨t, es, ht, hlog, hes⟩ := hnm.exits hstackm (.inl hctlm) he
      exact ⟨m, t, es, hm, ht, hlogm ▸ hlog, hes⟩
    have hshown : ∀ p e, (shown p e).delivers = true := by
      intro p e
      cases p <;> rfl
    refine ⟨⟨fun h => ?_, fun h => h ▸ hnext⟩, ⟨fun h => ?_, fun h => h ▸ hexit⟩⟩
    · have heq := h.unique hnext (hshown _ _) (hshown _ _)
      cases hc : (s.obj f).caller <;> rw [hc] at heq <;> simpa [shown] using heq
    · simpa using h.unique hexit rfl rfl
  refine ⟨⟨fun ⟨_, hexits⟩ => ?_, fun ⟨heq, hn⟩ => ?_⟩, hnested⟩
  · have hn : s.Nested (f :: frames) := by
      by_contra hn
      have hfails : Fails m := (hs.congr hstack hstackm hcallersm).fails hstackm (.inl hctlm) he
        fun hnm => hn (hnm.congr hstackm hstack hcallersm.symm fun i => (htaskm i).symm)
      exact hfails.not_leads hm hlogm rfl hexits
    exact ⟨((hnested hn).2).mp hexits, hn⟩
  · exact ⟨(hnested hn).1.mpr heq, (hnested hn).2.mpr heq⟩

/-- `0` awaits `1`, which throws and handles the error. -/
def throwInline (e : Error) : List Label :=
  [.spawn 0, .run, .tick, .tick, .act (.call 1), .tick, .act (.throw e), .tick, .tick]

theorem rethrow_replaces_iff_inline :
    ∃ s, (Machine.init fun _ => false).exec (throwInline (makeError .cxxException)) = some s ∧
      ∀ e', (Leads Event.delivers s (.act (.throw e')) (.handled 0 (thrown e')) ↔
          thrown e' = makeError .cxxException) ∧
        (Leads Event.exits s (.act (.throw e')) (.exited (thrown e')) ↔
          thrown e' = makeError .cxxException) := by
  refine ⟨_, rfl, fun e' => ?_⟩
  refine (rethrow_replaces_iff _ 1 (makeError .cxxException) e' _ [0] rfl rfl rfl ?_).2 ?_
  · exact ⟨⟨rfl, rfl, rfl⟩, by decide, by decide⟩
  · exact ⟨⟨rfl, rfl, rfl⟩, by decide, by decide, by decide⟩

/-- `1` awaits `2`, which pauses and stands between `1` and `0` then, and throws. -/
def throwAbovePaused : List Label :=
  [.spawn 0, .run, .tick, .tick, .act (.call 1), .tick, .act (.call 2), .tick, .act .pause, .tick, .tick,
    .tick, .act (.throw (makeError .cxxException)), .tick, .tick]

-- whatever the handler of `1` raises, `0` is finalized before `2` gives the error to it
example : (((Machine.init fun i => i = 2).exec (throwAbovePaused ++
    [.act (.throw (makeError .cxxException)), .tick, .tick, .tick, .tick, .tick, .tick, .tick,
      .act .propagate, .tick])).map fun s => (s.ctl, s.log.take 4)) =
    some (.crashed, [.handled 0 (makeError .cxxException), .finalized 2,
      .raised 2 (makeError .cxxException), .handled 2 (makeError .cxxException)]) := by decide

/-- The handler of `1` raises another error, but `0` sees the first one. -/
theorem rethrow_lost :
    ∃ s, (Machine.init fun _ => false).exec (throwInline (makeError .cxxException)) = some s ∧
      s.ctl = .handling ∧
      ¬ Leads Event.delivers s (.act (.throw (makeError .uninitialized)))
        (.handled 0 (makeError .uninitialized)) := by
  refine ⟨_, rfl, rfl, fun h => ?_⟩
  have heq : Event.handled 0 (makeError .uninitialized) = .handled 0 (makeError .cxxException) :=
    h.unique ⟨_, _, [.finalized 1, .raised 1 (makeError .cxxException)], rfl,
      ⟨[.tick, .tick, .tick], by simp [Label.Unattended], rfl⟩, rfl, by simp [Event.delivers]⟩ rfl rfl
  simp [makeError, ErrorAwaitable.toInt] at heq

end Jinx.Await
