import Jinx.Await.Spliced

/-! What the target does by itself, with hooks and without them.

    A step of the target is the same with the hooks (`step_above`) until its entry hands its result
    down: without hooks to the task, with hooks to the first of them. From then on `_top` is no frame
    any more, and only the activations that are left return (`Ending`). -/

namespace Jinx.Await

namespace Machine

variable {g m t : Machine} {H : Hooks} {i f k b : ObjId} {p q : Ptr} {rest : List Activation}
  {L : List ObjId} {a : Activation} {x : Act} {l : Label}

/-! ### Where `_top` points -/

/-- `_top` is a frame, or the entry has handed its result to the task. -/
def TopKept (g : Machine) : Prop :=
  (∃ k, g.top = .obj k) ∨
    g.top = .task ∧ (g.ctl = .returned .ready ∨ g.ctl = .running ∧ g.stack = [])

theorem TopKept.of_top (htop : g.top = .obj i) (hm : m.top = g.top) : m.TopKept :=
  .inl ⟨i, hm.trans htop⟩

theorem callback_top (s : Machine) (f : ObjId) :
    (s.callback f).top = s.top ∨ (s.callback f).top = .obj f := by
  simp only [callback]
  split
  · simp only [asyncThrow]
    split
    · exact .inr rfl
    · exact .inl rfl
  · exact .inl rfl

theorem swapDone_top (s : Machine) (f : ObjId) (c : Ptr) :
    (s.swapDone f c).top = s.top ∨ (s.swapDone f c).top = .obj f := by
  have h := callback_top (((s.setCaller c (s.obj f).prev).set f fun o =>
    { o with prev := .null }).emit (.reentered f)) f
  simp only [emit_top, set_top, setCaller_top] at h
  exact h

theorem repairPrev_top (s : Machine) (f : ObjId) (c : Ptr) : (s.repairPrev f c).top = s.top := by
  unfold repairPrev
  split
  · split <;> rfl
  · rfl

theorem TopKept.callback (htop : g.top = .obj i) (f : ObjId) : (g.callback f).TopKept := by
  rcases callback_top g f with h | h
  · exact .of_top htop h
  · exact .inl ⟨f, h⟩

theorem TopKept.swapDone (htop : g.top = .obj i) (f : ObjId) (c : Ptr) : (g.swapDone f c).TopKept := by
  rcases swapDone_top g f c with h | h
  · exact .of_top htop h
  · exact .inl ⟨f, h⟩

theorem TopKept.asyncReturn (htop : g.top = .obj i)
    (hcaller : (g.obj f).caller = .task ∨ ∃ k, (g.obj f).caller = .obj k) :
    (g.asyncReturn f).TopKept := by
  rw [Machine.asyncReturn]
  split
  · rcases hcaller with hc | hc
    · exact .inr ⟨hc, .inl rfl⟩
    · exact .inl hc
  · exact .of_top htop rfl

theorem TopKept.poll (htop : g.top = .obj i)
    (hcaller : (g.obj f).caller = .task ∨ ∃ k, (g.obj f).caller = .obj k) : (g.poll f).TopKept := by
  simp only [Machine.poll]
  split
  · split
    · split
      · exact .of_top htop rfl
      split
      · exact .swapDone htop f _
      · exact .of_top htop rfl
    · exact .asyncReturn htop hcaller
  · exact .callback htop f

theorem TopKept.enter (htop : g.top = .obj i)
    (hcaller : (g.obj f).caller = .task ∨ ∃ k, (g.obj f).caller = .obj k) :
    (g.enter f rest).TopKept := by
  simp only [Machine.enter]
  split
  · exact .of_top htop rfl
  · exact .poll (g := { g with stack := ⟨f, none⟩ :: rest }) htop hcaller

theorem TopKept.walk {c : Ptr} (htop : g.top = .obj i) : (g.walk f c).TopKept := by
  rw [Machine.walk]
  split
  · exact .of_top htop rfl
  split
  · exact .swapDone ((repairPrev_top g f c).trans htop) f c
  · exact .of_top htop rfl

theorem deliver_top (s : Machine) (st : ControlState) (rest : List Activation) :
    (s.deliver st rest).top = s.top := by
  cases rest with
  | nil =>
    simp only [deliver]
    split <;> rfl
  | cons b rest => rfl

/-- A result that is given on stays where control goes on. -/
theorem deliver_ready_ctl (s : Machine) (rest : List Activation) :
    (s.deliver .ready rest).ctl = .returned .ready ∨
      (s.deliver .ready rest).ctl = .running ∧ (s.deliver .ready rest).stack = [] := by
  cases rest with
  | nil => exact .inr ⟨rfl, rfl⟩
  | cons b rest => exact .inl rfl

theorem TopKept.propagate {e : Error} (htop : g.top = .obj i)
    (hcaller : (g.obj f).caller = .task ∨ ∃ k, (g.obj f).caller = .obj k) :
    (g.propagate f e rest).TopKept := by
  simp only [Machine.propagate]
  split
  · exact .of_top htop rfl
  · rcases hcaller with hc | ⟨k, hc⟩
    · exact .inr ⟨(deliver_top _ _ _).trans hc, deliver_ready_ctl _ _⟩
    · exact .inl ⟨k, (deliver_top _ _ _).trans hc⟩

theorem TopKept.afterCallback {st : ControlState} (htop : g.top = .obj i)
    (hcaller : (st = .raise ∨ st = .passthrough) →
      (g.obj a.self).caller = .task ∨ ∃ k, (g.obj a.self).caller = .obj k) :
    (g.afterCallback a st rest).TopKept := by
  unfold Machine.afterCallback
  split
  · exact .propagate htop (hcaller (.inl rfl))
  · exact .propagate htop (hcaller (.inr rfl))
  · split
    · exact .of_top htop (deliver_top _ _ _)
    split
    · exact .of_top htop rfl
    split
    · exact .of_top htop rfl
    · exact .of_top htop ((deliver_top _ _ _).trans rfl)

/-- Every frame of the chain has a caller. -/
theorem settled_caller (hL : Settled g (.obj f) L) :
    (g.obj f).caller = .task ∨ ∃ k, (g.obj f).caller = .obj k := by
  obtain ⟨L', -, htail⟩ := hL.tail
  cases L' with
  | nil => exact .inl (LinkedList.links_nil.mp htail.links)
  | cons k L' => exact .inr ⟨k, (LinkedList.links_cons.mp htail.links).1⟩

theorem Intact.top_tick (hg : g.Intact) (htop : g.top = .obj i) (hm : g.tick = some m) :
    m.TopKept := by
  cases hstack : g.stack with
  | nil =>
    rcases hctl : g.ctl <;> simp [Machine.tick, hctl, hstack] at hm
    · subst hm
      refine .of_top htop ?_
      simp [runTop, htop]
    · have hwhole := hg.whole
      simp [Whole, hctl] at hwhole
  | cons a rest =>
    rcases hctl : g.ctl <;> simp [Machine.tick, hctl, hstack] at hm
    · have hnil := hg.whole.stack_nil (.inr hctl)
      simp [hstack] at hnil
    · subst hm
      refine .enter htop ?_
      rcases (whole_entering hctl hstack).mp hg.whole with ⟨L, hL⟩ | ⟨D, L, hL⟩
      · exact settled_caller hL
      · exact .inr ⟨D, hL.caller⟩
    · subst hm
      exact .walk htop
    · rename_i st
      subst hm
      refine .afterCallback htop fun hst => ?_
      rcases (whole_returned hctl hstack).mp hg.whole with ⟨-, ⟨L, hL⟩, -⟩ | ⟨⟨hstops, hne⟩, -⟩ | ⟨rfl, -⟩
      · exact settled_caller hL
      · rcases hst with rfl | rfl
        · cases hstops
        · exact absurd rfl hne
      · simp at hst
    · have hwhole := hg.whole
      simp [Whole, hctl] at hwhole

theorem Intact.top_act (hg : g.Intact) (huser : g.userCode = true) (hstack : g.stack = a :: rest)
    (hpauses : g.Pauses (.act x) = true) (htop : g.top = .obj i) (hm : g.act a.self x = some m) :
    m.TopKept := by
  obtain ⟨-, -, L, hL⟩ := whole_user hg.whole huser hstack
  cases x with
  | call k =>
    cases hm
    exact .of_top htop rfl
  | ret =>
    cases hm
    exact .asyncReturn htop (settled_caller hL)
  | throw e =>
    cases hm
    simp only [Machine.asyncThrow]
    split
    · exact .inl ⟨a.self, rfl⟩
    · exact .of_top htop rfl
  | suspend | yield =>
    cases hm
    rw [Machine.asyncWait]
    split
    · exact .inl ⟨a.self, rfl⟩
    · exact .of_top htop rfl
  | pause =>
    simp only [Machine.act, Option.ite_none_right_eq_some, Option.some.injEq] at hm
    obtain ⟨hpausable, rfl⟩ := hm
    obtain ⟨k, -, -, hk, -⟩ := whole_asyncPause hL hpausable (by simpa [Pauses, hstack] using hpauses)
      hstack
    exact .inl ⟨k, hk⟩
  | propagate =>
    simp only [Machine.act, Option.ite_none_right_eq_some, Option.some.injEq] at hm
    obtain ⟨-, rfl⟩ := hm
    exact .of_top htop rfl
  | exception =>
    simp only [Machine.act, Option.ite_none_right_eq_some, Option.some.injEq] at hm
    obtain ⟨-, rfl⟩ := hm
    refine .of_top htop ?_
    rw [Machine.catchException]
    split <;> rfl

theorem Intact.top_step (hg : g.Intact) (hl : g.Regular l) (htop : g.top = .obj i)
    (hm : g.step l = some m) : m.TopKept := by
  cases l with
  | tick => exact hg.top_tick htop hm
  | act x =>
    simp only [Machine.step] at hm
    split at hm
    · cases hm
    · rename_i a rest hstack
      simp only [Option.ite_none_right_eq_some] at hm
      refine hg.top_act hm.1 hstack ?_ htop hm.2
      cases x with
      | exception => rfl
      | _ => exact hl.2
  | start f =>
    simp only [Machine.step, Option.ite_none_right_eq_some, Option.some.injEq] at hm
    obtain ⟨-, rfl⟩ := hm
    exact .of_top htop rfl
  | spawn r => simp [hl.2] at htop
  | resume e =>
    simp only [Machine.step, Option.ite_none_right_eq_some] at hm
    obtain ⟨-, hm⟩ := hm
    split at hm <;> cases hm <;> exact .of_top htop rfl
  | run =>
    simp only [Machine.step, Option.ite_none_right_eq_some, Option.some.injEq] at hm
    obtain ⟨-, rfl⟩ := hm
    exact .of_top htop rfl
  | cancel => exact hl.elim

/-! ### One step of the target -/

/-- A step with the hooks is one without them, unless an error leaves the last frame. -/
theorem step_commutes (hg : g.Intact) (hl : g.Regular l) (hclean : g.Unhooked H.hook)
    (hfirst : H.hook H.first = true) (htop : g.top = .obj i)
    (hown : (g.above H).own H.hook l = true) (herror : l = .tick → ¬ g.HandsError) :
    (g.above H).step l = (g.step l).map (above · H) := by
  have hctl : (g.above H).ctl = g.ctl := rfl
  have hstack : (g.above H).stack = g.stack := rfl
  have hstate : (g.above H).state = g.state := rfl
  have huser : (g.above H).userCode = g.userCode := rfl
  have htop' : (g.above H).top = .obj i := by simp [above, htop, Ptr.above]
  cases l with
  | tick => exact tick_commutes hg hclean hfirst htop (herror rfl)
  | act x =>
    simp only [step, hstack]
    cases hs : g.stack with
    | nil => rfl
    | cons a rest =>
      simp only [huser]
      split
      · rename_i hu
        refine act_commutes hg hclean hu hs ?_ fun k hk => ?_
        · cases x with
          | exception => rfl
          | _ => exact hl.2
        · subst hk
          simpa [own] using hown
      · rfl
  | start f =>
    have hf : H.hook f = false := by simpa [own] using hown
    have htask : ((g.above H).obj f).task = (g.obj f).task := by rw [above_obj hf]; rfl
    simp only [step, huser, hctl, htask]
    split
    · exact congrArg some (above_set hf rfl)
    · rfl
  | spawn r => simp [hl.2] at htop
  | resume e =>
    simp only [step, hctl, hstate, htop, htop']
    split
    · split <;> rfl
    · rfl
  | run =>
    simp only [step, hctl, hstate, htop, htop']
    split <;> rfl
  | cancel => exact hl.elim

/-- What the target has in common with the one that nobody has joined, also once its frames are
    gone. -/
structure Same (hook : ObjId → Bool) (m g : Machine) : Prop where
  stack : m.stack = g.stack
  ctl : m.ctl = g.ctl
  state : m.state = g.state
  log : m.log = g.log
  task : ∀ i, hook i = false → (m.obj i).task = (g.obj i).task

/-- The entry has handed its result down, and control is on its way out of the frames. -/
structure Ending (hook : ObjId → Bool) (m g : Machine) : Prop extends Same hook m g where
  ended : g.top = .task
  point : g.ctl = .returned .ready ∨ (g.ctl = .running ∧ g.stack = []) ∨ g.ctl = .crashed

/-- The result is in the first hook: an error in its `_error`, which the task has without hooks. -/
structure HandedDown (H : Hooks) (m g : Machine) : Prop extends Ending H.hook m g where
  top : m.top = .obj H.first
  entry : m.entry = H.entry
  others : ∀ j, H.hook j = true → j ≠ H.first → m.obj j = H.obj j
  first : m.obj H.first = H.obj H.first ∧ m.taskError = g.taskError ∨
    m.obj H.first = { H.obj H.first with error := g.taskError } ∧ g.taskError.isSet = true

theorem same_above (g : Machine) (H : Hooks) : Same H.hook (g.above H) g where
  stack := rfl
  ctl := rfl
  state := rfl
  log := rfl
  task i hi := by rw [above_obj hi]; rfl

theorem handedDown_above (hfirst : H.hook H.first = true) (htop : g.top = .task)
    (hctl : g.ctl = .returned .ready ∨ g.ctl = .running ∧ g.stack = []) :
    HandedDown H (g.above H) g where
  toSame := same_above g H
  ended := htop
  point := hctl.imp id .inl
  top := by simp [above, htop, Ptr.above]
  entry := rfl
  others j hj _ := by simp [above, hj]
  first := .inl ⟨by simp [above, hfirst], rfl⟩

theorem propagate_handedDown {e : Error} (hf : H.hook f = false) (hfirst : H.hook H.first = true)
    (hcaller : (g.obj f).caller = .task) (htask : (g.obj f).task = true) (he : e.isSet = true) :
    HandedDown H ((g.above H).propagate f e rest) (g.propagate f e rest) := by
  have hne : f ≠ H.first := fun hc => by simp [← hc, hf] at hfirst
  have hcaller' : ((g.above H).obj f).caller = .obj H.first := by
    rw [above_obj hf, Obj.above, hcaller]
    rfl
  have htask' : ((g.above H).obj f).task = true := by
    rw [above_obj hf]
    exact htask
  let raised : Machine := { g.emit (.raised f e) with taskError := e }
  let raised' : Machine := ((g.above H).emit (.raised f e)).set H.first fun o => { o with error := e }
  have hg : g.propagate f e rest =
      ({ raised.finalize f with top := .task } : Machine).deliver .ready rest := by
    simp only [propagate, hcaller, htask, setError]
    rfl
  have hm : (g.above H).propagate f e rest =
      ({ raised'.finalize f with top := .obj H.first } : Machine).deliver .ready rest := by
    simp only [propagate, hcaller', htask', setError]
    rfl
  rw [hg, hm]
  have hobj : ∀ s : Machine, (s.deliver .ready rest).obj = s.obj := fun s => by cases rest <;> rfl
  have hkeep : ∀ s : Machine, (s.deliver .ready rest).taskError = s.taskError ∧
      (s.deliver .ready rest).entry = s.entry ∧ (s.deliver .ready rest).log = s.log ∧
      (s.deliver .ready rest).state = s.state := fun s => by
    cases rest <;> exact ⟨rfl, rfl, rfl, rfl⟩
  have hctl : ∀ s t : Machine, (s.deliver .ready rest).ctl = (t.deliver .ready rest).ctl := fun s t => by
    cases rest <;> rfl
  exact {
    stack := by simp only [deliver_stack]
    ctl := hctl _ _
    state := by
      rw [(hkeep _).2.2.2, (hkeep _).2.2.2]
      rfl
    log := by
      rw [(hkeep _).2.2.1, (hkeep _).2.2.1]
      rfl
    task := fun i hi => by
      have hib : i ≠ H.first := fun hc => by simp [hc, hfirst] at hi
      rw [hobj, hobj]
      by_cases hif : i = f
      · subst hif
        simp [finalize]
      · simp [raised, raised', finalize, set_obj, hif, hib, above_obj hi, Obj.above]
    ended := deliver_top _ _ _
    point := (deliver_ready_ctl _ rest).imp id .inl
    top := deliver_top _ _ _
    entry := by
      rw [(hkeep _).2.1]
      rfl
    others := fun j hj hjb => by
      have hjf : j ≠ f := fun hc => by simp [← hc, hj] at hf
      rw [hobj]
      simp [raised', finalize, set_obj, hjf, hjb, above, hj]
    first := by
      refine .inr ⟨?_, ?_⟩
      · rw [hobj, (hkeep _).1]
        simp [raised, raised', finalize, set_obj, hne.symm, above, hfirst]
      · rw [(hkeep _).1]
        exact he }

/-- The target does a step by itself: it does the same one without the hooks, or hands its result
    down. -/
theorem step_above (hg : g.Intact) (hl : g.Regular l) (hclean : g.Unhooked H.hook)
    (hfirst : H.hook H.first = true) (htop : g.top = .obj i)
    (hown : (g.above H).own H.hook l = true) (hm : (g.above H).step l = some m) :
    ∃ g', g.step l = some g' ∧
      ((m = g'.above H ∧ ∃ k, g'.top = .obj k) ∨ HandedDown H m g') := by
  by_cases herror : l = .tick ∧ g.HandsError
  · obtain ⟨rfl, a, rest, st, e, hctl, hstack, hst, hhandling, hcaller⟩ := herror
    obtain ⟨hstarted, hset⟩ := hg.stacked a (by simp [hstack])
    have hf := hclean.hook_eq hstarted
    have hafter : ∀ s : Machine, s.afterCallback a st rest = s.propagate a.self e rest := fun s => by
      rcases hst with rfl | rfl <;> simp only [afterCallback, hhandling]
    have hstep : ∀ s : Machine, s.ctl = .returned st → s.stack = a :: rest →
        s.step .tick = some (s.propagate a.self e rest) := fun s hc hs => by
      simp only [step, tick, hc, hs, hafter]
    rw [hstep (g.above H) hctl hstack] at hm
    cases hm
    refine ⟨_, hstep g hctl hstack, ?_⟩
    by_cases htask : (g.obj a.self).task = true
    · exact .inr (propagate_handedDown hf hfirst hcaller htask (hset e hhandling))
    · have htask' : (g.obj a.self).task = false := by simpa using htask
      have hm : ((g.above H).obj a.self).task = false := by
        rw [above_obj hf]
        exact htask'
      simp only [propagate, htask', hm, true_or, if_true]
      exact .inl ⟨rfl, i, htop⟩
  · have hsame := step_commutes hg hl hclean hfirst htop hown fun hl hc => herror ⟨hl, hc⟩
    rw [hsame] at hm
    obtain ⟨g', hg', rfl⟩ := Option.map_eq_some_iff.mp hm
    refine ⟨g', hg', ?_⟩
    rcases hg.top_step hl htop hg' with htop' | ⟨htop', hctl'⟩
    · exact .inl ⟨rfl, htop'⟩
    · exact .inr (handedDown_above hfirst htop' hctl')

/-! ### Without frames -/

/-- What hooks still have to do is left alone. -/
structure Untouched (hook : ObjId → Bool) (m t : Machine) : Prop where
  top : t.top = m.top
  entry : t.entry = m.entry
  taskError : t.taskError = m.taskError
  hooks : ∀ j, hook j = true → t.obj j = m.obj j

theorem deliver_eq (s : Machine) (rest : List Activation) :
    (s.deliver .ready rest).obj = s.obj ∧ (s.deliver .ready rest).entry = s.entry ∧
      (s.deliver .ready rest).taskError = s.taskError ∧ (s.deliver .ready rest).state = s.state ∧
      (s.deliver .ready rest).log = s.log := by
  cases rest <;> exact ⟨rfl, rfl, rfl, rfl, rfl⟩

/-- The activations that are left return one after the other. -/
theorem Ending.step {hook : ObjId → Bool} (h : Ending hook m g)
    (hstack : ∀ a ∈ g.stack, hook a.self = false) (htop : m.top = .obj b) (hb : hook b = true)
    (hown : m.own hook l = true) (hm : m.step l = some t) :
    ∃ g', g.step l = some g' ∧ g'.taskError = g.taskError ∧ Ending hook t g' ∧ Untouched hook m t ∧
      g'.stack ⊆ g.stack := by
  have hctl := h.ctl
  have hstop : m.ctl ≠ .stopped ∧ m.userCode = false := by
    rcases h.point with hc | ⟨hc, -⟩ | hc <;> rw [hc] at hctl <;> simp [userCode, hctl]
  obtain rfl := step_internal hstop.1 hstop.2 hm
  rcases h.point with hc | ⟨hc, -⟩ | hc <;> rw [hc] at hctl
  · cases hs : g.stack with
    | nil => simp [Machine.step, tick, hctl, h.stack, hs] at hm
    | cons a rest =>
      have ha := hstack a (by simp [hs])
      have hab : a.self ≠ b := fun hc => by simp [← hc, ha] at hb
      have hafter : ∀ s : Machine, s.afterCallback a .ready rest =
          if (s.obj a.self).task = false then s.crash
          else if s.top = .obj a.self then { s with ctl := .entering }
          else (s.finalize a.self).deliver .ready rest := by
        intro s
        have hstops : ControlState.stops .ready = false := rfl
        cases hh : a.handling <;> simp [afterCallback, hh, hstops]
      have hmt : m.afterCallback a .ready rest = t := by
        simpa [Machine.step, tick, hctl, h.stack, hs] using hm
      have hg : g.step .tick = some (g.afterCallback a .ready rest) := by
        simp [Machine.step, tick, hc, hs]
      refine ⟨_, hg, ?_⟩
      rw [← hmt, hafter, hafter, h.task a.self ha, htop, h.ended]
      have hba : Ptr.obj b ≠ .obj a.self := by simpa using hab.symm
      by_cases htask : (g.obj a.self).task = false
      · rw [if_pos htask, if_pos htask]
        exact ⟨rfl, ⟨⟨h.stack, rfl, h.state, h.log, h.task⟩, h.ended, .inr (.inr rfl)⟩,
          ⟨rfl, rfl, rfl, fun _ _ => rfl⟩, (hs ▸ List.Subset.refl _ : g.stack ⊆ a :: rest)⟩
      · rw [if_neg htask, if_neg htask, if_neg hba, if_neg (by simp)]
        obtain ⟨hmobj, hmentry, hmerr, hmstate, hmlog⟩ := deliver_eq (m.finalize a.self) rest
        obtain ⟨hgobj, -, hgerr, hgstate, hglog⟩ := deliver_eq (g.finalize a.self) rest
        refine ⟨hgerr, ⟨⟨?_, ?_, ?_, ?_, fun i hi => ?_⟩, ?_, ?_⟩, ⟨?_, hmentry, hmerr, fun j hj => ?_⟩, ?_⟩
        · rw [deliver_stack, deliver_stack]
        · cases rest <;> rfl
        · rw [hmstate, hgstate]
          exact h.state
        · rw [hmlog, hglog]
          exact congrArg (_ :: ·) h.log
        · rw [hmobj, hgobj]
          by_cases hia : i = a.self
          · subst hia
            simp [finalize]
          · simpa [finalize, set_obj, hia] using h.task i hi
        · exact (deliver_top _ _ _).trans h.ended
        · exact (deliver_ready_ctl _ rest).imp id .inl
        · exact (deliver_top _ _ _)
        · have hja : j ≠ a.self := fun hc => by simp [hc, ha] at hj
          rw [hmobj]
          simp [finalize, set_obj, hja]
        · rw [deliver_stack]
          exact List.subset_cons_self a rest
  · simp [own, hctl, htop, hb] at hown
  · simp [Machine.step, tick, hctl] at hm

end Machine

end Jinx.Await
