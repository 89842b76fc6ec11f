import Jinx.Await.Pause
import Jinx.Await.Exception

/-! The frame next to the task.

    In a run that keeps the call chain whole, all pointers to the task are those of one awaitable,
    the last of the chain: a frame that pauses takes them over from its caller, and a re-entry gives
    them to the frame above. Finalized awaitables keep their pointers, so this is more than the chain
    says. -/

namespace Jinx.Await

/-! ### Steps that change no pointer -/

namespace Quiet

variable {s : Machine}

theorem catchException (s : Machine) (f : ObjId) : Quiet s (s.catchException f) := by
  rw [Machine.catchException]
  split
  · exact of_obj f (fun i hi => by simp [Machine.set_obj_ne _ _ hi]) (by simp) (by simp) (by simp)
      ⟨[], rfl, by simp⟩
  · exact of_eq rfl rfl

theorem callback (s : Machine) (f : ObjId) : Quiet s (s.callback f) := by
  have hq : Quiet s (s.emit (.polled f (s.obj f).routine)) := .emit s rfl
  simp only [Machine.callback]
  split
  · exact hq.trans (.asyncThrow _ f _)
  · exact hq.trans (.of_eq rfl rfl)

theorem asyncReturn (s : Machine) (f : ObjId) : Quiet s (s.asyncReturn f) := by
  rw [Machine.asyncReturn]
  split
  · exact of_eq rfl rfl
  · exact of_eq rfl rfl

theorem asyncWait (s : Machine) (f : ObjId) (st : ControlState) : Quiet s (s.asyncWait f st) := by
  rw [Machine.asyncWait]
  split
  · exact Quiet.trans (t := { s with top := .obj f, ctl := .returned st }.emit (.waited f))
      (of_eq rfl rfl : Quiet s { s with top := .obj f, ctl := .returned st }) (Quiet.emit _ rfl)
  · exact of_eq rfl rfl

theorem deliver (s : Machine) (st : ControlState) (rest : List Activation) :
    Quiet s (s.deliver st rest) := by
  cases rest with
  | nil =>
    simp only [Machine.deliver]
    split
    · exact of_eq rfl rfl
    · exact of_eq rfl rfl
  | cons b rest => exact of_eq rfl rfl

theorem propagate (s : Machine) (f : ObjId) (e : Error) (rest : List Activation) :
    Quiet s (s.propagate f e rest) := by
  simp only [Machine.propagate]
  split
  · exact of_eq rfl rfl
  · have hraised : Quiet s { (s.emit (.raised f e)).setError (s.obj f).caller e with
        top := (s.obj f).caller } :=
      ((emit s rfl).trans (setError _ _ e)).trans (of_eq rfl rfl)
    exact (hraised.trans (finalize _ f)).trans (deliver _ _ rest)

theorem afterCallback (s : Machine) (a : Activation) (st : ControlState) (rest : List Activation) :
    Quiet s (s.afterCallback a st rest) := by
  unfold Machine.afterCallback
  split
  · exact propagate s a.self _ rest
  · exact propagate s a.self _ rest
  · split
    · exact deliver s _ rest
    split
    · exact of_eq rfl rfl
    split
    · exact of_eq rfl rfl
    · exact (finalize s a.self).trans (deliver _ _ rest)

theorem runTop (s : Machine) : Quiet s s.runTop := by
  rw [Machine.runTop]
  split
  · exact of_eq rfl rfl
  · exact Quiet.trans (t := { s with top := .null, state := .exited, ctl := .stopped }.emit (.exited s.taskError))
      (of_eq rfl rfl : Quiet s { s with top := .null, state := .exited, ctl := .stopped })
      (Quiet.emit _ rfl)
  · exact of_eq rfl rfl

end Quiet

namespace Machine

variable {s t : Machine} {f g p d : ObjId} {a : Activation} {rest : List Activation}

/-- The labels under which the chain stays whole. A task is spawned once, a C++ exception comes from
    the frame that `_top` points to; cancelling ends the chain. -/
def Regular (s : Machine) : Label → Prop
  | .spawn _ => s.log = [] ∧ s.top = .null
  | .act .exception => ∀ a ∈ s.stack.head?, s.top = .obj a.self
  | .cancel => False
  | l => s.Single l = true ∧ s.Pauses l = true

/-- One awaitable has all pointers to the task, and it was awaited. -/
def OneBottom (s : Machine) : Prop :=
  ∃ x, ∀ i, (s.obj i).caller = .task ∨ (s.obj i).prev = .task → i = x ∧ started s.log i = true

/-- The frames that are run were awaited, and handle errors that are set. -/
def Stacked (s : Machine) : Prop :=
  ∀ a ∈ s.stack, started s.log a.self = true ∧ ∀ e, a.handling = some e → e.isSet = true

theorem started_of_suffix {log log' : List Event} (h : log <:+ log') (hf : started log f = true) :
    started log' f = true := by
  obtain ⟨es, rfl⟩ := h
  induction es with
  | nil => exact hf
  | cons e es ih => exact started_cons.mpr (.inr ih)

theorem OneBottom.quiet (h : s.OneBottom) (hq : Quiet s t) : t.OneBottom := by
  obtain ⟨x, hx⟩ := h
  refine ⟨x, fun i hi => ?_⟩
  rw [hq.caller, hq.prev] at hi
  rw [hq.started]
  exact hx i hi

/-! ### Steps that do -/

/-- `p` is taken out from below `d`, which gets the pointers of `p`. -/
theorem OneBottom.splice (h : s.OneBottom) (hp : (s.obj p).prev = .task → (s.obj p).caller ≠ .task)
    (hcaller : ∀ i, i ≠ d → (t.obj i).caller = (s.obj i).caller)
    (hd : (t.obj d).caller = (s.obj p).prev)
    (hprev : ∀ i, i ≠ d → i ≠ p → (t.obj i).prev = (s.obj i).prev) (hpp : (t.obj p).prev = .null)
    (hdp : (t.obj d).prev = .null ∨ (t.obj d).prev = (s.obj d).prev ∨
      (t.obj d).prev = (s.obj p).prev)
    (hlog : s.log <:+ t.log) (hstarted : started t.log d = true) : t.OneBottom := by
  obtain ⟨x, hx⟩ := h
  by_cases htask : (s.obj p).prev = .task
  · obtain ⟨rfl, -⟩ := hx p (.inr htask)
    refine ⟨d, fun i hi => ?_⟩
    have hid : i = d := by
      by_contra hid
      rw [hcaller i hid] at hi
      by_cases hip : i = p
      · subst hip
        rw [hpp] at hi
        exact hp htask (hi.resolve_right nofun)
      · rw [hprev i hid hip] at hi
        exact hip (hx i hi).1
    exact ⟨hid, hid ▸ hstarted⟩
  · refine ⟨x, fun i hi => ?_⟩
    have hsame : (s.obj i).caller = .task ∨ (s.obj i).prev = .task := by
      rcases hi with hi | hi
      · by_cases hid : i = d
        · subst hid
          exact absurd (hd.symm.trans hi) htask
        · exact .inl ((hcaller i hid).symm.trans hi)
      · by_cases hip : i = p
        · subst hip
          simp [hpp] at hi
        by_cases hid : i = d
        · subst hid
          rcases hdp with hnull | hsame | hmoved
          · simp [hnull] at hi
          · exact .inr (hsame.symm.trans hi)
          · exact absurd (hmoved.symm.trans hi) htask
        · exact .inr ((hprev i hid hip).symm.trans hi)
    exact ⟨(hx i hsame).1, started_of_suffix hlog (hx i hsame).2⟩

theorem OneBottom.swapDone (h : s.OneBottom) (hp : (s.obj p).prev = .task → (s.obj p).caller ≠ .task)
    {m : Machine} (hm : m = s ∨ m = s.repairPrev p (.obj d)) (hpd : p ≠ d)
    (hstarted : started s.log d = true) : (m.swapDone p (.obj d)).OneBottom := by
  have hobj : ∀ i, i ≠ d → m.obj i = s.obj i := by
    intro i hi
    rcases hm with rfl | rfl
    · rfl
    · simp only [repairPrev]
      split
      · exact set_obj_ne s _ hi
      · rfl
  have hmd : (m.obj d).prev = (s.obj d).prev ∨ (m.obj d).prev = (s.obj p).prev := by
    rcases hm with rfl | rfl
    · exact .inl rfl
    · simp only [repairPrev]
      split
      · exact .inr (by simp)
      · exact .inl rfl
  have hmlog : m.log = s.log := by
    rcases hm with rfl | rfl
    · rfl
    · exact repairPrev_log s p _
  let b := ((m.setCaller (.obj d) (m.obj p).prev).set p fun o => { o with prev := .null }).emit
    (.reentered p)
  have hlog : b.log = .reentered p :: s.log := by simp [b, hmlog]
  have hb : b.OneBottom := by
    refine h.splice (p := p) (d := d) hp (fun i hi => ?_) ?_ (fun i hi hip => ?_) ?_ (.inr ?_)
      (hlog ▸ List.suffix_cons _ _) (hlog ▸ started_cons.mpr (.inr hstarted))
    · by_cases hip : i = p
      · subst hip
        simp [b, setCaller, set_obj, hi, hobj i hi]
      · simp [b, setCaller, set_obj, hi, hip, hobj i hi]
    · simp [b, setCaller, set_obj, hpd.symm, hobj p hpd]
    · simp [b, setCaller, set_obj, hi, hip, hobj i hi]
    · simp [b]
    · simpa [b, setCaller, set_obj, hpd.symm] using hmd
  exact hb.quiet (.callback b p)

theorem OneBottom.asyncCall (h : s.OneBottom) (f g : ObjId) : (s.asyncCall f g).OneBottom := by
  obtain ⟨x, hx⟩ := h
  refine ⟨x, fun i hi => ?_⟩
  obtain ⟨hcaller, hprev, -, -⟩ := asyncCall_obj s f g i
  rw [hcaller, hprev] at hi
  have hsame : (s.obj i).caller = .task ∨ (s.obj i).prev = .task := by
    split at hi
    · exact .inr (hi.resolve_left nofun)
    · exact hi
  exact ⟨(hx i hsame).1, started_cons.mpr (.inr (hx i hsame).2)⟩

/-- The pointers of the caller go to the frame that pauses. -/
theorem OneBottom.asyncPause {k : ObjId} (h : s.OneBottom) (hk : (s.obj f).caller = .obj k)
    (hkf : k ≠ f) (hkprev : (s.obj k).prev = .null) (hstarted : started s.log f = true) :
    (s.asyncPause f).OneBottom := by
  obtain ⟨x, hx⟩ := h
  unfold Machine.asyncPause
  dsimp only
  split
  · exact ⟨x, hx⟩
  split
  swap
  · exact ⟨x, hx⟩
  have hother : ∀ i, i ≠ f → i ≠ k → (s.obj i).caller = .task ∨ (s.obj i).prev = .task →
      i = x ∧ started (.paused f :: s.log) i = true := fun i _ _ hi =>
    ⟨(hx i hi).1, started_cons.mpr (.inr (hx i hi).2)⟩
  by_cases htask : (s.obj k).caller = .task
  · obtain ⟨rfl, -⟩ := hx k (.inl htask)
    refine ⟨f, fun i hi => ?_⟩
    have hif : i = f := by
      by_contra hif
      by_cases hik : i = k
      · subst hik
        simp [hk, next, setCaller, set_obj, hif, hkprev] at hi
      · exact hik (hother i hif hik (by simpa [hk, next, setCaller, set_obj, hif, hik] using hi)).1
    subst hif
    exact ⟨rfl, by simpa [started_cons] using hstarted⟩
  · refine ⟨x, fun i hi => ?_⟩
    by_cases hif : i = f
    · subst hif
      simp [hk, next, setCaller, set_obj, hkf.symm, htask] at hi
    by_cases hik : i = k
    · subst hik
      simp [hk, next, setCaller, set_obj, hif, hkprev] at hi
    · simpa using hother i hif hik (by simpa [hk, next, setCaller, set_obj, hif, hik] using hi)

/-! ### What a run keeps -/

/-- The chain is whole, and its last frame has all pointers to the task. -/
structure Intact (s : Machine) : Prop where
  whole : s.Whole
  errors : s.ErrorInTransit
  bottom : s.OneBottom
  stacked : s.Stacked

theorem Stacked.of_subset (h : s.Stacked) (hstack : ∀ a ∈ t.stack, a ∈ s.stack)
    (hlog : s.log <:+ t.log) : t.Stacked := fun a ha =>
  ⟨started_of_suffix hlog (h a (hstack a ha)).1, (h a (hstack a ha)).2⟩

theorem Stacked.cons (h : ∀ b ∈ rest, started s.log b.self = true ∧
    ∀ e, b.handling = some e → e.isSet = true) (ht : t.stack = a :: rest) (hlog : s.log <:+ t.log)
    (ha : started t.log a.self = true ∧ ∀ e, a.handling = some e → e.isSet = true) : t.Stacked := by
  intro b hb
  rw [ht] at hb
  rcases List.mem_cons.mp hb with rfl | hb
  · exact ha
  · exact ⟨started_of_suffix hlog (h b hb).1, (h b hb).2⟩

theorem callback_stack (s : Machine) (f : ObjId) : (s.callback f).stack = s.stack := by
  simp only [callback]
  split
  · simp only [asyncThrow]
    split <;> rfl
  · rfl

theorem swapDone_stack (s : Machine) (f : ObjId) (c : Ptr) : (s.swapDone f c).stack = s.stack := by
  simp only [swapDone, callback_stack, emit_stack, set_stack, setCaller_stack]

theorem asyncReturn_stack (s : Machine) (f : ObjId) : (s.asyncReturn f).stack = s.stack := by
  rw [asyncReturn]
  split <;> rfl

theorem poll_stack (s : Machine) (f : ObjId) : (s.poll f).stack = s.stack := by
  simp only [poll]
  split
  · split
    · split
      · rfl
      split
      · exact swapDone_stack s f _
      · rfl
    · exact asyncReturn_stack s f
  · exact callback_stack s f

theorem walk_stack (s : Machine) (f : ObjId) (c : Ptr) : (s.walk f c).stack = s.stack := by
  rw [walk]
  split
  · rfl
  split
  · rw [swapDone_stack, repairPrev_stack]
  · rfl

theorem deliver_stack (s : Machine) (st : ControlState) (rest : List Activation) :
    (s.deliver st rest).stack = rest := by
  cases rest with
  | nil =>
    simp only [deliver]
    split <;> rfl
  | cons b rest => rfl

theorem propagate_subset (s : Machine) (f : ObjId) (e : Error) (hrest : rest ⊆ s.stack) :
    (s.propagate f e rest).stack ⊆ s.stack := by
  simp only [propagate]
  split
  · exact List.Subset.refl _
  · rw [deliver_stack]
    exact hrest

/-- A `run` goes on with its loop or returns. -/
theorem afterCallback_subset (hstack : s.stack = a :: rest) (st : ControlState) :
    (s.afterCallback a st rest).stack ⊆ s.stack := by
  have hrest : rest ⊆ s.stack := hstack ▸ List.subset_cons_self a rest
  unfold afterCallback
  split
  · exact propagate_subset s a.self _ hrest
  · exact propagate_subset s a.self _ hrest
  · split
    · rw [deliver_stack]
      exact hrest
    split
    · exact List.Subset.refl _
    split
    · exact List.Subset.refl _
    · rw [deliver_stack]
      exact hrest

/-- A re-entry is awaited by another frame. -/
theorem OneBottom.poll (h : s.OneBottom)
    (hp : (s.obj p).isPaused = true → (s.obj p).prev ≠ (s.obj p).caller →
      ∃ d, (s.obj p).caller = .obj d ∧ d ≠ p ∧ started s.log d = true) : (s.poll p).OneBottom := by
  simp only [Machine.poll]
  split
  · rename_i hpaused
    split
    · rename_i hne
      obtain ⟨d, hd, hdp, hstarted⟩ := hp hpaused hne
      rw [hd]
      split
      · exact h
      split
      · exact h.swapDone (fun _ => by simp [hd]) (.inl rfl) hdp.symm hstarted
      · exact h
    · exact h.quiet (.asyncReturn s p)
  · exact h.quiet (.callback s p)

theorem Intact.enter (h : s.Intact) (hctl : s.ctl = .entering) (hstack : s.stack = a :: rest) :
    (s.enter a.self rest).OneBottom ∧ (s.enter a.self rest).Stacked := by
  have ha := h.stacked a (by simp [hstack])
  have hrest : ∀ b ∈ rest, started s.log b.self = true ∧ ∀ e, b.handling = some e → e.isSet = true :=
    fun b hb => h.stacked b (by simp [hstack, hb])
  have hlog := enter_log s a.self rest
  have hstarted := started_of_suffix hlog ha.1
  unfold Machine.enter at hlog hstarted ⊢
  dsimp only at hlog hstarted ⊢
  split
  · rename_i herr
    rw [if_pos herr] at hlog hstarted
    refine ⟨h.bottom.quiet (Quiet.of_obj a.self (fun i hi => by simp [set_obj_ne _ _ hi]) (by simp)
      (by simp) (by simp) ⟨[.handled a.self (s.obj a.self).error], rfl, by simp [Event.quiet]⟩), ?_⟩
    refine Stacked.cons (a := ⟨a.self, some (s.obj a.self).error⟩) hrest rfl hlog ⟨hstarted, ?_⟩
    rintro e he
    obtain rfl := Option.some.inj he
    exact herr
  · rename_i herr
    rw [if_neg herr] at hlog hstarted
    refine ⟨OneBottom.poll (s := { s with stack := ⟨a.self, none⟩ :: rest }) h.bottom ?_, ?_⟩
    · intro hpaused hne
      rcases (whole_entering hctl hstack).mp h.whole with ⟨L, hL⟩ | ⟨D, L, hL⟩
      · refine absurd ?_ hne
        refine (hL.prev a.self hL.head).resolve_left ?_
        simp only [Obj.isPaused, Bool.and_eq_true, bne_iff_ne] at hpaused
        exact hpaused.2
      · refine ⟨D, hL.caller, ?_, hL.started D hL.toFrames.head⟩
        rintro rfl
        exact hL.parked_prev hL.mem hL.isParked hL.noPrev
    · exact Stacked.cons (a := ⟨a.self, none⟩) hrest (poll_stack _ _) hlog ⟨hstarted, by simp⟩

theorem Intact.walk {c : Ptr} (h : s.Intact) (hctl : s.ctl = .walking c)
    (hstack : s.stack = a :: rest) : (s.walk a.self c).OneBottom := by
  obtain ⟨-, D, X, d, Z, Y, hL, -, rfl⟩ := (whole_walking hctl hstack).mp h.whole
  have hdp : a.self ≠ d := by
    have hn := (List.nodup_append.mp hL.nodup).2.2 d (by simp) a.self List.mem_cons_self
    exact hn.symm
  rw [Machine.walk]
  split
  · exact h.bottom
  split
  · exact h.bottom.swapDone (fun _ => by simp [hL.caller]) (.inr rfl) hdp (hL.started d (by simp))
  · exact h.bottom

theorem Intact.tick (h : s.Intact) (ht : s.tick = some t) : t.OneBottom ∧ t.Stacked := by
  have hlog := tick_log ht
  unfold Machine.tick at ht
  split at ht
  · rename_i hctl
    cases ht
    refine ⟨h.bottom.quiet (.runTop s), ?_⟩
    have hstack := h.whole.stack_nil (.inr hctl)
    unfold runTop at hlog ⊢
    split
    · exact h.stacked
    · exact h.stacked.of_subset (by simp [hstack]) (List.suffix_cons _ _)
    · rename_i f htop
      obtain ⟨L, hL⟩ := (whole_running hctl hstack).mp h.whole
      rw [htop] at hL
      refine Stacked.cons (s := s) (fun b hb => absurd hb List.not_mem_nil) rfl (List.suffix_refl _)
        ⟨hL.started f hL.head, nofun⟩
  · rename_i hctl
    have hwhole := h.whole
    simp [Whole, hctl] at hwhole
  · rename_i hctl hstack
    cases ht
    exact h.enter hctl hstack
  · rename_i hctl hstack
    cases ht
    exact ⟨h.walk hctl hstack, h.stacked.of_subset (by simp [walk_stack]) hlog⟩
  · rename_i st a rest hctl hstack
    cases ht
    exact ⟨h.bottom.quiet (.afterCallback s a st rest),
      h.stacked.of_subset (afterCallback_subset hstack st) hlog⟩
  · cases ht

theorem asyncThrow_stack (s : Machine) (f : ObjId) (e : Error) :
    (s.asyncThrow f e).stack = s.stack := by
  simp only [asyncThrow]
  split <;> rfl

theorem asyncWait_stack (s : Machine) (f : ObjId) (st : ControlState) :
    (s.asyncWait f st).stack = s.stack := by
  rw [asyncWait]
  split <;> rfl

theorem asyncPause_stack (s : Machine) (f : ObjId) : (s.asyncPause f).stack = s.stack := by
  simp only [asyncPause]
  split
  · rfl
  split
  · simp
  · rfl

theorem catchException_stack (s : Machine) (f : ObjId) : (s.catchException f).stack = s.stack := by
  rw [catchException]
  split <;> rfl

theorem Intact.act {x : Act} (h : s.Intact) (huser : s.userCode = true) (hstack : s.stack = a :: rest)
    (hpauses : s.Pauses (.act x) = true) (ht : s.act a.self x = some t) :
    t.OneBottom ∧ t.Stacked := by
  have hlog := act_log ht
  have hkeep : t.stack = s.stack → t.Stacked := fun hst =>
    h.stacked.of_subset (fun b hb => hst ▸ hb) hlog
  cases x with
  | call g =>
    cases ht
    refine ⟨h.bottom.asyncCall a.self g, ?_⟩
    refine Stacked.cons (a := ⟨g, none⟩) h.stacked rfl hlog ⟨?_, nofun⟩
    exact started_cons.mpr (.inl ⟨_, rfl⟩)
  | ret =>
    cases ht
    exact ⟨h.bottom.quiet (.asyncReturn s _), hkeep (asyncReturn_stack s _)⟩
  | throw e =>
    cases ht
    exact ⟨h.bottom.quiet (.asyncThrow s _ e), hkeep (asyncThrow_stack s _ e)⟩
  | suspend =>
    cases ht
    exact ⟨h.bottom.quiet (.asyncWait s _ _), hkeep (asyncWait_stack s _ _)⟩
  | yield =>
    cases ht
    exact ⟨h.bottom.quiet (.asyncWait s _ _), hkeep (asyncWait_stack s _ _)⟩
  | pause =>
    obtain ⟨-, -, L, hL⟩ := whole_user h.whole huser hstack
    simp only [Machine.act, Option.ite_none_right_eq_some, Option.some.injEq] at ht
    obtain ⟨-, rfl⟩ := ht
    obtain ⟨-, k, hk, -, hkprev, hkf⟩ := caller_of_mayPause hL (by simpa [Pauses, hstack] using hpauses)
    have hstarted := (h.stacked a (by simp [hstack])).1
    exact ⟨h.bottom.asyncPause hk hkf hkprev hstarted, hkeep (asyncPause_stack s _)⟩
  | propagate =>
    simp only [Machine.act, Option.ite_none_right_eq_some, Option.some.injEq] at ht
    obtain ⟨-, rfl⟩ := ht
    exact ⟨h.bottom, hkeep rfl⟩
  | exception =>
    simp only [Machine.act, Option.ite_none_right_eq_some, Option.some.injEq] at ht
    obtain ⟨-, rfl⟩ := ht
    exact ⟨h.bottom.quiet (.catchException s _), hkeep (catchException_stack s _)⟩

/-- An exception of the frame that `_top` points to is an error that it throws. -/
theorem Intact.exception (h : s.Intact) (huser : s.userCode = true) (hstack : s.stack = a :: rest)
    (htop : s.top = .obj a.self) : (s.catchException a.self).Whole := by
  obtain ⟨-, -, L, hL⟩ := whole_user h.whole huser hstack
  by_cases htask : (s.obj a.self).task = true
  · rw [catchException_eq htask htop]
    exact returned_throw hL hstack _
  · rw [catchException, if_neg htask]
    exact whole_crash s

theorem Intact.whole_step {l : Label} (h : s.Intact) (hl : s.Regular l) (ht : s.step l = some t) :
    t.Whole := by
  by_cases hexc : l = .act .exception
  · subst hexc
    simp only [step] at ht
    split at ht
    · cases ht
    · rename_i a rest hstack
      simp only [Machine.act, Option.ite_none_right_eq_some, Option.some.injEq] at ht
      obtain ⟨huser, -, rfl⟩ := ht
      exact h.exception huser hstack (hl a (by simp [hstack]))
  · have hkeep : s.Single l = true ∧ s.Pauses l = true := by
      cases l with
      | spawn r => exact ⟨by simpa [Single] using hl.1, rfl⟩
      | cancel => exact hl.elim
      | act x => cases x <;> first | exact hl | exact absurd rfl hexc
      | _ => exact hl
    exact Machine.whole_step h.whole h.errors hkeep.1 hkeep.2 ht

theorem Intact.step {l : Label} (h : s.Intact) (hl : s.Regular l) (ht : s.step l = some t) :
    t.Intact := by
  have hkeep : ∀ t : Machine, t.obj = s.obj → t.stack = s.stack → s.log <:+ t.log →
      t.OneBottom ∧ t.Stacked :=
    fun t hobj hstack hlog => by
      refine ⟨?_, h.stacked.of_subset (fun b hb => hstack ▸ hb) hlog⟩
      obtain ⟨x, hx⟩ := h.bottom
      exact ⟨x, fun i hi => ⟨(hx i (hobj ▸ hi)).1, started_of_suffix hlog (hx i (hobj ▸ hi)).2⟩⟩
  suffices hboth : t.OneBottom ∧ t.Stacked from
    ⟨h.whole_step hl ht, h.errors.step ht, hboth.1, hboth.2⟩
  have hlog := step_log ht
  cases l with
  | tick => exact h.tick ht
  | act x =>
    simp only [Machine.step] at ht
    split at ht
    · cases ht
    · rename_i a rest hstack
      split at ht
      · rename_i huser
        refine h.act huser hstack ?_ ht
        cases x with
        | exception => rfl
        | _ => exact hl.2
      · cases ht
  | start f =>
    simp only [Machine.step, Option.ite_none_right_eq_some, Option.some.injEq] at ht
    obtain ⟨-, rfl⟩ := ht
    refine ⟨h.bottom.quiet ?_, h.stacked.of_subset (fun b hb => hb) hlog⟩
    exact Quiet.of_obj f (fun i hi => set_obj_ne s _ hi) (by simp) (by simp) (by simp)
      ⟨[], rfl, by simp⟩
  | spawn r =>
    simp only [Machine.step, Option.ite_none_right_eq_some, Option.some.injEq] at ht
    obtain ⟨-, rfl⟩ := ht
    refine ⟨⟨r, fun i hi => ?_⟩, h.stacked.of_subset (fun b hb => hb) hlog⟩
    have hir : i = r := by
      by_contra hir
      obtain ⟨x, hx⟩ := h.bottom
      have hstarted := (hx i (by simpa [Machine.spawn, set_obj, hir] using hi)).2
      simp [hl.1, started] at hstarted
    subst hir
    exact ⟨rfl, started_cons.mpr (.inl ⟨_, rfl⟩)⟩
  | resume e =>
    simp only [Machine.step, Option.ite_none_right_eq_some] at ht
    obtain ⟨-, ht⟩ := ht
    split at ht <;> cases ht
    · exact hkeep s rfl rfl hlog
    · exact hkeep _ rfl rfl hlog
  | run =>
    simp only [Machine.step, Option.ite_none_right_eq_some, Option.some.injEq] at ht
    obtain ⟨-, rfl⟩ := ht
    exact hkeep _ rfl rfl hlog
  | cancel => exact hl.elim

theorem Intact.init (p : ObjId → Bool) : (Machine.init p).Intact where
  whole := .init p
  errors := .init p
  bottom := ⟨0, fun i hi => by simp [Machine.init] at hi⟩
  stacked := nofun

end Machine

end Jinx.Await
