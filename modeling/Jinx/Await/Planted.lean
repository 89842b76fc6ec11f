import Jinx.Await.Rethrow

/-! An error that is stored in a paused awaitable, which is awaited next.

    `async_throw`, called on a paused awaitable from outside, leaves its error for the next `run`. The
    await of it then meets a paused frame with an error: `handle_error` answers `Passthrough`, so the
    error goes to the frame that awaits, and the paused one is finalized where it is in the chain. It
    still has its `_prev`, and nobody takes it out: the chain below the frame that awaited it leads to
    an awaitable without a task. -/

namespace Jinx.Await

open LinkedList

/-- Somebody behind the pointer goes on: a frame is polled or handles an error, or the task exits. -/
def Event.runs (p : Ptr) : Event → Bool
  | .polled g _ => p == .obj g
  | .handled g _ => p == .obj g
  | .exited _ => p == .task
  | _ => false

namespace Machine

/-- `async_throw`, called on an awaitable that is not run; nobody looks at the result. -/
def plant (s : Machine) (c : ObjId) (e : Error) : Machine := { s.asyncThrow c e with ctl := s.ctl }

/-- The callback of `f`, or its `handle_error`, has control, and `f` holds the paused frame `c`: below `f`
    there are frames that have paused since, then `c`. -/
structure Holds (s : Machine) (f c : ObjId) (between : List ObjId) : Prop where
  code : s.userCode = true
  stack : ∃ h rest, s.stack = ⟨f, h⟩ :: rest ∧ ∀ b ∈ rest, b.self ∉ between ∧ b.self ≠ c
  nodup : (f :: (between ++ [c])).Nodup
  links : Links s.callers .obj (.obj c) (s.callers f) between
  task : ∀ g ∈ f :: between, (s.obj g).task = true
  active : (s.obj f).isPaused = false
  paused : ∀ g ∈ between ++ [c], (s.obj g).pausable = true ∧ (s.obj g).prev = s.callers g
  own : s.callers c ≠ .null ∧ s.callers c ≠ .obj f

/-- The library alone brings the error to `handle_error` of `f`; on the way `f` gets this error once,
    nothing is awaited, and no callback is called. -/
def Delivers (s : Machine) (f : ObjId) (e : Error) (t : Machine) : Prop :=
  (∃ n, s.exec (List.replicate n .tick) = some t) ∧ t.ctl = .handling ∧
    t.stack.head? = some ⟨f, some e⟩ ∧ ∃ es, t.log = .handled f e :: es ++ s.log ∧
      ∀ ev ∈ es, ev.runs (.obj f) = false ∧ (∀ p g, ev ≠ .called p g) ∧ ∀ g r, ev ≠ .polled g r

/-- Some run in which `handle_error` ends by `x` goes on with what is behind `p`. -/
def Continues (t : Machine) (x : Act) (p : Ptr) : Prop :=
  ∃ ls u es, t.exec (.act x :: ls) = some u ∧ u.log = es ++ t.log ∧ ∃ ev ∈ es, ev.runs p = true

variable {s t : Machine} {f c g : ObjId} {A R : List ObjId} {e : Error} {a : Activation}
  {rest : List Activation} {x : Act} {l : Label} {p : Ptr}

/-! ### A finalized frame in the chain -/

/-- From `f` the callers lead through `A` to `c`, and from there back to `f`; `c` has a `_prev`. -/
structure Ring (s : Machine) (f c : ObjId) (A : List ObjId) : Prop where
  caller : ∀ g ∈ f :: A, ∃ k ∈ A ++ [c], s.callers g = .obj k
  back : s.callers c = .obj f
  pausable : (s.obj c).pausable = true
  prev : (s.obj c).prev ≠ .null ∧ (s.obj c).prev ≠ .obj f

/-- `c` was finalized. -/
structure Lost (s : Machine) (c : ObjId) : Prop where
  task : (s.obj c).task = false
  routine : (s.obj c).routine = .uninitialized

/-- What `_top` leads to: the paused frames `R`, then `c`. -/
structure Leading (s : Machine) (c : ObjId) (R : List ObjId) : Prop where
  nodup : (R ++ [c]).Nodup
  links : Links s.callers .obj (.obj c) s.top R
  task : ∀ g ∈ R, (s.obj g).task = true
  paused : ∀ g ∈ R, (s.obj g).pausable = true ∧ (s.obj g).prev = s.callers g

/-- Where control is meanwhile: the frames that return are not those that are left. -/
def Falling (s : Machine) (c : ObjId) (A R : List ObjId) : Prop :=
  match s.ctl with
  | .returned .ready => ∀ b ∈ s.stack, b.self ∉ R ∧ b.self ≠ c
  | .running => True
  | .entering => ∃ g, s.top = .obj g ∧ s.stack = [⟨g, none⟩]
  | .returned .passthrough => ∃ g e, s.top = .obj g ∧ s.stack = [⟨g, some e⟩]
  | .walking p => R = [] ∧ s.stack = [⟨c, none⟩] ∧ ∃ g ∈ A, p = .obj g
  | _ => False

/-- The task will follow a null pointer. -/
inductive Doomed (s : Machine) (f c : ObjId) (A : List ObjId) : Prop where
  | crashed (ctl : s.ctl = .crashed)
  | thrown (task : (s.obj c).task = false) (ctl : s.ctl = .returned .raise) (stack : s.stack = [⟨c, none⟩])
  | falling (R : List ObjId) (subset : R ⊆ A) (ring : s.Ring f c A) (lost : s.Lost c)
      (leading : s.Leading c R) (falling : s.Falling c A R)

/-- The events of a doomed task: nothing runs but the frames below `f`. -/
def Idle (B : List ObjId) : Event → Prop
  | .polled g _ => g ∈ B
  | .handled g _ => g ∈ B
  | .exited _ => False
  | _ => True

theorem Ring.quiet (h : s.Ring f c A) (hq : Quiet s t) : t.Ring f c A where
  caller := by rw [hq.callers]; exact h.caller
  back := by rw [hq.callers]; exact h.back
  pausable := (hq.pausable c).trans h.pausable
  prev := by rw [hq.prev]; exact h.prev

/-- The tasks of the frames that are left do not change either. -/
theorem Leading.quiet (h : s.Leading c R) (hq : Quiet s t) (htop : t.top = s.top)
    (htask : ∀ g ∈ R, (t.obj g).task = (s.obj g).task) : t.Leading c R where
  nodup := h.nodup
  links := by rw [hq.callers, htop]; exact h.links
  task g hg := (htask g hg).trans (h.task g hg)
  paused g hg := by rw [hq.pausable, hq.prev, hq.callers]; exact h.paused g hg

/-- The first of the frames that are left, and the others. -/
theorem Leading.tail (h : s.Leading c R) (htop : s.top = .obj g) :
    (R = [] ∧ g = c) ∨ ∃ R', R = g :: R' ∧ Links s.callers .obj (.obj c) (s.callers g) R' ∧
      (s.obj g).isPaused = true := by
  have hlinks := h.links
  rw [htop] at hlinks
  cases R with
  | nil => exact .inl ⟨rfl, by simpa using hlinks⟩
  | cons k R' =>
    obtain ⟨hk, hlinks⟩ := hlinks
    obtain rfl : g = k := by simpa using hk
    refine .inr ⟨R', rfl, hlinks, ?_⟩
    obtain ⟨hpausable, hprev⟩ := h.paused g List.mem_cons_self
    have hnull : s.callers g ≠ .null := by
      cases R' with
      | nil => rw [hlinks]; simp
      | cons k R' => rw [hlinks.1]; simp
    simp [Obj.isPaused, hpausable, hprev, hnull]

/-- The frame after the first one becomes `_top`. -/
theorem Leading.next {R' : List ObjId} (h : s.Leading c (g :: R')) (hq : Quiet s t)
    (htop : t.top = s.callers g) (htask : ∀ k, k ≠ g → (t.obj k).task = (s.obj k).task)
    (hlinks : Links s.callers .obj (.obj c) (s.callers g) R') : t.Leading c R' where
  nodup := (List.nodup_cons.mp h.nodup).2
  links := by rw [hq.callers, htop]; exact hlinks
  task k hk := by
    have hne : k ≠ g := fun heq =>
      (List.nodup_cons.mp h.nodup).1 (heq ▸ List.mem_append_left _ hk)
    exact (htask k hne).trans (h.task k (List.mem_cons_of_mem g hk))
  paused k hk := by
    rw [hq.pausable, hq.prev, hq.callers]
    exact h.paused k (List.mem_cons_of_mem g hk)

theorem Leading.top (h : s.Leading c R) : ∃ g, s.top = .obj g ∧ (g ∈ R ∨ g = c) := by
  have hlinks := h.links
  cases R with
  | nil => exact ⟨c, hlinks, .inr rfl⟩
  | cons g R => exact ⟨g, hlinks.1, .inl List.mem_cons_self⟩

theorem Ring.isPaused (h : s.Ring f c A) : (s.obj c).isPaused = true := by
  simp [Obj.isPaused, h.pausable, h.prev.1]

/-! ### Every step of a doomed task -/

/-- The step from `s` to `t` shows nothing of the frames that wait for `f`. -/
def Keeps (s t : Machine) (f c : ObjId) (A : List ObjId) : Prop :=
  t.Doomed f c A ∧ ∃ es, t.log = es ++ s.log ∧ ∀ ev ∈ es, Idle (A ++ [c]) ev

theorem Keeps.crash (s : Machine) : Keeps s s.crash f c A := ⟨.crashed rfl, [], rfl, by simp⟩

/-- An activation of another frame ends: the frame is finalized, since `_top` is elsewhere. -/
theorem keeps_return {b : Activation} (hring : s.Ring f c A) (hlost : s.Lost c) (h : s.Leading c R)
    (hsub : R ⊆ A) (hstack : ∀ d ∈ b :: rest, d.self ∉ R ∧ d.self ≠ c) :
    Keeps s (s.afterCallback b .ready rest) f c A := by
  obtain ⟨g, htop, hg⟩ := h.top
  obtain ⟨hbR, hbc⟩ := hstack b List.mem_cons_self
  have hne : s.top ≠ .obj b.self := by
    rw [htop]
    rintro heq
    obtain rfl : g = b.self := by simpa using heq
    rcases hg with hg | hg
    · exact hbR hg
    · exact hbc hg
  have hready : s.afterCallback b .ready rest =
      if (s.obj b.self).task = false then s.crash else (s.finalize b.self).deliver .ready rest := by
    have hstops : ControlState.stops .ready = false := rfl
    unfold afterCallback
    cases b.handling <;> simp [hstops, hne]
  rw [hready]
  split
  · exact Keeps.crash s
  have hq : Quiet s ((s.finalize b.self).deliver .ready rest) :=
    (Quiet.finalize s b.self).trans (Quiet.deliver _ _ _)
  have hobj : ((s.finalize b.self).deliver .ready rest).obj = (s.finalize b.self).obj := by
    cases rest <;> rfl
  have htop' : ((s.finalize b.self).deliver .ready rest).top = s.top := by cases rest <;> rfl
  have hother : ∀ k, k ≠ b.self → ((s.finalize b.self).obj k) = s.obj k := fun k hk => by
    simp [finalize, set_obj_ne _ _ hk]
  refine ⟨.falling R hsub (hring.quiet hq) ⟨?_, ?_⟩ (h.quiet hq htop' fun k hk => ?_) ?_,
    [.finalized b.self], by rw [deliver_log]; rfl, by simp [Idle]⟩
  · rw [hobj, hother c (Ne.symm hbc)]
    exact hlost.task
  · rw [hobj, hother c (Ne.symm hbc)]
    exact hlost.routine
  · rw [hobj, hother k (fun heq => hbR (heq ▸ hk))]
  · cases rest with
    | nil => simp [Falling, deliver]
    | cons d rest => exact fun k hk => hstack k (List.mem_cons_of_mem b hk)

/-- A paused frame whose caller is the one it has paused for returns. -/
theorem enter_returns (herror : (s.obj g).error.isSet = false) (hpaused : (s.obj g).isPaused = true)
    (hprev : (s.obj g).prev = (s.obj g).caller) (htask : (s.obj g).task = true) :
    s.enter g rest = { s with stack := ⟨g, none⟩ :: rest, top := (s.obj g).caller,
                              ctl := .returned .ready } := by
  simp [enter, herror, poll, hpaused, hprev, asyncReturn, htask]

/-- The chain is taken apart above a finalized frame, which is then polled and throws. -/
theorem keeps_swapDone (hlost : s.Lost c) (hstack : s.stack = [⟨c, none⟩]) (k : ObjId) :
    Keeps s (s.swapDone c (.obj k)) f c A := by
  obtain ⟨htask, hroutine⟩ := hlost
  let m := ((s.setCaller (.obj k) (s.obj c).prev).set c fun o => { o with prev := .null }).emit
    (.reentered c)
  have hm : (m.obj c).task = false ∧ (m.obj c).routine = .uninitialized := by
    rcases eq_or_ne c k with rfl | hk
    · simp [m, setCaller, htask, hroutine]
    · simp [m, setCaller, set_obj, htask, hroutine, hk]
  have hswap : s.swapDone c (.obj k) =
      (m.emit (.polled c .uninitialized)).asyncThrow c (makeError .uninitialized) := by
    show m.callback c = _
    simp [callback, hm.2]
  rw [hswap]
  refine ⟨.thrown ?_ rfl ?_, [.polled c .uninitialized, .reentered c], ?_, ?_⟩
  · simp [asyncThrow, hm.1]
  · rw [asyncThrow_stack]
    simpa [m] using hstack
  · rw [asyncThrow_log]
    simp [m]
  · simp [Idle]

/-- The first of the frames that are left is entered. -/
theorem keeps_enter (hring : s.Ring f c A) (hlost : s.Lost c) (h : s.Leading c R) (hsub : R ⊆ A)
    (htop : s.top = .obj g) : Keeps s (s.enter g []) f c A := by
  have hg : g ∈ A ++ [c] ∧ (s.obj g).isPaused = true := by
    rcases h.tail htop with ⟨-, rfl⟩ | ⟨R', rfl, -, hpaused⟩
    · exact ⟨by simp, hring.isPaused⟩
    · exact ⟨List.mem_append_left _ (hsub List.mem_cons_self), hpaused⟩
  rcases herror : (s.obj g).error.isSet with _ | _
  · rcases h.tail htop with ⟨rfl, rfl⟩ | ⟨R', rfl, hlinks, hpaused⟩
    · -- the finalized frame takes itself for one that is awaited again
      have hne : (s.obj g).prev ≠ (s.obj g).caller := by
        rw [show (s.obj g).caller = .obj f from hring.back]
        exact hring.prev.2
      obtain ⟨k, hk, hcaller⟩ := hring.caller f List.mem_cons_self
      have henter : s.enter g [] =
          let m := { s with stack := [⟨g, none⟩] }
          if k = g then m.swapDone g (.obj f) else { m with ctl := .walking (.obj k) } := by
        have hcaller' : (s.obj f).caller = .obj k := hcaller
        have hback : (s.obj g).caller = .obj f := hring.back
        simp [enter, herror, poll, hring.isPaused, hback, hring.prev.2, next, hcaller']
      rw [henter]
      dsimp only
      split
      · exact keeps_swapDone (s := { s with stack := [⟨g, none⟩] }) ⟨hlost.task, hlost.routine⟩ rfl f
      · rename_i hkg
        have hkA : k ∈ A := by simpa [hkg] using hk
        have hq : Quiet s { s with stack := [⟨g, none⟩], ctl := .walking (.obj k) } := .of_eq rfl rfl
        exact ⟨.falling [] (by simp) (hring.quiet hq) ⟨hlost.task, hlost.routine⟩
          (h.quiet hq rfl (by simp)) ⟨rfl, rfl, k, hkA, rfl⟩, [], rfl, by simp⟩
    · have hcons : g ∈ g :: R' := List.mem_cons_self
      rw [enter_returns herror hpaused (h.paused g hcons).2 (h.task g hcons)]
      have hq : Quiet s
          { s with stack := [⟨g, none⟩], top := (s.obj g).caller, ctl := .returned .ready } :=
        .of_eq rfl rfl
      refine ⟨.falling R' (fun k hk => hsub (List.mem_cons_of_mem g hk)) (hring.quiet hq)
        ⟨hlost.task, hlost.routine⟩ (h.next hq rfl (fun _ _ => rfl) hlinks) ?_, [], rfl, by simp⟩
      have hnot : g ∉ R' ++ [c] := (List.nodup_cons.mp h.nodup).1
      rw [List.mem_append, List.mem_singleton, not_or] at hnot
      intro b hb
      obtain rfl : b = ⟨g, none⟩ := by simpa using hb
      exact hnot
  · rw [enter_given herror, if_pos hg.2]
    have hq : Quiet s { s.given g [] with ctl := .returned .passthrough } :=
      (given_quiet s g []).trans (.of_eq rfl rfl)
    have hkeep := given_obj s g c []
    exact ⟨.falling R hsub (hring.quiet hq) ⟨hkeep.1.trans hlost.task, hkeep.2.trans hlost.routine⟩
      (h.quiet hq rfl fun k _ => (given_obj s g k []).1) ⟨g, _, htop, rfl⟩, [.handled g (s.obj g).error],
      rfl, by simpa [Idle] using hg.1⟩

/-- The error goes from the first of the frames that are left to the next. -/
theorem keeps_propagate (hring : s.Ring f c A) (hlost : s.Lost c) (h : s.Leading c R) (hsub : R ⊆ A)
    (htop : s.top = .obj g) (e : Error) : Keeps s (s.propagate g e []) f c A := by
  rcases h.tail htop with ⟨rfl, rfl⟩ | ⟨R', rfl, hlinks, -⟩
  · have hcrash : s.propagate g e [] = s.crash := by simp [propagate, hlost.task]
    rw [hcrash]
    exact Keeps.crash s
  · have hnot : g ∉ R' ++ [c] := (List.nodup_cons.mp h.nodup).1
    have hcg : c ≠ g := fun heq => hnot (by simp [heq])
    have hnull : (s.obj g).caller ≠ .null := by
      have hcaller : s.callers g ≠ .null := by
        cases R' with
        | nil => rw [hlinks]; simp
        | cons k R' => rw [hlinks.1]; simp
      exact hcaller
    have hq := Quiet.propagate s g e []
    have heq := propagate_eq (h.task g List.mem_cons_self) hnull e []
    rw [heq] at hq ⊢
    have hobj : ((s.raised g e).deliver .ready []).obj = (s.raised g e).obj := rfl
    refine ⟨.falling R' (fun k hk => hsub (List.mem_cons_of_mem g hk)) (hring.quiet hq) ⟨?_, ?_⟩
      (h.next hq (raised_top s g e) (fun k hk => ?_) hlinks) trivial, [.finalized g, .raised g e], ?_,
      by simp [Idle]⟩
    · rw [hobj, raised_task s e hcg]
      exact hlost.task
    · rw [hobj, raised_obj s g e hcg]
      split <;> exact hlost.routine
    · rw [hobj, raised_task s e hk]
    · rw [deliver_log, raised_log]
      rfl

/-- The walk through the frames above `c` ends at the one that leads to it. -/
theorem keeps_walk (hring : s.Ring f c A) (hlost : s.Lost c) (h : s.Leading c []) (hg : g ∈ A)
    (hstack : s.stack = [⟨c, none⟩]) : Keeps s (s.walk c (.obj g)) f c A := by
  obtain ⟨k, hk, hcaller⟩ := hring.caller g (List.mem_cons_of_mem f hg)
  have hnext : s.next (.obj g) = .obj k := hcaller
  have hwalk : s.walk c (.obj g) =
      if k = c then (s.repairPrev c (.obj g)).swapDone c (.obj g)
      else { s with ctl := .walking (.obj k) } := by
    simp [walk, hnext]
  rw [hwalk]
  split
  · have hkeep : (s.repairPrev c (.obj g)).Lost c := by
      simp only [repairPrev]
      split
      · rcases eq_or_ne c g with rfl | hne
        · exact ⟨by simpa using hlost.task, by simpa using hlost.routine⟩
        · exact ⟨by simpa [set_obj_ne s _ hne] using hlost.task,
            by simpa [set_obj_ne s _ hne] using hlost.routine⟩
      · exact hlost
    have hkeeps := keeps_swapDone (f := f) (A := A) hkeep (by simpa using hstack) g
    rwa [Keeps, repairPrev_log] at hkeeps
  · rename_i hkc
    have hkA : k ∈ A := by simpa [hkc] using hk
    have hq : Quiet s { s with ctl := .walking (.obj k) } := .of_eq rfl rfl
    exact ⟨.falling [] (by simp) (hring.quiet hq) ⟨hlost.task, hlost.routine⟩ (h.quiet hq rfl (by simp))
      ⟨rfl, hstack, k, hkA, rfl⟩, [], rfl, by simp⟩

theorem Doomed.step (h : s.Doomed f c A) (ht : s.step l = some t) : Keeps s t f c A := by
  have hinternal : s.ctl ≠ .stopped ∧ s.userCode = false := by
    cases h with
    | crashed ctl => simp [ctl, userCode]
    | thrown _ ctl _ => simp [ctl, userCode]
    | falling R _ _ _ _ hfall =>
      unfold Falling at hfall
      split at hfall <;> simp_all [userCode]
  obtain rfl := step_internal hinternal.1 hinternal.2 ht
  change s.tick = some t at ht
  cases h with
  | crashed ctl => simp [tick, ctl] at ht
  | thrown htask ctl stack =>
    have hstops : ControlState.stops .raise = false := rfl
    obtain rfl : s.crash = t := by simpa [tick, ctl, stack, afterCallback, hstops, htask] using ht
    exact Keeps.crash s
  | falling R hsub hring hlost hlead hfall =>
    unfold Falling at hfall
    split at hfall
    · -- an activation ends
      rename_i hctl
      cases hstack : s.stack with
      | nil => simp [tick, hctl, hstack] at ht
      | cons b rest =>
        obtain rfl : s.afterCallback b .ready rest = t := by simpa [tick, hctl, hstack] using ht
        exact keeps_return hring hlost hlead hsub (hstack ▸ hfall)
    · rename_i hctl
      obtain ⟨g, htop, -⟩ := hlead.top
      have hrun : { s with stack := [⟨g, none⟩], ctl := .entering } = t := by
        simpa [tick, hctl, runTop, htop] using ht
      have hq : Quiet s t := hrun ▸ .of_eq rfl rfl
      subst hrun
      exact ⟨.falling R hsub (hring.quiet hq) ⟨hlost.task, hlost.routine⟩
        (hlead.quiet hq rfl fun _ _ => rfl) ⟨g, htop, rfl⟩, [], rfl, by simp⟩
    · rename_i hctl
      obtain ⟨g, htop, hstack⟩ := hfall
      obtain rfl : s.enter g [] = t := by simpa [tick, hctl, hstack] using ht
      exact keeps_enter hring hlost hlead hsub htop
    · rename_i hctl
      obtain ⟨g, e, htop, hstack⟩ := hfall
      obtain rfl : s.propagate g e [] = t := by simpa [tick, hctl, hstack, afterCallback] using ht
      exact keeps_propagate hring hlost hlead hsub htop e
    · rename_i p hctl
      obtain ⟨rfl, hstack, g, hg, rfl⟩ := hfall
      obtain rfl : s.walk c (.obj g) = t := by simpa [tick, hctl, hstack] using ht
      exact keeps_walk hring hlost hlead hg hstack
    · exact hfall.elim

theorem Keeps.trans {r : Machine} (h : Keeps r s f c A) (h' : Keeps s t f c A) : Keeps r t f c A := by
  obtain ⟨-, es, hlog, hes⟩ := h
  obtain ⟨hdoomed, es', hlog', hes'⟩ := h'
  refine ⟨hdoomed, es' ++ es, by rw [hlog', hlog, List.append_assoc], fun ev hev => ?_⟩
  rcases List.mem_append.mp hev with hev | hev
  · exact hes' ev hev
  · exact hes ev hev

/-- A whole run of a doomed task. -/
theorem Doomed.run (h : s.Doomed f c A) (ls : List Label) (ht : s.exec ls = some t) :
    Keeps s t f c A := by
  have hrefl : Keeps s s f c A := ⟨h, [], rfl, by simp⟩
  exact Runs.exec_invariant (C := fun _ _ => True) (I := fun m => Keeps s m f c A)
    (fun _ _ _ hm _ hstep => hm.trans (hm.1.step hstep)) ls s t ht (Runs.meets_true ls s) hrefl

/-! ### The error in the handler of `f` -/

/-- `f` handles the error, and `c` is still in the chain below it. -/
structure Left (s : Machine) (f c : ObjId) (A : List ObjId) (e : Error) : Prop where
  stack : ∃ rest, s.stack = ⟨f, some e⟩ :: rest ∧ ∀ b ∈ rest, b.self ∉ A ∧ b.self ≠ c
  nodup : (f :: (A ++ [c])).Nodup
  ring : s.Ring f c A
  lost : s.Lost c
  links : Links s.callers .obj (.obj c) (s.callers f) A
  task : ∀ g ∈ f :: A, (s.obj g).task = true
  paused : ∀ g ∈ A, (s.obj g).pausable = true ∧ (s.obj g).prev = s.callers g

/-- A paused frame that is awaited and has an error gives it to the frame that awaits. -/
theorem paused_gives {h : Option Error} (hctl : s.ctl = .entering)
    (hstack : s.stack = ⟨c, none⟩ :: ⟨f, h⟩ :: rest)
    (herror : (s.obj c).error = e) (hset : e.isSet = true) (hpaused : (s.obj c).isPaused = true)
    (hback : (s.obj c).caller = .obj f) (htask : (s.obj c).task = true) (hcf : c ≠ f) :
    ∃ t, s.exec [.tick, .tick] = some t ∧ t.ctl = .returned .ready ∧ t.stack = ⟨f, h⟩ :: rest ∧
      t.top = .obj f ∧ (t.obj f).error = e ∧
      t.log = .finalized c :: .raised c e :: .handled c e :: s.log ∧ Quiet s t ∧ t.Lost c ∧
      ∀ g, g ≠ c → (t.obj g).task = (s.obj g).task := by
  subst herror
  let m : Machine := { s.given c (⟨f, h⟩ :: rest) with ctl := .returned .passthrough }
  have hm : s.tick = some m := by
    simp [tick, hctl, hstack, enter_given hset, hpaused, m]
  have hqm : Quiet s m := (given_quiet s c _).trans (.of_eq rfl rfl)
  have htaskm : ∀ g, (m.obj g).task = (s.obj g).task := fun g =>
    (given_obj s c g (⟨f, h⟩ :: rest)).1
  have hback' : (m.obj c).caller = .obj f := (hqm.caller c).trans hback
  let e := (s.obj c).error
  have ht : m.tick = some ((m.raised c e).deliver .ready (⟨f, h⟩ :: rest)) :=
    tick_raise ((htaskm c).trans htask) (by simp [hback']) rfl (.inr rfl)
  have hqt := Quiet.propagate m c e (⟨f, h⟩ :: rest)
  rw [propagate_eq ((htaskm c).trans htask) (by simp [hback'])] at hqt
  refine ⟨_, ?_, rfl, rfl, hback', ?_, ?_, hqm.trans hqt, ⟨?_, ?_⟩, fun g hg => ?_⟩
  · simp [exec, Runs.exec, Machine.step, hm, ht]
  · show ((m.raised c e).obj f).error = e
    rw [raised_obj m c e (Ne.symm hcf), if_pos hback']
  · show (m.raised c e).log = _
    rw [raised_log]
    rfl
  · simp [deliver, raised, finalize]
  · simp [deliver, raised, finalize]
  · exact (raised_task m e hg).trans (htaskm g)

/-- The frame that awaits finds the error when the inner activation has returned. -/
theorem awaiter_handles {h : Option Error} (hctl : s.ctl = .returned .ready)
    (hstack : s.stack = ⟨f, h⟩ :: rest) (htop : s.top = .obj f) (htask : (s.obj f).task = true)
    (herror : (s.obj f).error = e) (hset : e.isSet = true) (hactive : (s.obj f).isPaused = false) :
    ∃ t, s.exec [.tick, .tick] = some t ∧ t.ctl = .handling ∧ t.stack = ⟨f, some e⟩ :: rest ∧
      t.log = .handled f e :: s.log ∧ Quiet s t ∧
      ∀ g, (t.obj g).task = (s.obj g).task ∧ (t.obj g).routine = (s.obj g).routine := by
  subst herror
  let m : Machine := { s with ctl := .entering }
  have hstops : ControlState.stops .ready = false := rfl
  have hm : s.tick = some m := by
    cases h <;> simp [tick, hctl, hstack, afterCallback, hstops, htask, htop, m]
  have hset' : (m.obj f).error.isSet = true := hset
  have hgiven : m.enter f rest = { m.given f rest with ctl := .handling } := by
    rw [enter_given hset']
    simp [hactive, m]
  have ht : m.tick = some { m.given f rest with ctl := .handling } := by
    rw [← hgiven]
    simp [m, tick, hstack]
  refine ⟨{ m.given f rest with ctl := .handling }, ?_, rfl, rfl, rfl, ?_, fun g => given_obj m f g rest⟩
  · simp [exec, Runs.exec, Machine.step, hm, ht]
  · exact (.of_eq rfl rfl : Quiet s m).trans ((given_quiet m f rest).trans (.of_eq rfl rfl))

theorem Left.leading (h : s.Left f c A e) (hq : Quiet s t) (htop : t.top = s.callers f)
    (htask : ∀ g ∈ A, (t.obj g).task = (s.obj g).task) : t.Leading c A where
  nodup := (List.nodup_cons.mp h.nodup).2
  links := by rw [hq.callers, htop]; exact h.links
  task g hg := (htask g hg).trans (h.task g (List.mem_cons_of_mem f hg))
  paused g hg := by rw [hq.pausable, hq.prev, hq.callers]; exact h.paused g hg

/-- With `async_return` the chain goes on below `f`, with the frames that have paused for it. -/
theorem Left.ret (h : s.Left f c A e) (hctl : s.ctl = .handling) (ht : s.step (.act .ret) = some t) :
    Keeps s t f c A := by
  obtain ⟨rest, hstack, hrest⟩ := h.stack
  have hreturn : { s with top := s.callers f, ctl := .returned .ready } = t := by
    have htask := h.task f List.mem_cons_self
    have ht : s.asyncReturn f = t := by
      simpa [Machine.step, hstack, userCode, hctl, Machine.act] using ht
    rw [← ht, asyncReturn, if_pos htask]
    rfl
  have hq : Quiet s t := hreturn ▸ .of_eq rfl rfl
  subst hreturn
  refine ⟨.falling A (List.Subset.refl A) (h.ring.quiet hq) ⟨h.lost.task, h.lost.routine⟩
    (h.leading hq rfl fun _ _ => rfl) ?_, [], rfl, by simp⟩
  have hnot : f ∉ A ++ [c] := (List.nodup_cons.mp h.nodup).1
  rw [List.mem_append, List.mem_singleton, not_or] at hnot
  show ∀ b ∈ s.stack, b.self ∉ A ∧ b.self ≠ c
  rw [hstack]
  intro b hb
  rcases List.mem_cons.mp hb with rfl | hb
  · exact hnot
  · exact hrest b hb

/-- `handle_error` of the base class gives the error to the first of them. -/
theorem Left.propagate (h : s.Left f c A e) (hstack : s.stack = ⟨f, some e⟩ :: rest) :
    Keeps s (s.propagate f e rest) f c A := by
  obtain ⟨rest', hstack', hrest⟩ := h.stack
  obtain rfl : rest = rest' := by simpa using hstack.symm.trans hstack'
  have hnot : f ∉ A ++ [c] := (List.nodup_cons.mp h.nodup).1
  obtain ⟨k, -, hk⟩ := h.ring.caller f List.mem_cons_self
  have hnull : (s.obj f).caller ≠ .null := by rw [show (s.obj f).caller = .obj k from hk]; simp
  have hcf : c ≠ f := fun heq => hnot (by simp [heq])
  have hq := Quiet.propagate s f e rest
  rw [propagate_eq (h.task f List.mem_cons_self) hnull e rest] at hq ⊢
  have hobj : ((s.raised f e).deliver .ready rest).obj = (s.raised f e).obj := by cases rest <;> rfl
  have htop : ((s.raised f e).deliver .ready rest).top = s.callers f := by cases rest <;> rfl
  refine ⟨.falling A (List.Subset.refl A) (h.ring.quiet hq) ⟨?_, ?_⟩
    (h.leading hq htop fun g hg => ?_) ?_, [.finalized f, .raised f e], ?_, by simp [Idle]⟩
  · rw [hobj, raised_task s e hcf]
    exact h.lost.task
  · rw [hobj, raised_obj s f e hcf]
    split <;> exact h.lost.routine
  · rw [hobj, raised_task s e fun heq => hnot (by simp [← heq, hg])]
  · cases rest with
    | nil => trivial
    | cons d rest => exact hrest
  · rw [deliver_log, raised_log]
    rfl

/-- Nothing goes on but the frames that have paused for `f`. -/
theorem Left.not_continues (h : s.Left f c A e) (hctl : s.ctl = .handling)
    (hx : x = .ret ∨ x = .propagate) (hp : ∀ g ∈ A ++ [c], p ≠ .obj g) : ¬ s.Continues x p := by
  rintro ⟨ls, u, es, hrun, hlog, ev, hev, hruns⟩
  have hidle : ∀ es', u.log = es' ++ s.log → (∀ ev ∈ es', Idle (A ++ [c]) ev) → False := by
    intro es' hlog' hes'
    obtain rfl : es = es' := List.append_cancel_right (hlog.symm.trans hlog')
    have hone := hes' ev hev
    cases ev <;> simp [Event.runs, Idle] at hruns hone
    all_goals exact hp _ (List.mem_append.mpr (by simpa using hone)) hruns
  obtain ⟨m, hm, hmu⟩ := Runs.exec_cons.mp hrun
  rcases hx with rfl | rfl
  · have hkeeps := h.ret hctl hm
    obtain ⟨-, es', hlog', hes'⟩ := hkeeps.trans (hkeeps.1.run ls hmu)
    exact hidle es' hlog' hes'
  · obtain ⟨rest, hstack, -⟩ := h.stack
    obtain rfl : { s with ctl := .returned .raise } = m := by
      simpa [Machine.step, hstack, userCode, hctl, Machine.act] using hm
    cases ls with
    | nil =>
      obtain rfl : _ = u := Option.some.inj hmu
      exact hidle [] rfl (by simp)
    | cons l ls =>
      obtain ⟨m, hm, hmu⟩ := Runs.exec_cons.mp hmu
      obtain rfl := step_internal (by simp) rfl hm
      have hleft : ({ s with ctl := .returned .raise } : Machine).Left f c A e :=
        ⟨h.stack, h.nodup, ⟨h.ring.caller, h.ring.back, h.ring.pausable, h.ring.prev⟩,
          ⟨h.lost.task, h.lost.routine⟩, h.links, h.task, h.paused⟩
      obtain rfl : ({ s with ctl := .returned .raise } : Machine).propagate f e rest = m := by
        simpa [Machine.step, Machine.tick, hstack, afterCallback] using hm
      have hkeeps := hleft.propagate hstack
      obtain ⟨-, es', hlog', hes'⟩ := hkeeps.trans (hkeeps.1.run ls hmu)
      exact hidle es' hlog' hes'

/-! ### The await -/

/-- Each link leads to one of the frames or to the end. -/
theorem links_within {next : ObjId → Ptr} {q : Ptr} (h : Links next .obj (.obj c) q A) :
    (∃ k ∈ A ++ [c], q = .obj k) ∧ ∀ g ∈ A, ∃ k ∈ A ++ [c], next g = .obj k := by
  induction A generalizing q with
  | nil => exact ⟨⟨c, by simp, h⟩, by simp⟩
  | cons a A ih =>
    obtain ⟨rfl, h⟩ := h
    obtain ⟨⟨k, hk, hnext⟩, hall⟩ := ih h
    refine ⟨⟨a, by simp, rfl⟩, fun g hg => ?_⟩
    rcases List.mem_cons.mp hg with rfl | hg
    · exact ⟨k, List.mem_cons_of_mem _ hk, hnext⟩
    · obtain ⟨k, hk, hnext⟩ := hall g hg
      exact ⟨k, List.mem_cons_of_mem _ hk, hnext⟩

/-- The records when `f` has stored an error in `c` and awaits it. -/
theorem planted_obj (hcf : c ≠ f) (htask : (s.obj f).task = true) (he : e.value ≠ 0) :
    ((s.plant c e).asyncCall f c).obj c = { s.obj c with error := e, caller := .obj f, task := true } ∧
      ((s.plant c e).asyncCall f c).obj f = { s.obj f with routine := .later } ∧
      ∀ g, g ≠ c → g ≠ f → ((s.plant c e).asyncCall f c).obj g = s.obj g := by
  have hplant : (s.plant c e).obj = (s.set c fun o => { o with error := e }).obj := by
    simp only [plant, asyncThrow, he, if_false]
    split <;> rfl
  refine ⟨?_, ?_, fun g hgc hgf => ?_⟩
  · simp [asyncCall, hplant, set_obj, hcf, Ne.symm hcf, htask]
  · simp [asyncCall, hplant, set_obj, Ne.symm hcf]
  · simp [asyncCall, hplant, set_obj, hgc, hgf]

/-- What the other frames keep then. -/
theorem planted_keeps (hcf : c ≠ f) (htask : (s.obj f).task = true) (he : e.value ≠ 0) (hg : g ≠ c) :
    ((s.plant c e).asyncCall f c).callers g = s.callers g ∧
      (((s.plant c e).asyncCall f c).obj g).task = (s.obj g).task ∧
      (((s.plant c e).asyncCall f c).obj g).prev = (s.obj g).prev ∧
      (((s.plant c e).asyncCall f c).obj g).pausable = (s.obj g).pausable := by
  obtain ⟨-, hf, hother⟩ := planted_obj (e := e) hcf htask he
  rcases eq_or_ne g f with rfl | hgf
  · rw [callers, hf]
    exact ⟨rfl, rfl, rfl, rfl⟩
  · rw [callers, hother g hg hgf]
    exact ⟨rfl, rfl, rfl, rfl⟩

/-- A frame of the chain is not the one that is held. -/
theorem Holds.ne (h : s.Holds f c A) (hg : g ∈ f :: A) : g ≠ c := by
  rintro rfl
  have hdisjoint := (List.nodup_append.mp (show ((f :: A) ++ [g]).Nodup from h.nodup)).2.2
  exact hdisjoint g hg g (List.mem_singleton_self g) rfl

/-- When `c` is lost on the way to the handler of `f`, the chain is as it was. -/
theorem Holds.left (h : s.Holds f c A) (he : e.isSet = true)
    (hq : Quiet ((s.plant c e).asyncCall f c) t) (hlost : t.Lost c)
    (htask : ∀ g, g ≠ c → (t.obj g).task = (((s.plant c e).asyncCall f c).obj g).task)
    (hstack : t.stack = ⟨f, some e⟩ :: s.stack.tail) : t.Left f c A e := by
  obtain ⟨_, rest, hstack', hrest⟩ := h.stack
  have hcf : c ≠ f := (h.ne List.mem_cons_self).symm
  have he' : e.value ≠ 0 := by simpa [Error.isSet] using he
  have hf := h.task f List.mem_cons_self
  have hc := (planted_obj (e := e) hcf hf he').1
  have hpausedc := h.paused c (by simp)
  have hcallers : ∀ g, g ≠ c → t.callers g = s.callers g := fun g hg => by
    rw [hq.callers, (planted_keeps hcf hf he' hg).1]
  have hlinks : Links t.callers .obj (.obj c) (t.callers f) A := by
    rw [hcallers f (Ne.symm hcf)]
    exact h.links.congr fun g hg => hcallers g (h.ne (List.mem_cons_of_mem f hg))
  have hring : t.Ring f c A := by
    refine ⟨fun g hg => ?_, ?_, ?_, ?_⟩
    · obtain ⟨hfirst, hall⟩ := links_within hlinks
      rcases List.mem_cons.mp hg with rfl | hg
      · exact hfirst
      · exact hall g hg
    · rw [hq.callers, callers, hc]
    · rw [hq.pausable, hc]
      exact hpausedc.1
    · rw [hq.prev, hc]
      exact hpausedc.2 ▸ h.own
  refine ⟨⟨rest, ?_, hrest⟩, h.nodup, hring, hlost, hlinks, fun g hg => ?_, fun g hg => ?_⟩
  · rw [hstack, hstack']
    rfl
  · rw [htask g (h.ne hg), (planted_keeps hcf hf he' (h.ne hg)).2.1]
    exact h.task g hg
  · obtain ⟨hcallersg, -, hprev, hpausable⟩ :=
      planted_keeps hcf hf he' (h.ne (List.mem_cons_of_mem f hg))
    rw [hq.pausable, hq.prev, hq.callers, hcallersg, hprev, hpausable]
    exact h.paused g (List.mem_append_left _ hg)

/-- `f` awaits the paused frame `c`, in which an error was stored: `f` gets the error, and `c` is left in
    the chain below it. -/
theorem Holds.delivers (h : s.Holds f c A) (he : e.isSet = true) :
    ∃ t, Delivers ((s.plant c e).asyncCall f c) f e t ∧ t.ctl = .handling ∧ t.Left f c A e := by
  obtain ⟨handling, rest, hstack, -⟩ := h.stack
  have hcf : c ≠ f := (h.ne List.mem_cons_self).symm
  have he' : e.value ≠ 0 := by simpa [Error.isSet] using he
  have htask := h.task f List.mem_cons_self
  have hkept := (planted_keeps hcf htask he' (Ne.symm hcf)).2.1
  obtain ⟨hc, hf, -⟩ := planted_obj (e := e) hcf htask he'
  have hpausedc := h.paused c (by simp)
  let m := (s.plant c e).asyncCall f c
  have hmc : m.obj c = _ := hc
  have hmf : m.obj f = _ := hf
  have hmstack : m.stack = ⟨c, none⟩ :: ⟨f, handling⟩ :: rest := by
    show ⟨c, none⟩ :: (s.plant c e).stack = _
    rw [plant, asyncThrow_stack, hstack]
  have hmpaused : (m.obj c).isPaused = true := by
    rw [hmc]
    simp [Obj.isPaused, hpausedc.1, hpausedc.2, h.own.1]
  have hmactive : (m.obj f).isPaused = false := by
    rw [hmf]
    exact h.active
  -- first `c` gives the error to `f`, then `f` handles it
  obtain ⟨t₁, ht₁, hctl₁, hstack₁, htop₁, herror₁, hlog₁, hq₁, hlost₁, htask₁⟩ :=
    paused_gives (s := m) rfl hmstack (by rw [hmc]) he hmpaused (by rw [hmc]) (by rw [hmc]) hcf
  have hactive₁ : (t₁.obj f).isPaused = false := by
    rw [Obj.isPaused] at hmactive ⊢
    rwa [hq₁.pausable, hq₁.prev]
  have hf₁ : (t₁.obj f).task = true := (htask₁ f (Ne.symm hcf)).trans (hkept.trans htask)
  obtain ⟨t, ht, hctl, hstack', hlog, hq, hobj⟩ :=
    awaiter_handles hctl₁ hstack₁ htop₁ hf₁ herror₁ he hactive₁
  have hleft : t.Left f c A e := by
    refine h.left he (hq₁.trans hq) ⟨(hobj c).1.trans hlost₁.task, (hobj c).2.trans hlost₁.routine⟩
      (fun g hg => (hobj g).1.trans (htask₁ g hg)) ?_
    rw [hstack', hstack]
    rfl
  refine ⟨t, ⟨⟨4, Runs.exec_trans ht₁ ht⟩, hctl, by rw [hstack']; rfl,
    [.finalized c, .raised c e, .handled c e], ?_, ?_⟩, hctl, hleft⟩
  · rw [hlog, hlog₁]
    rfl
  · simp [Event.runs, Ne.symm hcf]

/-- A frame that is neither paused nor finalized and has no error is polled. -/
theorem enter_polls (hstack : s.stack = ⟨f, none⟩ :: rest) (herror : (s.obj f).error.isSet = false)
    (hactive : (s.obj f).isPaused = false) (hroutine : (s.obj f).routine ≠ .uninitialized) :
    s.enter f rest = { s.emit (.polled f (s.obj f).routine) with ctl := .polling } := by
  simp [enter, herror, poll, hactive, callback, hroutine, emit, ← hstack]

/-- `async_pause` of a frame that is awaited by `f`: the two change places in the chain. -/
theorem pause_swaps (htask : (s.obj c).task = true) (hback : s.callers c = .obj f) (hcf : c ≠ f) :
    (s.asyncPause c).obj f = { s.obj f with caller := .obj c } ∧
      (s.asyncPause c).obj c = { s.obj c with prev := s.callers f, caller := s.callers f } ∧
      (s.asyncPause c).stack = s.stack ∧ (s.asyncPause c).top = .obj f ∧
      (s.asyncPause c).ctl = .returned .pause := by
  have hcaller : (s.obj c).caller = .obj f := hback
  have hnext : s.next (.obj f) = s.callers f := rfl
  have hm : s.asyncPause c = { ((((s.set c fun o => { o with prev := s.callers f }).set f fun o =>
      { o with caller := .obj c }).set c fun o => { o with caller := s.callers f }).emit (.paused c)) with
      top := .obj f, ctl := .returned .pause } := by
    simp [asyncPause, hcaller, hnext, htask, setCaller]
    rfl
  rw [hm]
  refine ⟨?_, ?_, rfl, rfl, rfl⟩
  · simp [set_obj, Ne.symm hcf]
  · simp [set_obj, hcf]

/-- `f` is entered when the frame above it has paused: by the activation that awaits, or by the task. -/
theorem awaiter_enters (hctl : s.ctl = .returned .pause) (hstack : s.stack = ⟨c, none⟩ :: rest)
    (htop : s.top = .obj f) (htask : (s.obj f).task = true)
    (hrest : rest = [] ∨ ∃ rest', rest = ⟨f, none⟩ :: rest' ∧ ∀ b ∈ rest', b.self ≠ c) :
    ∃ rest', (∀ b ∈ rest', b.self ≠ c) ∧
      s.exec [.tick, .tick] = some { s with stack := ⟨f, none⟩ :: rest', ctl := .entering } := by
  have hpause : ControlState.stops .pause = true := rfl
  have hready : ControlState.stops .ready = false := rfl
  have hdeliver : s.tick = some (s.deliver .ready rest) := by
    simp [tick, hctl, hstack, afterCallback, hpause]
  rcases hrest with rfl | ⟨rest', rfl, hwaits⟩
  · have hrun : (s.deliver .ready []).tick =
        some { s with stack := [⟨f, none⟩], ctl := .entering } := by
      simp [deliver, tick, runTop, htop]
    exact ⟨[], by simp, Runs.exec_cons.mpr ⟨_, hdeliver, Runs.exec_cons.mpr ⟨_, hrun, rfl⟩⟩⟩
  · have hrun : (s.deliver .ready (⟨f, none⟩ :: rest')).tick =
        some { s with stack := ⟨f, none⟩ :: rest', ctl := .entering } := by
      simp [deliver, tick, afterCallback, hready, htask, htop]
    exact ⟨rest', hwaits, Runs.exec_cons.mpr ⟨_, hdeliver, Runs.exec_cons.mpr ⟨_, hrun, rfl⟩⟩⟩

/-- How a frame comes to be held: `f` has awaited it, it pauses, and `f` is polled again. -/
theorem holds_of_pause (hctl : s.ctl = .polling) (hstack : s.stack = ⟨c, none⟩ :: rest)
    (hrest : rest = [] ∨ ∃ rest', rest = ⟨f, none⟩ :: rest' ∧ ∀ b ∈ rest', b.self ≠ c) (hcf : c ≠ f)
    (hc : (s.obj c).task = true ∧ (s.obj c).pausable = true ∧ s.callers c = .obj f)
    (hf : (s.obj f).task = true ∧ (s.obj f).prev = .null ∧ (s.obj f).error.isSet = false ∧
      (s.obj f).routine ≠ .uninitialized)
    (hown : s.callers f ≠ .null ∧ s.callers f ≠ .obj f) :
    ∃ t, s.exec [.act .pause, .tick, .tick, .tick] = some t ∧ t.Holds f c [] := by
  obtain ⟨hmf, hmc, hmstack, hmtop, hmctl⟩ := pause_swaps hc.1 hc.2.2 hcf
  let m := s.asyncPause c
  have hpause : s.step (.act .pause) = some m := by
    simp [Machine.step, hstack, userCode, hctl, Machine.act, hc.2.1, m]
  have hmtask : (m.obj f).task = true := by
    rw [hmf]
    exact hf.1
  obtain ⟨rest', hwaits, hfirst⟩ :=
    awaiter_enters hmctl (hmstack.trans hstack) hmtop hmtask hrest
  let n : Machine := { m with stack := ⟨f, none⟩ :: rest', ctl := .entering }
  have hnf : n.obj f = { s.obj f with caller := .obj c } := hmf
  have hactive : (n.obj f).isPaused = false := by
    rw [hnf]
    simp [Obj.isPaused, hf.2.1]
  have hroutine : (n.obj f).routine ≠ .uninitialized := by
    rw [hnf]
    exact hf.2.2.2
  have henter := enter_polls (s := n) rfl (by rw [hnf]; exact hf.2.2.1) hactive hroutine
  let t : Machine := { n.emit (.polled f (n.obj f).routine) with ctl := .polling }
  refine ⟨t, ?_, rfl, ⟨none, rest', rfl, fun b hb => ⟨by simp, hwaits b hb⟩⟩, by simp [Ne.symm hcf], ?_, ?_,
    hactive, ?_, ?_⟩
  · have hlast : n.exec [.tick] = some t := Runs.exec_cons.mpr ⟨t, congrArg some henter, rfl⟩
    exact Runs.exec_cons.mpr ⟨m, hpause, Runs.exec_trans hfirst hlast⟩
  · exact congrArg Obj.caller hnf
  · intro g hg
    obtain rfl : g = f := by simpa using hg
    exact (congrArg Obj.task hnf).trans hf.1
  · intro g hg
    obtain rfl : g = c := by simpa using hg
    show (m.obj g).pausable = true ∧ (m.obj g).prev = (m.obj g).caller
    rw [hmc]
    exact ⟨hc.2.1, rfl⟩
  · show (m.obj c).caller ≠ .null ∧ (m.obj c).caller ≠ .obj f
    rw [hmc]
    exact hown

/-- CORRECT: an error that `f` stores in a paused frame it holds, and awaits, is delivered to `f`, but
    whether `f` returns or gives it on, nothing goes on below `f` but the frames it has paused. -/
theorem planted_never_continues (h : s.Holds f c A) (he : e.isSet = true) :
    ∃ t, Delivers ((s.plant c e).asyncCall f c) f e t ∧
      ∀ x, x = .ret ∨ x = .propagate → ∀ p, (∀ g ∈ A ++ [c], p ≠ .obj g) → ¬ t.Continues x p := by
  obtain ⟨t, hdelivers, hctl, hleft⟩ := h.delivers he
  exact ⟨t, hdelivers, fun x hx p hp => hleft.not_continues hctl hx hp⟩

end Machine

end Jinx.Await
