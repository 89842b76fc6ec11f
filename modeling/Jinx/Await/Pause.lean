import Jinx.Await.Chain
import Jinx.Await.Resume
import Jinx.Await.Reuse

/-! Pausing and re-entering keep the call chain whole.

    `_top` is written when control leaves a frame. While user code runs, the chain begins at the
    innermost frame; from there it has every live frame in it, as long as no frame pauses whose
    `_caller` is itself paused (`mayPause`). A re-entry is the one point where the links are out of
    order for a moment (`Reentering`), until the walk in `swap_awaitable` has found the frame above
    the paused one. -/

namespace Jinx.Await

open LinkedList

namespace Machine

variable {s t : Machine} {f g p D : ObjId} {a : Activation} {rest : List Activation} {L : List ObjId}

/-- Where the chain begins: at the frame that runs, else at `_top`. -/
def current (s : Machine) : Ptr :=
  match s.stack with
  | a :: _ => .obj a.self
  | [] => s.top

/-- `_caller` of `f` is an awaitable that is not paused. -/
def mayPause (s : Machine) (f : ObjId) : Bool :=
  (s.obj f).task &&
    match (s.obj f).caller with
    | .obj k => !(s.obj k).isPaused
    | _ => false

/-- The runs of one task in which every object is used for one activation: it is awaited when it was
    never started, or when it is parked. -/
def Single (s : Machine) : Label → Bool
  | .act (.call g) => !started s.log g || (parked s.log g && live s.log g)
  | .act .exception => false
  | .spawn _ => s.log = []
  | .cancel => false
  | _ => true

/-- No frame pauses while its `_caller` is paused. -/
def Pauses (s : Machine) : Label → Bool
  | .act .pause => s.stack.head?.all fun a => s.mayPause a.self
  | _ => true

/-- From `q` there is a chain to the task, without repeats and with every live frame in it. -/
def ChainFrom (s : Machine) (q : Ptr) : Prop :=
  ∃ L, Links s.callers .obj .task q L ∧ L.Nodup ∧ ∀ f, live s.log f = true → f ∈ L

/-- What holds while the callback or `handle_error` of `a` has returned `st`. -/
def Returned (s : Machine) (a : Activation) (st : ControlState) : Prop :=
  (st = .raise ∨ st = .passthrough) ∧ (∃ L, Settled s (.obj a.self) L) ∧
      (a.handling = none → st = .raise ∧ ((s.obj a.self).task = true → s.top = .obj a.self)) ∨
    (st.stops = true ∧ st ≠ .passthrough) ∧ (∃ L, Settled s s.top L) ∨
    st = .ready ∧ ∃ L, Frames s s.callers s.top L ∧ ∀ f, live s.log f = true → f ∈ L ∨ f = a.self

/-- Where the chain begins, according to where control is. -/
def Whole (s : Machine) : Prop :=
  match s.ctl, s.stack with
  | .stopped, [] =>
    (s.top = .null ∧ Sane s ∧ ∀ f, live s.log f = false) ∨ ∃ L, Settled s s.top L
  | .running, [] => ∃ L, Settled s s.top L
  | .entering, a :: _ => (∃ L, Settled s (.obj a.self) L) ∨ ∃ D L, Reentering s a.self D L
  | .polling, a :: _ => (s.obj a.self).prev = .null ∧ ∃ L, Settled s (.obj a.self) L
  | .handling, a :: _ =>
    a.handling ≠ none ∧ (s.obj a.self).prev = .null ∧ ∃ L, Settled s (.obj a.self) L
  | .walking c, a :: _ => a.handling = none ∧ ∃ D X d Z Y,
      Reentering s a.self D (X ++ d :: Z ++ a.self :: Y) ∧ X ≠ [] ∧ c = .obj d
  | .returned st, a :: _ => s.Returned a st
  | .crashed, _ => True
  | _, _ => False

/-! ### Where control is -/

theorem whole_entering (hctl : s.ctl = .entering) (hstack : s.stack = a :: rest) :
    s.Whole ↔ (∃ L, Settled s (.obj a.self) L) ∨ ∃ D L, Reentering s a.self D L := by
  simp only [Whole, hctl, hstack]

theorem whole_polling (hctl : s.ctl = .polling) (hstack : s.stack = a :: rest) :
    s.Whole ↔ (s.obj a.self).prev = .null ∧ ∃ L, Settled s (.obj a.self) L := by
  simp only [Whole, hctl, hstack]

theorem whole_handling (hctl : s.ctl = .handling) (hstack : s.stack = a :: rest) :
    s.Whole ↔ a.handling ≠ none ∧ (s.obj a.self).prev = .null ∧ ∃ L, Settled s (.obj a.self) L := by
  simp only [Whole, hctl, hstack]

theorem whole_walking {c : Ptr} (hctl : s.ctl = .walking c) (hstack : s.stack = a :: rest) :
    s.Whole ↔ a.handling = none ∧ ∃ D X d Z Y,
      Reentering s a.self D (X ++ d :: Z ++ a.self :: Y) ∧ X ≠ [] ∧ c = .obj d := by
  simp only [Whole, hctl, hstack]

theorem whole_returned {st : ControlState} (hctl : s.ctl = .returned st)
    (hstack : s.stack = a :: rest) : s.Whole ↔ s.Returned a st := by
  simp only [Whole, hctl, hstack]

theorem whole_stopped (hctl : s.ctl = .stopped) (hstack : s.stack = []) :
    s.Whole ↔ (s.top = .null ∧ Sane s ∧ ∀ f, live s.log f = false) ∨ ∃ L, Settled s s.top L := by
  simp only [Whole, hctl, hstack]

theorem whole_running (hctl : s.ctl = .running) (hstack : s.stack = []) :
    s.Whole ↔ ∃ L, Settled s s.top L := by
  simp only [Whole, hctl, hstack]

/-- Outside `Task::run` the C++ stack is empty. -/
theorem Whole.stack_nil (h : s.Whole) (hctl : s.ctl = .stopped ∨ s.ctl = .running) :
    s.stack = [] := by
  cases hs : s.stack with
  | nil => rfl
  | cons b rest => rcases hctl with hctl | hctl <;> simp [Whole, hctl, hs] at h

theorem whole_crash (s : Machine) : s.crash.Whole := trivial

/-- A frame that throws has control again, if it is a frame of the task. -/
theorem returned_throw (h : Settled s (.obj a.self) L) (hstack : s.stack = a :: rest) (e : Error) :
    (s.asyncThrow a.self e).Whole := by
  have hstack' : (s.asyncThrow a.self e).stack = a :: rest := by
    unfold asyncThrow; dsimp only; split <;> exact hstack
  have htop : ((s.asyncThrow a.self e).obj a.self).task = true →
      (s.asyncThrow a.self e).top = .obj a.self := by
    rcases htask : (s.obj a.self).task with _ | _ <;> simp [asyncThrow, htask]
  exact (whole_returned rfl hstack').mpr
    (.inl ⟨.inl rfl, ⟨L, h.quiet (Quiet.asyncThrow s _ e)⟩, fun _ => ⟨rfl, htop⟩⟩)

/-! ### The library goes on -/

theorem whole_deliver {st : ControlState} (h : Settled s s.top L)
    (hst : st = .ready ∨ st.stops = true ∧ st ≠ .passthrough) (rest : List Activation) :
    (s.deliver st rest).Whole := by
  have hq : ∀ stack ctl state, Settled { s with stack := stack, ctl := ctl, state := state } s.top L :=
    fun _ _ _ => h.quiet (.of_eq rfl rfl)
  cases rest with
  | nil =>
    rcases eq_or_ne st .ready with rfl | hne
    · exact ⟨L, hq [] .running s.state⟩
    · rw [show s.deliver st [] = { s with stack := [], ctl := .stopped, state := st } by
        simp [deliver, hne]]
      exact .inr ⟨L, hq [] .stopped st⟩
  | cons b rest =>
    rcases hst with rfl | hst
    · have h' := hq (b :: rest) (.returned .ready) s.state
      exact .inr (.inr ⟨rfl, L, h'.toFrames, fun f hf => .inl (h'.live f hf)⟩)
    · exact .inr (.inl ⟨hst, L, hq (b :: rest) (.returned st) s.state⟩)

/-- The caller of a frame has the rest of the chain. -/
theorem settled_tail (h : Settled s (.obj f) L) :
    ∃ L', Frames s s.callers (s.obj f).caller L' ∧ ∀ g, live s.log g = true → g ∈ L' ∨ g = f := by
  obtain ⟨L', rfl, htail⟩ := h.tail
  exact ⟨L', htail, fun g hg => (List.mem_cons.mp (h.live g hg)).symm⟩

/-- `f` is finalized: the rest of the chain has every live frame. -/
theorem settled_finalize {q : Ptr} (h : Frames s s.callers q L)
    (hlive : ∀ g, live s.log g = true → g ∈ L ∨ g = f) : Settled (s.finalize f) q L where
  toFrames := (Quiet.finalize s f).callers.symm ▸ h.quiet (Quiet.finalize s f)
  live g hg := by
    have hne : g ≠ f := fun hc => (live_iff.mp hg).2 (by simp [hc, finalize])
    exact (hlive g ((Quiet.finalize s f).live hg)).resolve_right hne

theorem whole_propagate (h : Settled s (.obj f) L) (e : Error) (rest : List Activation) :
    (s.propagate f e rest).Whole := by
  unfold propagate
  dsimp only
  split
  · trivial
  · obtain ⟨L', htail, hlive⟩ := settled_tail h
    have hq : Quiet s { (s.emit (.raised f e)).setError (s.obj f).caller e with
        top := (s.obj f).caller } :=
      ((Quiet.emit s rfl).trans (Quiet.setError _ _ e)).trans (.of_eq rfl rfl)
    refine whole_deliver (L := L') (settled_finalize (hq.callers.symm ▸ htail.quiet hq)
      fun g hg => hlive g (hq.live hg)) (.inl rfl) rest

theorem Returned.afterCallback {st : ControlState} (h : s.Returned a st)
    (hstack : s.stack = a :: rest) : (s.afterCallback a st rest).Whole := by
  have henter : ∀ L, Settled s (.obj a.self) L → ({ s with ctl := .entering } : Machine).Whole :=
    fun L hL => (whole_entering (s := { s with ctl := .entering }) rfl hstack).mpr
      (.inl ⟨L, hL.quiet (.of_eq rfl rfl)⟩)
  rcases h with ⟨hst, ⟨L, hL⟩, hnone⟩ | ⟨hst, L, hL⟩ | ⟨rfl, L, hL, hlive⟩
  · cases hh : a.handling with
    | some e =>
      rcases hst with rfl | rfl <;> simp only [Machine.afterCallback, hh] <;>
        exact whole_propagate hL e rest
    | none =>
      obtain ⟨rfl, htop⟩ := hnone hh
      simp only [Machine.afterCallback, hh, show ControlState.stops .raise = false from rfl]
      split
      · contradiction
      split
      · trivial
      · rename_i htask
        rw [if_pos (htop (by simpa using htask))]
        exact henter L hL
  · have hafter : s.afterCallback a st rest = s.deliver (if st = .pause then .ready else st) rest := by
      unfold Machine.afterCallback
      cases hh : a.handling <;> cases st <;> simp_all [ControlState.stops, ControlState.toInt]
    rw [hafter]
    refine whole_deliver hL ?_ rest
    split
    · exact .inl rfl
    · exact .inr hst
  · have hstops : ControlState.stops .ready = false := rfl
    have hafter : s.afterCallback a .ready rest =
        if (s.obj a.self).task = false then s.crash
        else if s.top = .obj a.self then { s with ctl := .entering }
        else (s.finalize a.self).deliver .ready rest := by
      cases hh : a.handling <;> simp [Machine.afterCallback, hh, hstops]
    rw [hafter]
    split
    · trivial
    split
    · rename_i htop
      rw [htop] at hL
      exact henter L ⟨hL, fun f hf => (hlive f hf).elim id fun hc => hc ▸ hL.head⟩
    · exact whole_deliver (settled_finalize hL hlive) (.inl rfl) rest

/-- The innermost frame is polled: it gets control, or was finalized and throws. -/
theorem whole_callback (h : Settled s (.obj f) L) (hprev : (s.obj f).prev = .null)
    (hstack : s.stack = ⟨f, none⟩ :: rest) : (s.callback f).Whole := by
  have hq : Quiet s (s.emit (.polled f (s.obj f).routine)) := .emit s rfl
  unfold callback
  dsimp only
  split
  · exact returned_throw (a := ⟨f, none⟩) (h.quiet hq) hstack _
  · exact (whole_polling (s := { s.emit (.polled f (s.obj f).routine) with ctl := .polling })
      (a := ⟨f, none⟩) rfl hstack).mpr ⟨hprev, L, (h.quiet hq).quiet (.of_eq rfl rfl)⟩

/-- `async_return` of the innermost frame. -/
theorem whole_asyncReturn (h : Settled s (.obj a.self) L) (hstack : s.stack = a :: rest) :
    (s.asyncReturn a.self).Whole := by
  unfold asyncReturn
  split
  · obtain ⟨L', htail, hlive⟩ := settled_tail h
    let m : Machine := { s with top := (s.obj a.self).caller, ctl := .returned .ready }
    have hq : Quiet s m := .of_eq rfl rfl
    exact (whole_returned (s := m) rfl hstack).mpr
      (.inr (.inr ⟨rfl, L', htail.quiet hq, hlive⟩))
  · exact whole_crash s

theorem whole_asyncWait {st : ControlState} (hst : st = .suspended ∨ st = .yield)
    (h : Settled s (.obj a.self) L) (hstack : s.stack = a :: rest) : (s.asyncWait a.self st).Whole := by
  unfold asyncWait
  split
  · let m := emit { s with top := .obj a.self, ctl := .returned st } (.waited a.self)
    have hq : Quiet s m :=
      (Quiet.of_eq rfl rfl : Quiet s { s with top := .obj a.self, ctl := .returned st }).trans
        (Quiet.emit _ rfl)
    have hstops : st.stops = true ∧ st ≠ .passthrough := by
      rcases hst with rfl | rfl <;> decide
    exact (whole_returned (s := m) rfl hstack).mpr (.inr (.inl ⟨hstops, L, h.quiet hq⟩))
  · exact whole_crash s

/-- The walk of `p` is over: `d` is the frame above it. -/
theorem whole_swapDone {X Y : List ObjId} {m : Machine} {x : Ptr}
    (h : Reentering s p D (X ++ d :: p :: Y)) (hother : ∀ i, i ≠ d → m.obj i = s.obj i)
    (hd : m.obj d = { s.obj d with prev := x })
    (hx : x = .null ∧ (s.obj d).prev = .null ∨
      (s.obj d).pausable = true ∧ x = (s.obj p).prev)
    (hlog : m.log = s.log) (hstack : m.stack = ⟨p, none⟩ :: rest) :
    (m.swapDone p (.obj d)).Whole := by
  have hpd : p ≠ d := by
    have hn := (List.nodup_append.mp h.nodup).2.1
    rintro rfl
    simp at hn
  let b := ((m.setCaller (.obj d) (m.obj p).prev).set p fun o => { o with prev := .null }).emit
    (.reentered p)
  have hp : b.obj p = { s.obj p with prev := .null } := by
    simp [b, setCaller, set_obj, hpd, hother p hpd]
  have hbd : b.obj d = { s.obj d with prev := x, caller := (s.obj p).prev } := by
    simp [b, setCaller, set_obj, hpd.symm, hd, hother p hpd]
  have hb : ∀ i, i ≠ d → i ≠ p → b.obj i = s.obj i := fun i hi hip => by
    simp [b, setCaller, set_obj, hi, hip, hother i hi]
  have hsettled : Settled b (.obj p) (p :: (X ++ d :: Y)) := by
    refine h.splice (fun f hf => ?_) (by rw [hbd]) (fun f hf hfp => by rw [hb f hf hfp]) (by rw [hp])
      (by rw [hbd]; exact hx) (fun f => ?_) (by simp [b, hlog])
    · rcases eq_or_ne f p with rfl | hfp
      · rw [hp]
      · rw [hb f hf hfp]
    · rcases eq_or_ne f p with rfl | hfp
      · rw [hp]
      rcases eq_or_ne f d with rfl | hf
      · rw [hbd]
      · rw [hb f hf hfp]
  exact whole_callback hsettled (by rw [hp]) (by simpa [b] using hstack)

/-- The walk is at `d`, and the frames `Z` are between it and `p`. -/
theorem walk_link {X Z Y : List ObjId} (h : Reentering s p D (X ++ d :: Z ++ p :: Y)) :
    s.next (.obj d) = .obj (Z.headD p) := by
  have hdp : d ≠ p := (List.nodup_append.mp h.nodup).2.2 d (by simp) p List.mem_cons_self
  obtain ⟨Y', hZ⟩ : ∃ Y', Z ++ p :: Y = Z.headD p :: Y' := by
    cases Z with
    | nil => exact ⟨Y, rfl⟩
    | cons z Z => exact ⟨Z ++ p :: Y, rfl⟩
  have hL : X ++ d :: Z ++ p :: Y = X ++ d :: Z.headD p :: Y' := by simp [hZ]
  have hnext := (hL ▸ h.links).next_eq
  rwa [Function.update_of_ne hdp] at hnext

theorem walk_here {X Y : List ObjId} (h : Reentering s p D (X ++ [d] ++ p :: Y)) :
    s.walk p (.obj d) = (s.repairPrev p (.obj d)).swapDone p (.obj d) := by
  simp only [walk, if_neg (show Ptr.obj d ≠ .null by simp)]
  exact if_pos (walk_link h)

theorem walk_on {z : ObjId} {X Z Y : List ObjId}
    (h : Reentering s p D (X ++ d :: z :: Z ++ p :: Y)) :
    s.walk p (.obj d) = { s with ctl := .walking (.obj z) } := by
  have hz : s.next (.obj d) = .obj z := walk_link h
  have hzp : z ≠ p := (List.nodup_append.mp h.nodup).2.2 z (by simp) p List.mem_cons_self
  simp only [walk, if_neg (show Ptr.obj d ≠ .null by simp)]
  rw [if_neg (by simpa [hz] using hzp), hz]

theorem whole_walk {c : Ptr} (hctl : s.ctl = .walking c) (hstack : s.stack = a :: rest)
    (h : s.Whole) : (s.walk a.self c).Whole := by
  obtain ⟨hnone, D, X, d, Z, Y, h, hX, rfl⟩ := (whole_walking hctl hstack).mp h
  obtain ⟨p, handling⟩ := a
  obtain rfl : handling = none := hnone
  cases Z with
  | nil =>
    have h' : Reentering s p D (X ++ d :: p :: Y) := by simpa using h
    rw [walk_here h]
    unfold repairPrev
    dsimp only
    split
    · rename_i hpausable
      exact whole_swapDone h' (fun i hi => set_obj_ne s _ hi) (by simp) (.inr ⟨hpausable, rfl⟩) rfl
        hstack
    · rename_i hpausable
      have hprev := h.unpausable d (by simpa using hpausable)
      exact whole_swapDone (x := .null) h' (fun _ _ => rfl) (by rw [← hprev]) (.inl ⟨rfl, hprev⟩) rfl
        hstack
  | cons z Z =>
    rw [walk_on h]
    refine (whole_walking (s := { s with ctl := .walking (.obj z) }) rfl hstack).mpr
      ⟨rfl, D, X ++ [d], z, Z, Y, ?_, by simp, rfl⟩
    have h' : Reentering s p D ((X ++ [d]) ++ z :: Z ++ p :: Y) := by simpa using h
    exact h'.of_eq rfl rfl

theorem swapDone_events (s : Machine) (f : ObjId) (c : Ptr) :
    ∃ r, (s.swapDone f c).log = .polled f r :: .reentered f :: s.log := by
  unfold swapDone callback
  dsimp only
  split
  · exact ⟨_, by rw [asyncThrow_log]; simp; rfl⟩
  · exact ⟨_, by simp; rfl⟩

/-- The walk ends: it meets every frame above `p` once, and then `p` is polled. -/
theorem walk_ends {Z Y : List ObjId} (hctl : s.ctl = .walking (.obj d))
    (hstack : s.stack = ⟨p, none⟩ :: rest) {X : List ObjId}
    (h : Reentering s p D (X ++ d :: Z ++ p :: Y)) :
    ∃ n t r, s.exec (List.replicate n .tick) = some t ∧
      t.log = .polled p r :: .reentered p :: s.log := by
  have hstep : s.step .tick = some (s.walk p (.obj d)) := by
    simp [step, tick, hctl, hstack]
  induction Z generalizing s d X with
  | nil =>
    rw [walk_here h] at hstep
    obtain ⟨r, hlog⟩ := swapDone_events (s.repairPrev p (.obj d)) p (.obj d)
    rw [repairPrev_log] at hlog
    exact ⟨1, _, r, Runs.exec_cons.mpr ⟨_, hstep, rfl⟩, hlog⟩
  | cons z Z ih =>
    rw [walk_on h] at hstep
    have h' : Reentering s p D ((X ++ [d]) ++ z :: Z ++ p :: Y) := by simpa using h
    obtain ⟨n, t, r, hrun, hlog⟩ := ih (s := { s with ctl := .walking (.obj z) }) rfl hstack
      (h'.of_eq rfl rfl) (by simp [step, tick, hstack])
    refine ⟨n + 1, t, r, ?_, hlog⟩
    rw [List.replicate_succ]
    exact Runs.exec_cons.mpr ⟨_, hstep, hrun⟩

/-- The frame above the head of the chain does not exist. -/
theorem next_ne_head {next : ObjId → Ptr} (h : Frames s next (.obj D) L) (hf : f ∈ L) :
    next f ≠ .obj D := by
  intro hc
  obtain ⟨A, B, rfl⟩ := List.append_of_mem hf
  obtain ⟨r, -, -, hB⟩ := links_append.mp h.links
  rw [hc] at hB
  cases B with
  | nil => simp at hB
  | cons b B =>
    obtain rfl : D = b := by simpa using hB.1
    obtain ⟨L', hL, -⟩ := h.tail
    cases A with
    | nil =>
      obtain rfl : f = D := (List.cons_eq_cons.mp hL).1
      simpa using h.nodup
    | cons x A =>
      obtain rfl : x = D := (List.cons_eq_cons.mp hL).1
      simpa using h.nodup

/-- Below the frame that awaits a parked one there is a frame: the parked one is below it. -/
theorem reenter_next (h : Reentering s p D L) :
    ∃ x Z, L = D :: x :: Z ∧ p ∈ x :: Z ∧ s.next (.obj D) = .obj x := by
  have hprev : (s.obj p).prev ≠ .null := h.parked_prev h.mem h.isParked
  have hpD : p ≠ D := fun hc => hprev (hc ▸ h.noPrev)
  obtain ⟨L', rfl, htail⟩ := h.toFrames.tail
  have hmem : p ∈ L' := (List.mem_cons.mp h.mem).resolve_left hpD
  cases L' with
  | nil => simp at hmem
  | cons x Z =>
    have hnext := (links_cons.mp htail.links).1
    rw [Function.update_of_ne hpD.symm] at hnext
    exact ⟨x, Z, rfl, hmem, hnext⟩

/-- A parked frame is polled after it was awaited again. -/
theorem whole_reenter (h : Reentering s p D L) (hstack : s.stack = ⟨p, none⟩ :: rest) :
    (s.poll p).Whole := by
  have hprev : (s.obj p).prev ≠ .null := h.parked_prev h.mem h.isParked
  have hne : (s.obj p).prev ≠ .obj D := by
    simpa using next_ne_head h.toFrames h.mem
  have hpoll : s.poll p = if s.next (.obj D) = .obj p then s.swapDone p (.obj D)
      else { s with ctl := .walking (s.next (.obj D)) } := by
    simp [poll, h.toSane.isPaused hprev, h.caller, hne]
  obtain ⟨x, Z, rfl, hmem, hnext⟩ := reenter_next h
  simp only [hpoll, hnext]
  split
  · rename_i hx
    obtain rfl : x = p := by simpa using hx
    exact whole_swapDone (X := []) (x := .null) h (fun _ _ => rfl) (by rw [← h.noPrev])
      (.inl ⟨rfl, h.noPrev⟩) rfl hstack
  · rename_i hx
    have hxp : p ≠ x := fun hc => hx (by rw [hc])
    obtain ⟨Z, Y, rfl⟩ := List.append_of_mem ((List.mem_cons.mp hmem).resolve_left hxp)
    refine (whole_walking (s := { s with ctl := .walking (.obj x) }) (a := ⟨p, none⟩) rfl
      hstack).mpr ⟨rfl, D, [D], x, Z, Y, ?_, by simp, rfl⟩
    exact h.of_eq rfl rfl

theorem whole_enter (hctl : s.ctl = .entering) (hstack : s.stack = a :: rest) (h : s.Whole) :
    (s.enter a.self rest).Whole := by
  unfold enter
  dsimp only
  rcases (whole_entering hctl hstack).mp h with ⟨L, hL⟩ | ⟨D, L, hL⟩
  · have hq : Quiet s { s with stack := ⟨a.self, none⟩ :: rest } := .of_eq rfl rfl
    split
    · let m := emit { s.set a.self fun o => { o with error := .cleared } with
        stack := ⟨a.self, some (s.obj a.self).error⟩ :: rest } (.handled a.self (s.obj a.self).error)
      have hm : Quiet s m := Quiet.of_obj a.self (fun i hi => by simp [m, set_obj_ne _ _ hi]) (by simp [m])
        (by simp [m]) (by simp [m]) ⟨[.handled a.self (s.obj a.self).error], rfl, by simp [Event.quiet]⟩
      have hL' : ∀ ctl, Settled { m with ctl := ctl } (.obj a.self) L := fun ctl =>
        (hL.quiet hm).quiet (.of_eq rfl rfl)
      rcases hpaused : (s.obj a.self).isPaused with _ | _
      · refine (whole_handling (s := { m with ctl := .handling }) rfl rfl).mpr
          ⟨by simp, ?_, L, hL' _⟩
        simpa [m] using hL.toSane.prev_null hpaused
      · exact (whole_returned (s := { m with ctl := .returned .passthrough }) rfl rfl).mpr
          (.inl ⟨.inr rfl, ⟨L, hL' _⟩, by simp⟩)
    · unfold poll
      dsimp only
      split
      · rename_i hpaused
        have hprev : (s.obj a.self).prev = (s.obj a.self).caller :=
          (hL.prev a.self hL.head).resolve_left (by simp [Obj.isPaused] at hpaused; exact hpaused.2)
        rw [if_neg (by simpa using hprev)]
        exact whole_asyncReturn (a := ⟨a.self, none⟩) (hL.quiet hq) rfl
      · rename_i hpaused
        exact whole_callback (hL.quiet hq) (hL.toSane.prev_null (by simpa using hpaused)) rfl
  · rw [if_neg (by simp [hL.error])]
    exact whole_reenter (s := { s with stack := ⟨a.self, none⟩ :: rest }) (hL.of_eq rfl rfl) rfl

theorem whole_runTop (hctl : s.ctl = .running) (h : s.Whole) : s.runTop.Whole := by
  have hstack := h.stack_nil (.inr hctl)
  obtain ⟨L, hL⟩ := (whole_running hctl hstack).mp h
  unfold runTop
  split
  · exact whole_crash s
  · rename_i htop
    have hnil : L = [] := by
      have hlinks := htop ▸ hL.links
      cases L with
      | nil => rfl
      | cons f L => simp at hlinks
    let m := emit { s with top := .null, state := .exited, ctl := .stopped } (.exited s.taskError)
    have hq : Quiet s m :=
      (Quiet.of_eq rfl rfl : Quiet s { s with top := .null, state := .exited, ctl := .stopped }).trans
        (Quiet.emit _ rfl)
    refine (whole_stopped (s := m) rfl hstack).mpr (.inl ⟨rfl, hL.toSane.quiet hq, fun f => ?_⟩)
    by_contra hf
    have hmem := hL.live f (hq.live (by simpa using hf))
    simp [hnil] at hmem
  · rename_i f htop
    rw [htop] at hL
    exact (whole_entering (s := { s with stack := [⟨f, none⟩], ctl := .entering }) rfl rfl).mpr
      (.inl ⟨L, hL.quiet (.of_eq rfl rfl)⟩)

theorem whole_tick (h : s.Whole) (ht : s.tick = some t) : t.Whole := by
  unfold tick at ht
  split at ht
  · rename_i hctl
    cases ht
    exact whole_runTop hctl h
  · rename_i hctl
    simp [Whole, hctl] at h
  · rename_i hctl hstack
    cases ht
    exact whole_enter hctl hstack h
  · rename_i hctl hstack
    cases ht
    exact whole_walk hctl hstack h
  · rename_i hctl hstack
    cases ht
    exact ((whole_returned hctl hstack).mp h).afterCallback hstack
  · simp at ht

/-! ### User code -/

theorem asyncCall_obj (s : Machine) (f g i : ObjId) :
    ((s.asyncCall f g).obj i).caller = (if i = g then .obj f else (s.obj i).caller) ∧
      ((s.asyncCall f g).obj i).prev = (s.obj i).prev ∧
      ((s.asyncCall f g).obj i).pausable = (s.obj i).pausable ∧
      ((s.asyncCall f g).obj i).error = (s.obj i).error := by
  rcases eq_or_ne i g with rfl | hg <;> rcases eq_or_ne i f with rfl | hf <;>
    simp [asyncCall, set_obj, *]

/-- The frame that has control awaits one that was never started, or a parked one. -/
theorem whole_asyncCall (h : Settled s (.obj f) L) (hf : (s.obj f).prev = .null)
    (herr : s.NoError) (hg : s.Single (.act (.call g)) = true) : (s.asyncCall f g).Whole := by
  have hobj := asyncCall_obj s f g
  have hcaller : ∀ i, i ≠ g → ((s.asyncCall f g).obj i).caller = (s.obj i).caller := fun i hi => by
    rw [(hobj i).1, if_neg hi]
  have hgf : ((s.asyncCall f g).obj g).caller = .obj f := by rw [(hobj g).1, if_pos rfl]
  refine (whole_entering (a := ⟨g, none⟩) rfl rfl).mpr ?_
  rcases hstarted : started s.log g with _ | _
  · exact .inl ⟨g :: L, h.call hf hstarted hcaller hgf (fun i => (hobj i).2.1)
      (fun i => (hobj i).2.2.1) rfl⟩
  · obtain ⟨hparked, hlive⟩ : parked s.log g = true ∧ live s.log g = true := by
      simpa [Single, hstarted] using hg
    exact .inr ⟨f, L, h.recall hf hparked hlive (herr g) hcaller hgf (fun i => (hobj i).2.1)
      (fun i => (hobj i).2.2.1) (hobj g).2.2.2 rfl⟩

/-- A frame that may pause is awaited by another one, which is not paused. -/
theorem caller_of_mayPause (h : Settled s (.obj f) L) (hmay : s.mayPause f = true) :
    (s.obj f).task = true ∧ ∃ k, (s.obj f).caller = .obj k ∧ (s.obj k).isPaused = false ∧
      (s.obj k).prev = .null ∧ k ≠ f := by
  obtain ⟨htask, k, hk, hkpaused⟩ : (s.obj f).task = true ∧
      ∃ k, (s.obj f).caller = .obj k ∧ (s.obj k).isPaused = false := by
    unfold mayPause at hmay
    split at hmay <;> simp_all
  refine ⟨htask, k, hk, hkpaused, h.toSane.prev_null hkpaused, ?_⟩
  obtain ⟨L', rfl, htail⟩ := h.tail
  rintro rfl
  rw [show s.callers k = .obj k from hk] at htail
  exact (List.nodup_cons.mp h.nodup).1 htail.head

/-- A frame pauses whose caller is not paused. -/
theorem whole_asyncPause (h : Settled s (.obj a.self) L) (hf : (s.obj a.self).pausable = true)
    (hmay : s.mayPause a.self = true) (hstack : s.stack = a :: rest) :
    ∃ k, (s.obj a.self).caller = .obj k ∧ (s.obj k).isPaused = false ∧
      (s.asyncPause a.self).top = .obj k ∧ (s.asyncPause a.self).ctl = .returned .pause ∧
      (s.asyncPause a.self).Whole := by
  obtain ⟨htask, k, hk, hkpaused, hkprev, hkf⟩ := caller_of_mayPause h hmay
  have hpause : s.asyncPause a.self = emit { set { setCaller (s.set a.self fun o =>
      { o with prev := (s.obj k).caller }) (.obj k) (.obj a.self) with top := .obj k } a.self fun o =>
        { o with caller := (s.obj k).caller } with ctl := .returned .pause } (.paused a.self) := by
    simp [asyncPause, hk, htask, next]
  have hka : (s.asyncPause a.self).obj k = { s.obj k with caller := .obj a.self } := by
    simp [hpause, setCaller, set_obj, hkf]
  have haa : (s.asyncPause a.self).obj a.self =
      { s.obj a.self with prev := (s.obj k).caller, caller := (s.obj k).caller } := by
    simp [hpause, setCaller, set_obj, hkf.symm]
  have hother : ∀ i, i ≠ a.self → i ≠ k → (s.asyncPause a.self).obj i = s.obj i := fun i hi hik => by
    simp [hpause, setCaller, set_obj, hi, hik]
  have hobj : ∀ i, i ≠ a.self → ((s.asyncPause a.self).obj i).prev = (s.obj i).prev := fun i hi => by
    rcases eq_or_ne i k with rfl | hik
    · rw [hka]
    · rw [hother i hi hik]
  have hpausable : ∀ i, ((s.asyncPause a.self).obj i).pausable = (s.obj i).pausable := fun i => by
    rcases eq_or_ne i a.self with rfl | hi
    · rw [haa]
    rcases eq_or_ne i k with rfl | hik
    · rw [hka]
    · rw [hother i hi hik]
  obtain ⟨L', hL'⟩ := h.pause hk hkprev (fun i hi hik => by rw [hother i hi hik]) (by rw [hka])
    (by rw [haa]) hobj (by rw [haa]) hf hpausable (by rw [hpause]; rfl)
  have htop : (s.asyncPause a.self).top = .obj k := by rw [hpause]; rfl
  have hctl : (s.asyncPause a.self).ctl = .returned .pause := by rw [hpause]; rfl
  have hst : (s.asyncPause a.self).stack = a :: rest := by rw [hpause]; exact hstack
  refine ⟨k, hk, hkpaused, htop, hctl, ?_⟩
  exact (whole_returned hctl hst).mpr (.inr (.inl ⟨⟨rfl, by simp⟩, L', htop ▸ hL'⟩))

theorem whole_act {x : Act} (h : Settled s (.obj a.self) L) (hf : (s.obj a.self).prev = .null)
    (herr : s.NoError) (hhandling : s.ctl = .handling → a.handling ≠ none)
    (hstack : s.stack = a :: rest) (hsingle : s.Single (.act x) = true)
    (hpauses : s.Pauses (.act x) = true) (ht : s.act a.self x = some t) : t.Whole := by
  cases x with
  | call g =>
    cases ht
    exact whole_asyncCall h hf herr hsingle
  | ret =>
    cases ht
    exact whole_asyncReturn h hstack
  | throw e =>
    cases ht
    exact returned_throw h hstack e
  | suspend =>
    cases ht
    exact whole_asyncWait (.inl rfl) h hstack
  | yield =>
    cases ht
    exact whole_asyncWait (.inr rfl) h hstack
  | pause =>
    simp only [act] at ht
    split at ht
    · cases ht
      rename_i hpausable
      obtain ⟨k, -, -, -, -, hwhole⟩ := whole_asyncPause h hpausable
        (by simpa [Pauses, hstack] using hpauses) hstack
      exact hwhole
    · simp at ht
  | propagate =>
    simp only [act] at ht
    split at ht
    · rename_i hctl
      cases ht
      have hq : Quiet s { s with ctl := .returned .raise } := .of_eq rfl rfl
      exact (whole_returned (s := { s with ctl := .returned .raise }) rfl hstack).mpr
        (.inl ⟨.inl rfl, ⟨L, h.quiet hq⟩, fun hc => absurd hc (hhandling hctl)⟩)
    · simp at ht
  | exception => simp [Single] at hsingle

/-- User code has control: the chain begins at the innermost frame. -/
theorem whole_user (h : s.Whole) (huser : s.userCode = true) (hstack : s.stack = a :: rest) :
    (s.ctl = .handling → a.handling ≠ none) ∧ (s.obj a.self).prev = .null ∧
      ∃ L, Settled s (.obj a.self) L := by
  rcases hctl : s.ctl <;> simp [userCode, hctl] at huser
  · exact ⟨by simp, (whole_polling hctl hstack).mp h⟩
  · have h' := (whole_handling hctl hstack).mp h
    exact ⟨fun _ => h'.1, h'.2⟩

theorem Whole.quiet (h : s.Whole) (hq : Quiet s t) (hctl : t.ctl = s.ctl) (hstack : t.stack = s.stack)
    (htop : t.top = s.top) (huser : s.userCode = true ∨ s.ctl = .stopped) : t.Whole := by
  rcases huser with huser | hstopped
  · cases hs : s.stack with
    | nil => rcases hc : s.ctl <;> simp [userCode, hc] at huser <;> simp [Whole, hs, hc] at h
    | cons a rest =>
      obtain ⟨hhandling, hprev, L, hL⟩ := whole_user h huser hs
      have hprev' := (hq.prev a.self).trans hprev
      rcases hc : s.ctl <;> simp [userCode, hc] at huser
      · exact (whole_polling (hctl.trans hc) (hstack.trans hs)).mpr ⟨hprev', L, hL.quiet hq⟩
      · exact (whole_handling (hctl.trans hc) (hstack.trans hs)).mpr
          ⟨hhandling hc, hprev', L, hL.quiet hq⟩
  · have hs := h.stack_nil (.inl hstopped)
    refine (whole_stopped (hctl.trans hstopped) (hstack.trans hs)).mpr ?_
    rcases (whole_stopped hstopped hs).mp h with ⟨htop', hsane, hlive⟩ | ⟨L, hL⟩
    · refine .inl ⟨htop.trans htop', hsane.quiet hq, fun f => ?_⟩
      by_contra hf
      have hlive' := hq.live (by simpa using hf)
      simp [hlive f] at hlive'
    · exact .inr ⟨L, htop ▸ hL.quiet hq⟩

/-- The first spawn. -/
theorem whole_spawn {r : ObjId} (hs : Sane s) (hlog : s.log = []) (hctl : s.ctl = .stopped)
    (hstack : s.stack = []) : (s.spawn r).Whole := by
  have hr := hs.new r (by simp [hlog, started])
  have hobj : (s.spawn r).obj r = { s.obj r with task := true, caller := .task } := by
    simp [spawn]
  have hlog' : (s.spawn r).log = [.called .task r] := by simp [spawn, hlog]
  have hother : ∀ i, i ≠ r → (s.spawn r).obj i = s.obj i := fun i hi => by simp [spawn, set_obj, hi]
  have hprev : ∀ i, ((s.spawn r).obj i).prev = (s.obj i).prev ∧
      ((s.spawn r).obj i).pausable = (s.obj i).pausable := fun i => by
    rcases eq_or_ne i r with rfl | hi
    · rw [hobj]; exact ⟨rfl, rfl⟩
    · rw [hother i hi]; exact ⟨rfl, rfl⟩
  have hstarted : ∀ i, started (s.spawn r).log i = (r == i) := fun i => by simp [hlog', started]
  refine (whole_stopped (s := s.spawn r) hctl hstack).mpr (.inr ⟨[r], ?_⟩)
  exact {
    unpausable := fun f hf => (hprev f).1.trans (hs.unpausable f ((hprev f).2 ▸ hf))
    new := fun f _ => ⟨(hprev f).1.trans (hs.new f (by simp [hlog, started])).1,
      by simp [hlog', parked]⟩
    links := ⟨rfl, by simp [callers, hobj]⟩
    nodup := List.nodup_singleton r
    prev := fun f hf => by
      obtain rfl := List.mem_singleton.mp hf
      exact .inl ((hprev f).1.trans hr.1)
    parked := fun f _ hp => by simp [hlog', parked] at hp
    started := fun f hf => by
      rw [hstarted]
      simpa using (List.mem_singleton.mp hf).symm
    awaited := ⟨fun _ => by simp [hlog', awaiterOf, nextActive], trivial⟩
    live := fun f hf => by
      have h := (live_iff.mp hf).1
      rw [hstarted] at h
      have hrf : r = f := by simpa using h
      exact List.mem_singleton.mpr hrf.symm }

theorem whole_step {l : Label} (h : s.Whole) (herr : s.ErrorInTransit)
    (hsingle : s.Single l = true) (hpauses : s.Pauses l = true) (ht : s.step l = some t) :
    t.Whole := by
  cases l with
  | tick => exact whole_tick h ht
  | act x =>
    simp only [step] at ht
    split at ht
    · simp at ht
    · rename_i a rest hstack
      split at ht
      · rename_i huser
        obtain ⟨hhandling, hprev, L, hL⟩ := whole_user h huser hstack
        exact whole_act hL hprev (herr.noError (.inl huser)) hhandling hstack hsingle hpauses ht
      · simp at ht
  | start f =>
    simp only [step] at ht
    split at ht
    · rename_i hc
      cases ht
      have hq : Quiet s (s.set f fun o => { o with routine := .start }) :=
        Quiet.of_obj f (fun i hi => set_obj_ne s _ hi) (by simp) (by simp) (by simp)
          ⟨[], rfl, by simp⟩
      exact h.quiet hq rfl rfl rfl hc.1
    · simp at ht
  | spawn r =>
    simp only [step] at ht
    split at ht
    · rename_i hc
      cases ht
      have hlog : s.log = [] := by simpa [Single] using hsingle
      have hstack := h.stack_nil (.inl hc.1)
      have hsane : Sane s := by
        rcases (whole_stopped hc.1 hstack).mp h with ⟨-, hsane, -⟩ | ⟨L, hL⟩
        · exact hsane
        · exact hL.toSane
      exact whole_spawn hsane hlog hc.1 hstack
    · simp at ht
  | resume e =>
    simp only [step] at ht
    split at ht
    · rename_i hc
      split at ht <;> cases ht
      · exact h
      · exact h.quiet (.of_eq rfl rfl) rfl rfl rfl (.inr hc)
    · simp at ht
  | run =>
    simp only [step] at ht
    split at ht
    · rename_i hc
      cases ht
      have hstack := h.stack_nil (.inl hc.1)
      rcases (whole_stopped hc.1 hstack).mp h with ⟨hnull, -⟩ | ⟨L, hL⟩
      · exact absurd hnull hc.2.1
      · exact (whole_running (s := { s with ctl := .running }) rfl hstack).mpr
          ⟨L, hL.quiet (.of_eq rfl rfl)⟩
    · simp at ht
  | cancel => simp [Single] at hsingle

theorem Whole.init (p : ObjId → Bool) : (Machine.init p).Whole :=
  .inl ⟨rfl, ⟨fun _ _ => rfl, fun _ _ => ⟨rfl, rfl⟩⟩, fun _ => rfl⟩

/-- What pausing and re-entering keep. -/
structure ChainKept (s : Machine) : Prop where
  chain : s.userCode = true ∨ s.ctl = .stopped ∧ s.top ≠ .null → s.ChainFrom s.current
  ended : s.ctl = .stopped → s.top = .null → ∀ f, live s.log f = false
  handsOver : ∀ (a : Activation) (rest : List Activation) (t : Machine), s.stack = a :: rest →
    s.Pauses (.act .pause) = true → s.step (.act .pause) = some t →
    t.ctl = .returned .pause ∧ t.top = awaiterOf s.log a.self
  walkEnds : ∀ c, s.ctl = .walking c → ∃ n t p r,
    s.exec (List.replicate n .tick) = some t ∧ t.log = .polled p r :: .reentered p :: s.log

theorem Whole.kept (h : s.Whole) : s.ChainKept where
  chain := by
    rintro (huser | ⟨hctl, htop⟩)
    · cases hstack : s.stack with
      | nil => rcases hc : s.ctl <;> simp [userCode, hc] at huser <;> simp [Whole, hstack, hc] at h
      | cons a rest =>
        obtain ⟨-, -, L, hL⟩ := whole_user h huser hstack
        rw [current, hstack]
        exact ⟨L, hL.links, hL.nodup, hL.live⟩
    · have hstack := h.stack_nil (.inl hctl)
      rw [current, hstack]
      rcases (whole_stopped hctl hstack).mp h with ⟨hnull, -⟩ | ⟨L, hL⟩
      · exact absurd hnull htop
      · exact ⟨L, hL.links, hL.nodup, hL.live⟩
  ended hctl htop f := by
    rcases (whole_stopped hctl (h.stack_nil (.inl hctl))).mp h with ⟨-, -, hlive⟩ | ⟨L, hL⟩
    · exact hlive f
    · exact absurd htop (links_ne_null hL.links)
  handsOver a rest t hstack hpauses ht := by
    simp only [step, hstack] at ht
    split at ht
    · rename_i huser
      obtain ⟨-, hprev, L, hL⟩ := whole_user h huser hstack
      simp only [act] at ht
      split at ht
      · rename_i hpausable
        cases ht
        obtain ⟨k, hk, hkpaused, htop, hctl, -⟩ := whole_asyncPause hL hpausable
          (by simpa [Pauses, hstack] using hpauses) hstack
        refine ⟨hctl, htop.trans ?_⟩
        exact (hL.caller_awaits hprev hk (hL.toSane.prev_null hkpaused)).symm
      · simp at ht
    · simp at ht
  walkEnds c hctl := by
    cases hstack : s.stack with
    | nil => simp [Whole, hctl, hstack] at h
    | cons a rest =>
      obtain ⟨hnone, D, X, d, Z, Y, h, -, rfl⟩ := (whole_walking hctl hstack).mp h
      obtain ⟨p, handling⟩ := a
      obtain rfl : handling = none := hnone
      obtain ⟨n, t, r, hrun, hlog⟩ := walk_ends hctl hstack h
      exact ⟨n, t, p, r, hrun, hlog⟩

end Machine

/-- CORRECT: in every run of one task with each object used for one activation, in which no frame
    pauses while its `_caller` is paused, the chain stays whole, pausing hands control to the last
    awaiter, and every walk ends. -/
theorem pause_keeps_chain (p : ObjId → Bool) (ls : List Label) (s : Machine)
    (hrun : (Machine.init p).exec ls = some s)
    (hmeets : Runs.Meets Machine.step (fun s l => s.Single l = true ∧ s.Pauses l = true)
      (Machine.init p) ls) : s.ChainKept :=
  (Runs.exec_invariant (I := fun s : Machine => s.Whole ∧ s.ErrorInTransit)
    (fun _ _ _ h hC ht => ⟨Machine.whole_step h.1 h.2 hC.1 hC.2 ht, h.2.step ht⟩)
    ls _ s hrun hmeets ⟨Machine.Whole.init p, Machine.ErrorInTransit.init p⟩).1.kept

/-- `0` awaits `1`, which pauses, then `2`, which pauses too, and then `1` again. -/
def pauseTwice : List Label :=
  [.spawn 0, .run, .tick, .tick, .act (.call 1), .tick, .act .pause, .tick, .tick, .tick,
    .act (.call 2), .tick, .act .pause, .tick, .tick, .tick, .act (.call 1), .tick]

theorem pause_keeps_chain_twice :
    ∃ s, (Machine.init fun i => i != 0).exec pauseTwice = some s ∧ s.ctl = .walking (.obj 2) ∧
      s.ChainKept :=
  ⟨_, rfl, rfl, pause_keeps_chain (fun i => i != 0) pauseTwice _ rfl (by decide)⟩

/-- `0` awaits `1`, which awaits `2`, which pauses. -/
def pauseBelow : List Label :=
  [.spawn 0, .run, .tick, .tick, .act (.call 1), .tick, .act (.call 2), .tick, .act .pause, .tick,
    .tick, .tick]

/-- While calls nest inline, `_top` is not the innermost frame. And where `1` pauses with `2` paused
    below it, control goes to `2`, not to `0` that awaited `1`; `2` walks for ever. -/
theorem chain_not_kept :
    (∃ s, (Machine.init fun i => i != 0).exec [.spawn 0, .run, .tick, .tick, .act (.call 1), .tick] =
        some s ∧ s.userCode = true ∧ live s.log 1 = true ∧ ¬ s.ChainFrom s.top) ∧
      ∃ s t u, (Machine.init fun i => i != 0).exec pauseBelow = some s ∧
        s.step (.act .pause) = some t ∧ awaiterOf s.log 1 = .obj 0 ∧ t.top = .obj 2 ∧
        t.exec (List.replicate 4 .tick) = some u ∧
        ∀ n, ∃ d, u.exec (List.replicate n .tick) = some { u with ctl := .walking d } := by
  refine ⟨⟨_, rfl, rfl, by decide, ?_⟩, _, _, _, rfl, rfl, rfl, rfl, rfl, fun n => ?_⟩
  · rintro ⟨L, hlinks, -, hlive⟩
    have hmem := hlive 1 (by decide)
    rcases L with _ | ⟨f, L⟩
    · simp at hmem
    obtain ⟨hf, hL⟩ := links_cons.mp hlinks
    obtain rfl : 0 = f := by injection hf
    rcases L with _ | ⟨g, L⟩
    · simp at hmem
    · obtain ⟨hg, -⟩ := links_cons.mp hL
      injection hg
  · exact (Machine.walk_forever (a := ⟨2, none⟩) (C := [.obj 0, .task]) (by decide)
      (List.mem_cons_self) rfl rfl n).imp fun _ h => h.2

end Jinx.Await
