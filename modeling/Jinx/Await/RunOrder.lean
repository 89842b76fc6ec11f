import Jinx.Await.Rethrow

/-! The frames that are run are frames of the chain, in the order in which they await each other.

    The frame that has control is the first of the chain, so the others lie from its awaiter on; while a
    parked frame is awaited again, the link below it is its `_prev`. Once a callback has returned, the
    chain begins at `_top`, and the frame that has returned is not run again below. A frame that pauses
    is not run any more, so a re-entry moves no frame that is. -/

namespace Jinx.Await

open LinkedList

/-- The innermost frame has control, or an error of its own is on its way to its awaiter. -/
def Ctl.inside : Ctl → Bool
  | .entering | .polling | .handling | .walking _ | .returned .raise | .returned .passthrough => true
  | _ => false

namespace Machine

variable {s t m : Machine} {f p d D : ObjId} {a : Activation} {rest : List Activation}
  {L X Y : List ObjId} {st : ControlState} {l : Label}

/-- The activations lie along the chain from the awaiter of `f` on. -/
def Below (s : Machine) (f : ObjId) (rest : List Activation) : Prop :=
  ∃ L, Links (Function.update s.callers f (s.obj f).prev) .obj .task (s.callers f) L ∧
    (rest.map (·.self)).Sublist L

/-- They lie along the chain from `_top` on, and `f` is not among them. -/
def Under (s : Machine) (f : ObjId) (rest : List Activation) : Prop :=
  f ∉ rest.map (·.self) ∧ ∃ L, Links s.callers .obj .task s.top L ∧ (rest.map (·.self)).Sublist L

/-- Where the activations below the innermost one lie. -/
structure Placed (s : Machine) (a : Activation) (rest : List Activation) : Prop where
  below : s.ctl.inside = true → s.Below a.self rest
  under : s.ctl.inside = false → s.Under a.self rest
  unparked : ∀ b ∈ rest, parked s.log b.self = false

/-- Outside `Awaitable::run` there is nothing to say. -/
def Ranked (s : Machine) : Prop := ∀ a rest, s.stack = a :: rest → s.ctl = .crashed ∨ s.Placed a rest

theorem below_iff (h : Frames s s.callers (.obj f) L) :
    s.Below f rest ↔ (f :: rest.map (·.self)).Sublist L := by
  obtain ⟨L', rfl, htail⟩ := h.tail
  have hf : f ∉ L' := (List.nodup_cons.mp h.nodup).1
  have hlinks : Links (Function.update s.callers f (s.obj f).prev) .obj .task (s.callers f) L' :=
    htail.links.congr fun i hi => Function.update_of_ne (by rintro rfl; exact hf hi) _ _
  rw [List.cons_sublist_cons]
  constructor
  · rintro ⟨L₁, hL₁, hrest⟩
    exact links_unique hL₁ hlinks ▸ hrest
  · intro hrest
    exact ⟨L', hlinks, hrest⟩

theorem below_reentering (h : Reentering s p D L) (hrest : s.Below p rest) :
    (rest.map (·.self)).Sublist L := by
  obtain ⟨L₁, hL₁, hrest⟩ := hrest
  rw [show s.callers p = .obj D from h.caller] at hL₁
  exact links_unique hL₁ h.links ▸ hrest

theorem Below.quiet (h : s.Below f rest) (hq : Quiet s t) : t.Below f rest := by
  unfold Below
  rw [hq.callers, hq.prev]
  exact h

theorem Ranked.nil (h : s.stack = []) : s.Ranked := fun a rest hstack => by simp [h] at hstack

theorem Ranked.crashed (h : s.ctl = .crashed) : s.Ranked := fun _ _ _ => .inl h

/-- The innermost frame keeps control. -/
theorem Ranked.inside (hstack : s.stack = a :: rest) (hctl : s.ctl.inside = true)
    (hbelow : s.Below a.self rest) (hunparked : ∀ b ∈ rest, parked s.log b.self = false) :
    s.Ranked := by
  intro a' rest' hstack'
  obtain ⟨rfl, rfl⟩ := List.cons.inj (hstack.symm.trans hstack')
  exact .inr ⟨fun _ => hbelow, fun hout => by simp [hctl] at hout, hunparked⟩

/-- The innermost frame gives control away. -/
theorem Ranked.outside (hstack : s.stack = a :: rest) (hctl : s.ctl.inside = false)
    (hunder : s.Under a.self rest) (hunparked : ∀ b ∈ rest, parked s.log b.self = false) :
    s.Ranked := by
  intro a' rest' hstack'
  obtain ⟨rfl, rfl⟩ := List.cons.inj (hstack.symm.trans hstack')
  exact .inr ⟨fun hin => by simp [hctl] at hin, fun _ => hunder, hunparked⟩

theorem Ranked.placed (h : s.Ranked) (hstack : s.stack = a :: rest) (hctl : s.ctl ≠ .crashed) :
    s.Placed a rest :=
  (h a rest hstack).resolve_left hctl

theorem unparked_quiet (hq : Quiet s t) (h : ∀ b ∈ rest, parked s.log b.self = false) :
    ∀ b ∈ rest, parked t.log b.self = false :=
  fun b hb => (hq.parked b.self).trans (h b hb)

/-! ### The library goes on -/

/-- The next activation is under `_top`. -/
theorem ranked_deliver (hlinks : Links s.callers .obj .task s.top L) (hnodup : L.Nodup)
    (hrest : (rest.map (·.self)).Sublist L) (hunparked : ∀ b ∈ rest, parked s.log b.self = false)
    (hraise : st ≠ .raise) (hpass : st ≠ .passthrough) : (s.deliver st rest).Ranked := by
  cases rest with
  | nil => exact .nil (deliver_stack s st [])
  | cons b rest =>
    rw [List.map_cons] at hrest
    refine .outside (deliver_stack s st (b :: rest)) ?_ ⟨?_, L, hlinks, ?_⟩ fun c hc => ?_
    · cases st <;> simp_all [deliver, Ctl.inside]
    · exact (List.nodup_cons.mp (hnodup.sublist hrest)).1
    · exact (List.sublist_cons_self _ _).trans hrest
    · exact hunparked c (List.mem_cons_of_mem b hc)

theorem ranked_propagate (h : Settled s (.obj f) L) (hrest : s.Below f rest)
    (hunparked : ∀ b ∈ rest, parked s.log b.self = false) (e : Error) :
    (s.propagate f e rest).Ranked := by
  have hsub := (below_iff h.toFrames).mp hrest
  obtain ⟨L', rfl, htail⟩ := h.tail
  unfold propagate
  dsimp only
  split
  · exact .crashed rfl
  · have hraised : Quiet s { (s.emit (.raised f e)).setError (s.obj f).caller e with
        top := (s.obj f).caller } :=
      ((Quiet.emit s rfl).trans (Quiet.setError _ _ e)).trans (.of_eq rfl rfl)
    have hq := hraised.trans (.finalize _ f)
    refine ranked_deliver (L := L') ?_ htail.nodup (List.cons_sublist_cons.mp hsub)
      (unparked_quiet hq hunparked) (by simp) (by simp)
    rw [hq.callers]
    exact htail.links

theorem ranked_afterCallback (h : s.Returned a st) (hp : s.Placed a rest) (hctl : s.ctl = .returned st)
    (hstack : s.stack = a :: rest) : (s.afterCallback a st rest).Ranked := by
  have henter : s.Below a.self rest → ({ s with ctl := .entering } : Machine).Ranked := fun hrest =>
    .inside hstack rfl (hrest.quiet (.of_eq rfl rfl)) hp.unparked
  rcases h with ⟨hst, ⟨L, hL⟩, hnone⟩ | ⟨hst, L, hL⟩ | ⟨rfl, L, hL, -⟩
  · have hrest := hp.below (by rcases hst with rfl | rfl <;> simp [hctl, Ctl.inside])
    cases hh : a.handling with
    | some e =>
      rcases hst with rfl | rfl <;> simp only [Machine.afterCallback, hh] <;>
        exact ranked_propagate hL hrest hp.unparked e
    | none =>
      obtain ⟨rfl, htop⟩ := hnone hh
      simp only [Machine.afterCallback, hh, show ControlState.stops .raise = false from rfl]
      split
      · contradiction
      split
      · exact .crashed rfl
      · rename_i htask
        rw [if_pos (htop (by simpa using htask))]
        exact henter hrest
  · have hraise : st ≠ .raise := by
      rintro rfl
      simp [ControlState.stops, ControlState.toInt] at hst
    have hafter : s.afterCallback a st rest = s.deliver (if st = .pause then .ready else st) rest := by
      unfold Machine.afterCallback
      cases hh : a.handling <;> cases st <;> simp_all [ControlState.stops, ControlState.toInt]
    obtain ⟨-, L₁, hL₁, hrest⟩ := hp.under (by cases st <;> simp_all [Ctl.inside])
    rw [links_unique hL₁ hL.links] at hrest
    rw [hafter]
    refine ranked_deliver hL.links hL.nodup hrest hp.unparked ?_ ?_ <;> split
    · simp
    · exact hraise
    · simp
    · exact hst.2
  · have hstops : ControlState.stops .ready = false := rfl
    have hafter : s.afterCallback a .ready rest =
        if (s.obj a.self).task = false then s.crash
        else if s.top = .obj a.self then { s with ctl := .entering }
        else (s.finalize a.self).deliver .ready rest := by
      cases hh : a.handling <;> simp [Machine.afterCallback, hh, hstops]
    obtain ⟨hself, L₁, hL₁, hrest⟩ := hp.under (by simp [hctl, Ctl.inside])
    rw [links_unique hL₁ hL.links] at hrest
    rw [hafter]
    split
    · exact .crashed rfl
    split
    · rename_i htop
      rw [htop] at hL
      refine henter ((below_iff hL).mpr ?_)
      obtain ⟨L', rfl, -⟩ := hL.tail
      refine List.cons_sublist_cons.mpr ?_
      cases hr : rest.map (·.self) with
      | nil => exact List.nil_sublist _
      | cons b bs =>
        rw [hr] at hrest hself
        exact List.Sublist.of_cons_of_ne (fun hab => hself (hab ▸ List.mem_cons_self)) hrest
    · have hq := Quiet.finalize s a.self
      refine ranked_deliver (L := L) ?_ hL.nodup hrest (unparked_quiet hq hp.unparked) (by simp) (by simp)
      rw [hq.callers]
      exact hL.links

/-- The frame is polled. -/
theorem ranked_callback (hstack : s.stack = a :: rest) (hrest : s.Below a.self rest)
    (hunparked : ∀ b ∈ rest, parked s.log b.self = false) (f : ObjId) : (s.callback f).Ranked := by
  have hq := Quiet.callback s f
  refine .inside ((callback_stack s f).trans hstack) ?_ (hrest.quiet hq) (unparked_quiet hq hunparked)
  simp only [callback]
  split <;> rfl

theorem ranked_asyncReturn (h : Settled s (.obj a.self) L) (hstack : s.stack = a :: rest)
    (hrest : s.Below a.self rest) (hunparked : ∀ b ∈ rest, parked s.log b.self = false) :
    (s.asyncReturn a.self).Ranked := by
  have hsub := (below_iff h.toFrames).mp hrest
  obtain ⟨L', rfl, htail⟩ := h.tail
  unfold asyncReturn
  split
  · refine .outside hstack rfl ⟨?_, L', htail.links, List.cons_sublist_cons.mp hsub⟩ hunparked
    exact (List.nodup_cons.mp (h.nodup.sublist hsub)).1
  · exact .crashed rfl

/-- A re-entry takes a frame that is not run from below `d`. -/
theorem ranked_swapDone (h : Reentering s a.self D (X ++ d :: a.self :: Y))
    (hm : m = s ∨ m = s.repairPrev a.self (.obj d)) (hstack : s.stack = a :: rest)
    (hrest : s.Below a.self rest) (hunparked : ∀ b ∈ rest, parked s.log b.self = false) :
    (m.swapDone a.self (.obj d)).Ranked := by
  have hself : a.self ∉ rest.map (·.self) := by
    intro hself
    obtain ⟨b, hb, hba⟩ := List.mem_map.mp hself
    have hparked := hunparked b hb
    rw [hba, h.isParked] at hparked
    cases hparked
  obtain ⟨hnotin, hnodup⟩ := h.nodup_splice
  have had : a.self ≠ d := by
    rintro had
    exact hnotin (by simp [had])
  have hcallers : ∀ i, (m.obj i).caller = (s.obj i).caller := by
    intro i
    rcases hm with rfl | rfl
    · rfl
    · simp only [repairPrev]
      split
      · by_cases hi : i = d <;> simp [set_obj, hi]
      · rfl
  have hprev : (m.obj a.self).prev = (s.obj a.self).prev := by
    rcases hm with rfl | rfl
    · rfl
    · simp only [repairPrev]
      split
      · simp [set_obj, had]
      · rfl
  have hmstack : m.stack = a :: rest := by
    rcases hm with rfl | rfl
    · exact hstack
    · exact (repairPrev_stack s a.self _).trans hstack
  have hmlog : m.log = s.log := by
    rcases hm with rfl | rfl
    · rfl
    · exact repairPrev_log s a.self _
  let b := ((m.setCaller (.obj d) (m.obj a.self).prev).set a.self fun o => { o with prev := .null }).emit
    (.reentered a.self)
  have hb : ∀ i, b.callers i = if i = d then (s.obj a.self).prev else s.callers i := by
    intro i
    by_cases hi : i = d <;> by_cases hia : i = a.self <;>
      simp_all [b, callers, setCaller, set_obj]
  refine ranked_callback (s := b) (a := a) (by simpa [b] using hmstack) ⟨X ++ d :: Y, ?_, ?_⟩ ?_ a.self
  · rw [hb, if_neg had, show s.callers a.self = .obj D from h.caller]
    refine h.links.unlink hnodup (fun i hi hid => ?_) ?_
    · have hia : i ≠ a.self := by
        rintro rfl
        exact hnotin hi
      rw [Function.update_of_ne hia, Function.update_of_ne hia, hb, if_neg hid]
    · rw [Function.update_of_ne had.symm, Function.update_self, hb, if_pos rfl]
  · have herase := (below_reentering h hrest).erase a.self
    rw [List.erase_of_not_mem hself] at herase
    have hsplit : X ++ d :: a.self :: Y = (X ++ [d]) ++ a.self :: Y := by simp
    have hX : a.self ∉ X ++ [d] := by
      intro hX
      refine hnotin ?_
      rw [List.append_cons]
      exact List.mem_append_left Y hX
    rw [hsplit, List.erase_append_right _ hX, List.erase_cons_head] at herase
    simpa using herase
  · intro c hc
    have hne : a.self ≠ c.self := fun hne => hself (hne ▸ List.mem_map_of_mem hc)
    simpa [b, hmlog, parked, hne] using hunparked c hc

theorem ranked_reenter (h : Reentering s a.self D L) (hstack : s.stack = a :: rest)
    (hrest : s.Below a.self rest) (hunparked : ∀ b ∈ rest, parked s.log b.self = false) :
    (s.poll a.self).Ranked := by
  have hprev : (s.obj a.self).prev ≠ .null := h.parked_prev h.mem h.isParked
  have hne : (s.obj a.self).prev ≠ .obj D := by simpa using next_ne_head h.toFrames h.mem
  have hpoll : s.poll a.self = if s.next (.obj D) = .obj a.self then s.swapDone a.self (.obj D)
      else { s with ctl := .walking (s.next (.obj D)) } := by
    simp [poll, h.toSane.isPaused hprev, h.caller, hne]
  obtain ⟨x, Z, rfl, -, hnext⟩ := reenter_next h
  rw [hpoll]
  split
  · rename_i hx
    obtain rfl : x = a.self := by simpa using hnext.symm.trans hx
    exact ranked_swapDone (X := []) h (.inl rfl) hstack hrest hunparked
  · exact .inside hstack rfl (hrest.quiet (.of_eq rfl rfl)) hunparked

theorem ranked_walk {c : Ptr} (h : s.Whole) (hp : s.Placed a rest) (hctl : s.ctl = .walking c)
    (hstack : s.stack = a :: rest) : (s.walk a.self c).Ranked := by
  have hrest := hp.below (by simp [hctl, Ctl.inside])
  obtain ⟨-, D, X, d, Z, Y, hL, -, rfl⟩ := (whole_walking hctl hstack).mp h
  cases Z with
  | nil =>
    have hL' : Reentering s a.self D (X ++ d :: a.self :: Y) := by simpa using hL
    rw [walk_here hL]
    exact ranked_swapDone hL' (.inr rfl) hstack hrest hp.unparked
  | cons z Z =>
    rw [walk_on hL]
    exact .inside hstack rfl (hrest.quiet (.of_eq rfl rfl)) hp.unparked

theorem ranked_enter (h : s.Whole) (hp : s.Placed a rest) (hctl : s.ctl = .entering)
    (hstack : s.stack = a :: rest) : (s.enter a.self rest).Ranked := by
  have hrest := hp.below (by simp [hctl, Ctl.inside])
  by_cases herr : (s.obj a.self).error.isSet = true
  · have hq : Quiet s (s.enter a.self rest) := by
      rw [enter_given herr]
      exact (given_quiet s a.self rest).trans (.of_eq rfl rfl)
    refine .inside (a := ⟨a.self, some (s.obj a.self).error⟩) (by rw [enter_given herr]; rfl) ?_
      (hrest.quiet hq) (unparked_quiet hq hp.unparked)
    rw [enter_given herr]
    dsimp only
    split <;> rfl
  · let m : Machine := { s with stack := ⟨a.self, none⟩ :: rest }
    have hq : Quiet s m := .of_eq rfl rfl
    have hrest' := hrest.quiet hq
    rw [show s.enter a.self rest = m.poll a.self by simp [enter, m, herr]]
    rcases (whole_entering hctl hstack).mp h with ⟨L, hL⟩ | ⟨D, L, hL⟩
    · simp only [poll]
      split
      · rename_i hpaused
        have hprev : (s.obj a.self).prev = (s.obj a.self).caller :=
          (hL.prev a.self hL.head).resolve_left (by simp [m, Obj.isPaused] at hpaused; exact hpaused.2)
        rw [if_neg (by simpa [m] using hprev)]
        exact ranked_asyncReturn (a := ⟨a.self, none⟩) (hL.quiet hq) rfl hrest' hp.unparked
      · exact ranked_callback (a := ⟨a.self, none⟩) rfl hrest' hp.unparked a.self
    · exact ranked_reenter (a := ⟨a.self, none⟩) (hL.of_eq rfl rfl) rfl hrest' hp.unparked

theorem ranked_runTop (h : s.Whole) (hctl : s.ctl = .running) : s.runTop.Ranked := by
  have hstack := h.stack_nil (.inr hctl)
  obtain ⟨L, hL⟩ := (whole_running hctl hstack).mp h
  unfold runTop
  split
  · exact .crashed rfl
  · exact .nil hstack
  · rename_i f htop
    rw [htop] at hL
    obtain ⟨L', rfl, -⟩ := hL.tail
    refine .inside (a := ⟨f, none⟩) rfl rfl ?_ (by simp)
    exact Below.quiet ((below_iff hL.toFrames).mpr (by simp)) (.of_eq rfl rfl)

theorem ranked_tick (h : s.Whole) (hr : s.Ranked) (ht : s.tick = some t) : t.Ranked := by
  unfold tick at ht
  split at ht
  · rename_i hctl
    cases ht
    exact ranked_runTop h hctl
  · rename_i hctl
    simp [Whole, hctl] at h
  · rename_i hctl hstack
    cases ht
    exact ranked_enter h (hr.placed hstack (by simp [hctl])) hctl hstack
  · rename_i hctl hstack
    cases ht
    exact ranked_walk h (hr.placed hstack (by simp [hctl])) hctl hstack
  · rename_i hctl hstack
    cases ht
    have hp := hr.placed hstack (by simp [hctl])
    exact ranked_afterCallback ((whole_returned hctl hstack).mp h) hp hctl hstack
  · cases ht

/-! ### User code -/

/-- The frame that is awaited is new, or parked and not among those that are run. -/
theorem ranked_asyncCall {g : ObjId} (h : Settled s (.obj a.self) L) (hprev : (s.obj a.self).prev = .null)
    (hstack : s.stack = a :: rest) (hrest : s.Below a.self rest)
    (hunparked : ∀ b ∈ rest, parked s.log b.self = false) (hg : s.Single (.act (.call g)) = true) :
    (s.asyncCall a.self g).Ranked := by
  have hobj := asyncCall_obj s a.self g
  have hnext : ∀ i ∈ L, Function.update (s.asyncCall a.self g).callers g
      ((s.asyncCall a.self g).obj g).prev i = s.callers i := by
    intro i hi
    by_cases hig : i = g
    · subst hig
      have hparked : parked s.log i = true := by
        have hstarted := h.started i hi
        simp [Single, hstarted] at hg
        exact hg.1
      rw [Function.update_self, (hobj i).2.1]
      exact h.parked i hi hparked
    · rw [Function.update_of_ne hig]
      exact (hobj i).1.trans (if_neg hig)
  have hstack' : (s.asyncCall a.self g).stack = ⟨g, none⟩ :: a :: rest := by simp [asyncCall, hstack]
  refine .inside hstack' rfl ⟨L, ?_, ?_⟩ ?_
  · rw [show (s.asyncCall a.self g).callers g = .obj a.self from (hobj g).1.trans (if_pos rfl)]
    exact h.links.congr hnext
  · exact (below_iff h.toFrames).mp hrest
  · intro b hb
    rw [show parked (s.asyncCall a.self g).log b.self = parked s.log b.self from rfl]
    rcases List.mem_cons.mp hb with rfl | hb
    · exact h.not_parked h.head hprev
    · exact hunparked b hb

theorem ranked_asyncPause (h : Settled s (.obj a.self) L) (hmay : s.mayPause a.self = true)
    (hstack : s.stack = a :: rest) (hrest : s.Below a.self rest)
    (hunparked : ∀ b ∈ rest, parked s.log b.self = false) : (s.asyncPause a.self).Ranked := by
  obtain ⟨htask, k, hk, -, -, hka⟩ := caller_of_mayPause h hmay
  have hpause : s.asyncPause a.self = emit { set { setCaller (s.set a.self fun o =>
      { o with prev := (s.obj k).caller }) (.obj k) (.obj a.self) with top := .obj k } a.self fun o =>
        { o with caller := (s.obj k).caller } with ctl := .returned .pause } (.paused a.self) := by
    simp [asyncPause, hk, htask, next]
  have hcallers : ∀ i, (s.asyncPause a.self).callers i =
      if i = a.self then (s.obj k).caller else if i = k then .obj a.self else s.callers i := by
    intro i
    by_cases hi : i = a.self <;> by_cases hik : i = k <;>
      simp [hpause, callers, setCaller, set_obj, hi, hik, hka]
  have hsub := (below_iff h.toFrames).mp hrest
  obtain ⟨L₁, rfl, htail⟩ := h.tail
  rw [show s.callers a.self = .obj k from hk] at htail
  obtain ⟨R, rfl, hR⟩ := htail.tail
  have hself := (List.nodup_cons.mp (h.nodup.sublist hsub)).1
  have hnodup := h.nodup
  simp only [List.nodup_cons, List.mem_cons, not_or] at hnodup
  refine .outside ((asyncPause_stack s a.self).trans hstack) ?_ ⟨hself, k :: a.self :: R, ?_, ?_⟩ ?_
  · rw [hpause]
    rfl
  · rw [show (s.asyncPause a.self).top = .obj k by rw [hpause]; rfl]
    refine ⟨rfl, ?_⟩
    rw [hcallers, if_neg hka, if_pos rfl]
    refine ⟨rfl, ?_⟩
    rw [hcallers, if_pos rfl]
    refine hR.links.congr fun i hi => ?_
    have hia : i ≠ a.self := by
      rintro rfl
      exact hnodup.1.2 hi
    have hik : i ≠ k := by
      rintro rfl
      exact hnodup.2.1 hi
    rw [hcallers, if_neg hia, if_neg hik]
  · refine (List.cons_sublist_cons.mp hsub).trans ?_
    exact List.cons_sublist_cons.mpr (List.sublist_cons_self _ _)
  · intro b hb
    have hne : a.self ≠ b.self := fun hne => hself (hne ▸ List.mem_map_of_mem hb)
    rw [hpause]
    simpa [parked, hne] using hunparked b hb

theorem ranked_asyncWait (h : Settled s (.obj a.self) L) (hstack : s.stack = a :: rest)
    (hrest : s.Below a.self rest) (hunparked : ∀ b ∈ rest, parked s.log b.self = false)
    (hraise : st ≠ .raise) (hpass : st ≠ .passthrough) : (s.asyncWait a.self st).Ranked := by
  have hsub := (below_iff h.toFrames).mp hrest
  have hstack' := (asyncWait_stack s a.self st).trans hstack
  unfold asyncWait at hstack' ⊢
  by_cases htask : (s.obj a.self).task = true
  · rw [if_pos htask] at hstack' ⊢
    refine .outside hstack' ?_ ⟨?_, L, h.links, (List.sublist_cons_self _ _).trans hsub⟩ hunparked
    · cases st <;> simp_all [Ctl.inside]
    · exact (List.nodup_cons.mp (h.nodup.sublist hsub)).1
  · rw [if_neg htask]
    exact .crashed rfl

theorem ranked_act {x : Act} (h : s.Whole) (hp : s.Placed a rest) (huser : s.userCode = true)
    (hstack : s.stack = a :: rest) (hl : s.Regular (.act x)) (ht : s.act a.self x = some t) :
    t.Ranked := by
  obtain ⟨-, hprev, L, hL⟩ := whole_user h huser hstack
  have hin : s.ctl.inside = true := by
    rcases hctl : s.ctl <;> simp [userCode, hctl] at huser <;> rfl
  have hrest := hp.below hin
  -- `Raise` leaves all pointers
  have hraise : ∀ t : Machine, Quiet s t → t.stack = s.stack → t.ctl = .returned .raise → t.Ranked :=
    fun t hq hstackt hctl => .inside (hstackt.trans hstack) (by rw [hctl]; rfl) (hrest.quiet hq)
      (unparked_quiet hq hp.unparked)
  cases x with
  | call g =>
    cases ht
    exact ranked_asyncCall hL hprev hstack hrest hp.unparked hl.1
  | ret =>
    cases ht
    exact ranked_asyncReturn hL hstack hrest hp.unparked
  | throw e =>
    cases ht
    exact hraise _ (.asyncThrow s _ e) (asyncThrow_stack s _ e) rfl
  | suspend | yield =>
    cases ht
    exact ranked_asyncWait hL hstack hrest hp.unparked (by simp) (by simp)
  | pause =>
    simp only [Machine.act, Option.ite_none_right_eq_some, Option.some.injEq] at ht
    obtain ⟨-, rfl⟩ := ht
    exact ranked_asyncPause hL (by simpa [Pauses, hstack] using hl.2) hstack hrest hp.unparked
  | propagate =>
    simp only [Machine.act, Option.ite_none_right_eq_some, Option.some.injEq] at ht
    obtain ⟨-, rfl⟩ := ht
    exact hraise _ (.of_eq rfl rfl) rfl rfl
  | exception =>
    simp only [Machine.act, Option.ite_none_right_eq_some, Option.some.injEq] at ht
    obtain ⟨-, rfl⟩ := ht
    by_cases htask : (s.obj a.self).task = true
    · exact hraise _ (.catchException s _) (catchException_stack s _) (by simp [catchException, htask])
    · exact .crashed (by simp [catchException, htask, crash])

/-! ### Runs -/

theorem Ranked.step (hr : s.Ranked) (h : s.Intact) (hl : s.Regular l) (ht : s.step l = some t) :
    t.Ranked := by
  cases l with
  | tick => exact ranked_tick h.whole hr ht
  | act x =>
    simp only [Machine.step] at ht
    split at ht
    · cases ht
    · rename_i a rest hstack
      rw [Option.ite_none_right_eq_some] at ht
      obtain ⟨huser, ht⟩ := ht
      have hcrashed : s.ctl ≠ .crashed := by
        intro hctl
        simp [userCode, hctl] at huser
      exact ranked_act h.whole (hr.placed hstack hcrashed) huser hstack hl ht
  | start f =>
    simp only [Machine.step, Option.ite_none_right_eq_some, Option.some.injEq] at ht
    obtain ⟨-, rfl⟩ := ht
    have hq : Quiet s (s.set f fun o => { o with routine := .start }) :=
      Quiet.of_obj f (fun i hi => set_obj_ne s _ hi) (by simp) (by simp) (by simp) ⟨[], rfl, by simp⟩
    intro a rest hstack
    refine (hr a rest hstack).imp id fun hp => ⟨fun hin => (hp.below hin).quiet hq, fun hout => ?_,
      hp.unparked⟩
    obtain ⟨hself, L, hL, hrest⟩ := hp.under hout
    exact ⟨hself, L, hq.callers.symm ▸ hL, hrest⟩
  | spawn r =>
    simp only [Machine.step, Option.ite_none_right_eq_some, Option.some.injEq] at ht
    obtain ⟨⟨hctl, -⟩, rfl⟩ := ht
    exact .nil (h.whole.stack_nil (.inl hctl))
  | resume e =>
    simp only [Machine.step, Option.ite_none_right_eq_some] at ht
    obtain ⟨hctl, ht⟩ := ht
    split at ht <;> cases ht
    · exact hr
    · exact .nil (h.whole.stack_nil (.inl hctl))
  | run =>
    simp only [Machine.step, Option.ite_none_right_eq_some, Option.some.injEq] at ht
    obtain ⟨⟨hctl, -⟩, rfl⟩ := ht
    exact .nil (h.whole.stack_nil (.inl hctl))
  | cancel => exact hl.elim

/-- CORRECT: in every run that keeps the chain whole, the frames that are run are among those of the
    chain whenever user code has control, and in their order. -/
theorem framed_of_run {p : ObjId → Bool} {ls : List Label} (hrun : (Machine.init p).exec ls = some s)
    (hregular : Runs.Meets Machine.step Regular (Machine.init p) ls) (huser : s.userCode = true)
    (hstack : s.stack = a :: rest) : ∃ frames, s.Framed (a.self :: frames) := by
  obtain ⟨hintact, hranked⟩ : s.Intact ∧ s.Ranked := by
    refine Runs.exec_invariant (C := Regular) (I := fun m => m.Intact ∧ m.Ranked)
      (fun m l t hm hl ht => ⟨hm.1.step hl ht, hm.2.step hm.1 hl ht⟩) ls _ s hrun hregular
      ⟨.init p, .nil rfl⟩
  obtain ⟨-, -, L, hL⟩ := whole_user hintact.whole huser hstack
  have hp := hranked.placed hstack fun hctl => by simp [userCode, hctl] at huser
  have hin : s.ctl.inside = true := by
    rcases hctl : s.ctl <;> simp [userCode, hctl] at huser <;> rfl
  have hsub := (below_iff hL.toFrames).mp (hp.below hin)
  obtain ⟨frames, rfl, -⟩ := hL.tail
  refine ⟨frames, ?_, hL.nodup, ?_⟩
  · rw [current, hstack]
    exact hL.links
  · rw [hstack]
    exact hsub

end Machine

end Jinx.Await
