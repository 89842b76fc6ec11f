import Jinx.Await.Bottom
import Jinx.Await.Join

/-! A machine with hooks between the task and its frames.

    `g.above H` is the machine `g` of a task that nobody has joined, where every pointer to the task
    leads to the first hook instead. What a frame does, it does with the hooks as it does without
    them: each function of `Awaitable` commutes with `above`, as long as it is not about the task. -/

namespace Jinx.Await

/-- The hooks of a target: their records, the entry of the task, and the hook next to the frames. -/
structure Hooks where
  hook : ObjId → Bool
  obj : ObjId → Obj
  entry : Ptr
  first : ObjId

/-- A pointer to the task leads to the hook. -/
def Ptr.above (b : ObjId) : Ptr → Ptr
  | .task => .obj b
  | p => p

def Obj.above (b : ObjId) (o : Obj) : Obj :=
  { o with caller := o.caller.above b, prev := o.prev.above b }

namespace Machine

/-- The frames of `g` above the hooks. -/
def above (g : Machine) (H : Hooks) : Machine :=
  { g with
    obj := fun i => if H.hook i then H.obj i else (g.obj i).above H.first
    entry := H.entry
    top := g.top.above H.first }

variable {g m t : Machine} {H : Hooks} {i f k : ObjId} {p q : Ptr} {rest : List Activation}

/-! ### The members of `Awaitable` -/

theorem above_obj (hi : H.hook i = false) : (g.above H).obj i = (g.obj i).above H.first := by
  simp [above, hi]

theorem above_set {c d : Obj → Obj} (hi : H.hook i = false)
    (hc : d ((g.obj i).above H.first) = (c (g.obj i)).above H.first) :
    (g.above H).set i d = (g.set i c).above H := by
  simp only [above, set]
  congr 1
  funext j
  by_cases hj : j = i
  · subst hj
    simp [hi, hc]
  · simp [hj]

/-- Only the links to the task are changed. -/
theorem Ptr.above_eq_null : p.above k = .null ↔ p = .null := by
  cases p <;> simp [Ptr.above]

theorem above_next (hk : H.hook k = false) :
    (g.above H).next (.obj k) = (g.next (.obj k)).above H.first := by
  simp [next, above_obj hk, Obj.above]

theorem above_isPaused (hi : H.hook i = false) :
    ((g.above H).obj i).isPaused = (g.obj i).isPaused := by
  have hprev : ((g.obj i).prev.above H.first != .null) = ((g.obj i).prev != .null) := by
    cases (g.obj i).prev <;> rfl
  rw [above_obj hi, Obj.isPaused, Obj.isPaused, ← hprev]
  rfl

theorem above_setCaller (hk : H.hook k = false) :
    (g.above H).setCaller (.obj k) (p.above H.first) = (g.setCaller (.obj k) p).above H :=
  above_set (c := fun o => { o with caller := p }) (d := fun o =>
    { o with caller := p.above H.first }) hk rfl

theorem above_emit (e : Event) : (g.above H).emit e = (g.emit e).above H := rfl

theorem above_finalize (hf : H.hook f = false) : (g.above H).finalize f = (g.finalize f).above H := by
  simp only [finalize]
  rw [above_set (c := fun o => { o with task := false, error := {}, routine := .uninitialized }) hf rfl]
  rfl

theorem above_asyncThrow (hf : H.hook f = false) (e : Error) :
    (g.above H).asyncThrow f e = (g.asyncThrow f e).above H := by
  have hset : ∀ (g : Machine) e, (g.above H).set f (fun o => { o with error := e }) =
      (g.set f fun o => { o with error := e }).above H := fun g e => above_set hf rfl
  simp only [asyncThrow, above_obj hf]
  by_cases htask : (g.obj f).task = true
  · have htop : ({ g.above H with top := .obj f } : Machine) = above { g with top := .obj f } H := rfl
    rw [if_pos (show ((g.obj f).above H.first).task = true from htask), if_pos htask, htop, hset]
    rfl
  · rw [if_neg (show ¬ ((g.obj f).above H.first).task = true from htask), if_neg htask, hset]
    rfl

theorem above_catchException (hf : H.hook f = false) :
    (g.above H).catchException f = (g.catchException f).above H := by
  simp only [catchException, above_obj hf]
  by_cases htask : (g.obj f).task = true
  · rw [if_pos (show ((g.obj f).above H.first).task = true from htask), if_pos htask,
      above_set (c := fun o => { o with error := makeError .cxxException }) hf rfl]
    rfl
  · rw [if_neg (show ¬ ((g.obj f).above H.first).task = true from htask), if_neg htask]
    rfl

theorem above_asyncReturn (hf : H.hook f = false) :
    (g.above H).asyncReturn f = (g.asyncReturn f).above H := by
  simp only [asyncReturn, above_obj hf]
  by_cases htask : (g.obj f).task = true
  · rw [if_pos (show ((g.obj f).above H.first).task = true from htask), if_pos htask]
    rfl
  · rw [if_neg (show ¬ ((g.obj f).above H.first).task = true from htask), if_neg htask]
    rfl

theorem above_asyncWait (hf : H.hook f = false) (st : ControlState) :
    (g.above H).asyncWait f st = (g.asyncWait f st).above H := by
  simp only [asyncWait, above_obj hf]
  by_cases htask : (g.obj f).task = true
  · rw [if_pos (show ((g.obj f).above H.first).task = true from htask), if_pos htask]
    rfl
  · rw [if_neg (show ¬ ((g.obj f).above H.first).task = true from htask), if_neg htask]
    rfl

theorem above_callback (hf : H.hook f = false) :
    (g.above H).callback f = (g.callback f).above H := by
  have hcallback : ∀ s : Machine, s.callback f =
      if (s.obj f).routine = .uninitialized then
        (s.emit (.polled f (s.obj f).routine)).asyncThrow f (makeError .uninitialized)
      else { s.emit (.polled f (s.obj f).routine) with ctl := .polling } := fun _ => rfl
  have hroutine : ((g.above H).obj f).routine = (g.obj f).routine := by rw [above_obj hf]; rfl
  rw [hcallback, hcallback, hroutine, above_emit]
  split
  · exact above_asyncThrow hf _
  · rfl

theorem above_deliver (st : ControlState) (rest : List Activation) :
    (g.above H).deliver st rest = (g.deliver st rest).above H := by
  cases rest with
  | nil =>
    simp only [deliver]
    split <;> rfl
  | cons b rest => rfl

theorem above_swapDone (hf : H.hook f = false) (hk : H.hook k = false) :
    (g.above H).swapDone f (.obj k) = (g.swapDone f (.obj k)).above H := by
  have hprev : ((g.above H).obj f).prev = ((g.obj f).prev).above H.first := by rw [above_obj hf]; rfl
  simp only [swapDone, hprev, above_setCaller hk]
  rw [above_set (c := fun o => { o with prev := .null }) hf rfl, above_emit, above_callback hf]

theorem above_repairPrev (hf : H.hook f = false) (hk : H.hook k = false) :
    (g.above H).repairPrev f (.obj k) = (g.repairPrev f (.obj k)).above H := by
  have hprev : ((g.above H).obj f).prev = ((g.obj f).prev).above H.first := by rw [above_obj hf]; rfl
  have hpausable : ((g.above H).obj k).pausable = (g.obj k).pausable := by rw [above_obj hk]; rfl
  simp only [repairPrev, hprev, hpausable]
  split
  · exact above_set hk rfl
  · rfl

theorem above_asyncCall (hf : H.hook f = false) (hk : H.hook k = false) :
    (g.above H).asyncCall f k = (g.asyncCall f k).above H := by
  have htask : (((g.above H).set f fun o => { o with routine := .later }).obj f).task = (g.obj f).task := by
    rw [set_obj_self, above_obj hf]
    rfl
  have htask' : ((g.set f fun o => { o with routine := .later }).obj f).task = (g.obj f).task := by
    rw [set_obj_self]
  simp only [asyncCall, htask, htask']
  rw [above_set (c := fun o => { o with routine := .later }) hf rfl,
    above_set (c := fun o => { o with caller := .obj f, task := (g.obj f).task }) hk rfl]
  rfl

theorem above_asyncPause (hf : H.hook f = false) (hk : H.hook k = false)
    (hcaller : (g.obj f).caller = .obj k) : (g.above H).asyncPause f = (g.asyncPause f).above H := by
  have hcaller' : ((g.above H).obj f).caller = .obj k := by
    rw [above_obj hf, Obj.above, hcaller]
    rfl
  have htask : ((g.above H).obj f).task = (g.obj f).task := by rw [above_obj hf]; rfl
  simp only [asyncPause, hcaller, hcaller', htask, above_next hk]
  split
  · rfl
  split
  · let m : Machine := g.set f fun o => { o with prev := g.next (.obj k) }
    let n : Machine := { m.set k fun o => { o with caller := .obj f } with top := .obj k }
    have hm : ((g.above H).set f fun o => { o with prev := (g.next (.obj k)).above H.first }) =
        m.above H := above_set hf rfl
    have hn : ({ (m.above H).set k fun o => { o with caller := .obj f } with
        top := .obj k } : Machine) = n.above H := by
      rw [above_set (c := fun o => { o with caller := .obj f }) hk rfl]
      rfl
    have hcalled : ((n.above H).set f fun o => { o with caller := (g.next (.obj k)).above H.first }) =
        (n.set f fun o => { o with caller := g.next (.obj k) }).above H := above_set hf rfl
    simp only [setCaller]
    rw [hm, hn, hcalled]
    rfl
  · rfl

/-! ### `Awaitable::run` -/

theorem Ptr.above_eq_obj (hb : H.first ≠ f) : p.above H.first = .obj f ↔ p = .obj f := by
  cases p <;> simp [Ptr.above, hb]

theorem Ptr.above_inj {b : ObjId} (hp : p ≠ .obj b) (hq : q ≠ .obj b) :
    p.above b = q.above b ↔ p = q := by
  cases p <;> cases q <;> simp_all [Ptr.above, eq_comm]

/-- The awaitable that a frame is polled for is not the task. -/
theorem above_poll (hf : H.hook f = false) (hfirst : H.hook H.first = true)
    (hprev : (g.obj f).prev ≠ .obj H.first) (hcaller : (g.obj f).caller ≠ .obj H.first)
    (hre : (g.obj f).isPaused = true → (g.obj f).prev ≠ (g.obj f).caller →
      ∃ k x, (g.obj f).caller = .obj k ∧ H.hook k = false ∧ g.next (.obj k) = .obj x) :
    (g.above H).poll f = (g.poll f).above H := by
  have hne : H.first ≠ f := fun hc => by simp [← hc, hfirst] at hf
  have hprev' : ((g.above H).obj f).prev = ((g.obj f).prev).above H.first := by rw [above_obj hf]; rfl
  have hcaller' : ((g.above H).obj f).caller = ((g.obj f).caller).above H.first := by
    rw [above_obj hf]
    rfl
  simp only [poll, above_isPaused hf, hprev', hcaller', ne_eq, Ptr.above_inj hprev hcaller]
  by_cases hpaused : (g.obj f).isPaused = true
  · rw [if_pos hpaused, if_pos hpaused]
    by_cases hsame : (g.obj f).prev = (g.obj f).caller
    · rw [if_neg (not_not_intro hsame), if_neg (not_not_intro hsame)]
      exact above_asyncReturn hf
    · obtain ⟨k, x, hk, hhook, hx⟩ := hre hpaused hsame
      have hkb : Ptr.above H.first (.obj k) = .obj k := rfl
      have hxb : Ptr.above H.first (.obj x) = .obj x := rfl
      have hnull : Ptr.obj k ≠ .null := by simp
      rw [if_pos hsame, if_pos hsame, hk, hkb, above_next hhook, hx, hxb, if_neg hnull, if_neg hnull]
      split
      · exact above_swapDone hf hhook
      · rfl
  · rw [if_neg hpaused, if_neg hpaused]
    exact above_callback hf

theorem above_walk {x : ObjId} (hf : H.hook f = false) (hk : H.hook k = false)
    (hx : g.next (.obj k) = .obj x) : (g.above H).walk f (.obj k) = (g.walk f (.obj k)).above H := by
  simp only [walk, above_next hk, hx, Ptr.above, reduceCtorEq, if_false]
  split
  · rw [above_repairPrev hf hk, above_swapDone hf hk]
  · rfl

theorem above_enter (hf : H.hook f = false) (hfirst : H.hook H.first = true)
    (hprev : (g.obj f).prev ≠ .obj H.first) (hcaller : (g.obj f).caller ≠ .obj H.first)
    (hre : (g.obj f).error.isSet = false → (g.obj f).isPaused = true →
      (g.obj f).prev ≠ (g.obj f).caller →
      ∃ k x, (g.obj f).caller = .obj k ∧ H.hook k = false ∧ g.next (.obj k) = .obj x) :
    (g.above H).enter f rest = (g.enter f rest).above H := by
  have herror : ((g.above H).obj f).error = (g.obj f).error := by rw [above_obj hf]; rfl
  simp only [enter, herror, above_isPaused hf]
  by_cases herr : (g.obj f).error.isSet = true
  · rw [if_pos herr, if_pos herr, above_set (c := fun o => { o with error := .cleared }) hf rfl]
    rfl
  · rw [if_neg herr, if_neg herr]
    exact above_poll (g := { g with stack := ⟨f, none⟩ :: rest }) hf hfirst hprev hcaller
      (hre (Bool.eq_false_iff.mpr herr))

/-- The error goes to another frame. -/
theorem above_propagate (hf : H.hook f = false) (hk : H.hook k = false)
    (hcaller : (g.obj f).caller = .obj k) (e : Error) :
    (g.above H).propagate f e rest = (g.propagate f e rest).above H := by
  have hcaller' : ((g.above H).obj f).caller = .obj k := by
    rw [above_obj hf, Obj.above, hcaller]
    rfl
  have htask : ((g.above H).obj f).task = (g.obj f).task := by rw [above_obj hf]; rfl
  simp only [propagate, hcaller, hcaller', htask]
  split
  · rfl
  · simp only [setError, above_emit]
    rw [above_set (c := fun o => { o with error := e }) hk rfl]
    have htop : ∀ s : Machine, ({ s.above H with top := .obj k } : Machine) =
        above { s with top := .obj k } H := fun _ => rfl
    rw [htop, above_finalize hf, above_deliver]

theorem above_top (hfirst : H.hook H.first = true) (hf : H.hook f = false) :
    (g.above H).top = .obj f ↔ g.top = .obj f :=
  Ptr.above_eq_obj fun hc => by simp [← hc, hfirst] at hf

theorem above_afterCallback {a : Activation} {st : ControlState} (ha : H.hook a.self = false)
    (hfirst : H.hook H.first = true)
    (hcaller : (st = .raise ∨ st = .passthrough) → a.handling ≠ none →
      ∃ k, (g.obj a.self).caller = .obj k ∧ H.hook k = false) :
    (g.above H).afterCallback a st rest = (g.afterCallback a st rest).above H := by
  have htask : ((g.above H).obj a.self).task = (g.obj a.self).task := by rw [above_obj ha]; rfl
  unfold afterCallback
  split
  · rename_i e hhandling
    obtain ⟨k, hk, hhook⟩ := hcaller (.inl rfl) (by simp [hhandling])
    exact above_propagate ha hhook hk e
  · rename_i e hhandling
    obtain ⟨k, hk, hhook⟩ := hcaller (.inr rfl) (by simp [hhandling])
    exact above_propagate ha hhook hk e
  · simp only [htask, above_top hfirst ha]
    split
    · exact above_deliver _ rest
    split
    · rfl
    split
    · rfl
    · rw [above_finalize ha, above_deliver]

/-! ### One step of the target -/

variable {b : ObjId} {next : ObjId → Ptr} {L : List ObjId} {a : Activation} {x : Act} {l : Label}

theorem links_ne (h : LinkedList.Links next .obj .task p L) (hL : b ∉ L) : p ≠ .obj b := by
  cases L with
  | nil => simp [LinkedList.links_nil.mp h]
  | cons f L =>
    rw [(LinkedList.links_cons.mp h).1]
    rintro hc
    obtain rfl : f = b := by simpa using hc
    exact hL List.mem_cons_self

theorem links_next_ne (h : LinkedList.Links next .obj .task p L) (hf : f ∈ L) (hL : b ∉ L) :
    next f ≠ .obj b := by
  obtain ⟨X, Y, rfl⟩ := List.append_of_mem hf
  obtain ⟨r, -, -, h⟩ := LinkedList.links_append.mp h
  exact links_ne h fun hc => hL (by simp [hc])

/-- No hook is among the frames of the target. -/
def Unhooked (g : Machine) (hook : ObjId → Bool) : Prop :=
  ∀ j, hook j = true → started g.log j = false

theorem Unhooked.not_mem {hook : ObjId → Bool} (h : g.Unhooked hook) (hL : Frames g next p L)
    (hb : hook b = true) : b ∉ L := fun hc => by
  have hstarted := hL.started b hc
  rw [h b hb] at hstarted
  cases hstarted

theorem Unhooked.hook_eq {hook : ObjId → Bool} (h : g.Unhooked hook) (hf : started g.log f = true) :
    hook f = false := by
  rcases hhook : hook f with _ | _
  · rfl
  · rw [h f hhook] at hf
    cases hf

theorem enter_commutes (hg : g.Intact) (hclean : g.Unhooked H.hook) (hfirst : H.hook H.first = true)
    (hctl : g.ctl = .entering) (hstack : g.stack = a :: rest) :
    (g.above H).enter a.self rest = (g.enter a.self rest).above H := by
  have hf := hclean.hook_eq (hg.stacked a (by simp [hstack])).1
  rcases (whole_entering hctl hstack).mp hg.whole with ⟨L, hL⟩ | ⟨D, L, hL⟩
  · have hb := hclean.not_mem hL.toFrames hfirst
    have hcaller := links_next_ne hL.links hL.head hb
    have hprev : (g.obj a.self).prev ≠ .obj H.first := by
      rcases hL.prev a.self hL.head with hnull | hsame
      · simp [hnull]
      · rw [hsame]
        exact hcaller
    refine above_enter hf hfirst hprev hcaller fun _ hpaused hne => absurd ?_ hne
    refine (hL.prev a.self hL.head).resolve_left ?_
    simp only [Obj.isPaused, Bool.and_eq_true, bne_iff_ne] at hpaused
    exact hpaused.2
  · have hb := hclean.not_mem hL.toFrames hfirst
    have hprev : (g.obj a.self).prev ≠ .obj H.first := by
      rw [hL.parked a.self hL.mem hL.isParked]
      exact links_next_ne hL.links hL.mem hb
    have hD : H.hook D = false := hclean.hook_eq (hL.started D hL.toFrames.head)
    have hcaller : (g.obj a.self).caller ≠ .obj H.first := by
      rw [hL.caller]
      intro hc
      obtain rfl : D = H.first := by simpa using hc
      simp [hfirst] at hD
    obtain ⟨y, -, -, -, hy⟩ := reenter_next hL
    exact above_enter hf hfirst hprev hcaller fun _ _ _ => ⟨D, y, hL.caller, hD, hy⟩

theorem walk_commutes {c : Ptr} (hg : g.Intact) (hclean : g.Unhooked H.hook)
    (hctl : g.ctl = .walking c) (hstack : g.stack = a :: rest) :
    (g.above H).walk a.self c = (g.walk a.self c).above H := by
  have hf := hclean.hook_eq (hg.stacked a (by simp [hstack])).1
  obtain ⟨-, D, X, d, Z, Y, hL, -, rfl⟩ := (whole_walking hctl hstack).mp hg.whole
  exact above_walk hf (hclean.hook_eq (hL.started d (by simp))) (walk_link hL)

/-- The caller of a frame of the chain is the task or another frame. -/
theorem caller_cases (hclean : g.Unhooked H.hook) (hL : Settled g (.obj f) L) :
    (g.obj f).caller = .task ∨ ∃ k, (g.obj f).caller = .obj k ∧ H.hook k = false := by
  obtain ⟨L', -, htail⟩ := hL.tail
  cases L' with
  | nil => exact .inl (LinkedList.links_nil.mp htail.links)
  | cons k L' =>
    exact .inr ⟨k, (LinkedList.links_cons.mp htail.links).1,
      hclean.hook_eq (htail.started k List.mem_cons_self)⟩

theorem act_commutes (hg : g.Intact) (hclean : g.Unhooked H.hook) (huser : g.userCode = true)
    (hstack : g.stack = a :: rest) (hpauses : g.Pauses (.act x) = true)
    (hcall : ∀ k, x = .call k → H.hook k = false) :
    (g.above H).act a.self x = (g.act a.self x).map (above · H) := by
  have hf := hclean.hook_eq (hg.stacked a (by simp [hstack])).1
  obtain ⟨-, -, L, hL⟩ := whole_user hg.whole huser hstack
  cases x with
  | call k => exact congrArg some (above_asyncCall hf (hcall k rfl))
  | ret => exact congrArg some (above_asyncReturn hf)
  | throw e => exact congrArg some (above_asyncThrow hf e)
  | suspend => exact congrArg some (above_asyncWait hf .suspended)
  | yield => exact congrArg some (above_asyncWait hf .yield)
  | pause =>
    have hpausable : ((g.above H).obj a.self).pausable = (g.obj a.self).pausable := by
      rw [above_obj hf]
      rfl
    obtain ⟨-, k, hk, -⟩ := caller_of_mayPause hL (by simpa [Pauses, hstack] using hpauses)
    have hhook : H.hook k = false := by
      rcases caller_cases hclean hL with hc | ⟨k', hk', hhook⟩
      · simp [hk] at hc
      · obtain rfl : k = k' := by simpa [hk] using hk'
        exact hhook
    simp only [act, hpausable]
    split
    · exact congrArg some (above_asyncPause hf hhook hk)
    · rfl
  | propagate =>
    simp only [act]
    by_cases hctl : g.ctl = .handling
    · rw [if_pos hctl, if_pos (show (g.above H).ctl = .handling from hctl)]
      rfl
    · rw [if_neg hctl, if_neg (show ¬ (g.above H).ctl = .handling from hctl)]
      rfl
  | exception =>
    simp only [act]
    by_cases hctl : g.ctl = .polling
    · rw [if_pos hctl, if_pos (show (g.above H).ctl = .polling from hctl), above_catchException hf]
      rfl
    · rw [if_neg hctl, if_neg (show ¬ (g.above H).ctl = .polling from hctl)]
      rfl

/-- The error of the entry is about to go to the task. -/
def HandsError (g : Machine) : Prop :=
  ∃ a rest st e, g.ctl = .returned st ∧ g.stack = a :: rest ∧ (st = .raise ∨ st = .passthrough) ∧
    a.handling = some e ∧ (g.obj a.self).caller = .task

theorem tick_commutes (hg : g.Intact) (hclean : g.Unhooked H.hook) (hfirst : H.hook H.first = true)
    (htop : g.top = .obj i) (herror : ¬ g.HandsError) :
    (g.above H).tick = g.tick.map (above · H) := by
  have hctl' : (g.above H).ctl = g.ctl := rfl
  have hstack' : (g.above H).stack = g.stack := rfl
  cases hstack : g.stack with
  | nil =>
    rcases hctl : g.ctl <;> simp only [tick, hctl', hctl, hstack', hstack, Option.map_some, Option.map_none]
    · have htop' : (g.above H).top = .obj i := by simp [above, htop, Ptr.above]
      simp only [runTop, htop, htop']
      simp only [above, htop]
      rfl
    · have hwhole := hg.whole
      simp [Whole, hctl] at hwhole
  | cons a rest =>
    rcases hctl : g.ctl <;> simp only [tick, hctl', hctl, hstack', hstack, Option.map_some, Option.map_none]
    · have hnil := hg.whole.stack_nil (.inr hctl)
      simp [hstack] at hnil
    · exact congrArg some (enter_commutes hg hclean hfirst hctl hstack)
    · exact congrArg some (walk_commutes hg hclean hctl hstack)
    · rename_i st
      have hf := hclean.hook_eq (hg.stacked a (by simp [hstack])).1
      refine congrArg some (above_afterCallback hf hfirst fun hst hhandling => ?_)
      obtain ⟨e, he⟩ := Option.ne_none_iff_exists'.mp hhandling
      have hret := (whole_returned hctl hstack).mp hg.whole
      obtain ⟨L, hL⟩ : ∃ L, Settled g (.obj a.self) L := by
        rcases hret with ⟨-, hL, -⟩ | ⟨⟨hstops, hne⟩, -⟩ | ⟨rfl, -⟩
        · exact hL
        · rcases hst with rfl | rfl
          · cases hstops
          · exact absurd rfl hne
        · simp at hst
      refine (caller_cases hclean hL).resolve_left fun htask => herror ?_
      exact ⟨a, rest, st, e, hctl, hstack, hst, he, htask⟩
    · have hwhole := hg.whole
      simp [Whole, hctl] at hwhole

end Machine

end Jinx.Await
