import Jinx.Await.HandDown

/-! The hooks of a target, from the first join to the target's exit.

    While the target has frames, it is a machine without hooks that has them below its frames
    (`Alive`). When the entry has handed its result down, the hooks are run one after the other, and
    then the task (`Handed`, `Over`). -/

namespace Jinx.Await

open LinkedList

def Ptr.isHook (hook : ObjId → Bool) : Ptr → Bool
  | .obj j => hook j
  | _ => false

attribute [ext] Machine

namespace Machine

variable {g m t : Machine} {K : Hooks} {hook : ObjId → Bool} {next : ObjId → Ptr} {i j r : ObjId}
  {p q : Ptr} {L H : List ObjId} {l : Label}

instance Regular.decidable (m : Machine) : ∀ l : Label, Decidable (m.Regular l)
  | .spawn _ => inferInstanceAs (Decidable (m.log = [] ∧ m.top = .null))
  | .act .exception => inferInstanceAs (Decidable (∀ a ∈ m.stack.head?, m.top = .obj a.self))
  | .cancel => .isFalse id
  | .tick | .start _ | .resume _ | .run => inferInstanceAs (Decidable (_ ∧ _))
  | .act (.call _) | .act .ret | .act (.throw _) | .act .suspend | .act .yield | .act .pause
  | .act .propagate => inferInstanceAs (Decidable (_ ∧ _))

/-- The target keeps its own chain, no frame pauses whose `_caller` is a hook, and the target is not
    cancelled while a hook is its entry. -/
def Steady (hook : ObjId → Bool) (m : Machine) : Label → Prop
  | .cancel => m.entry.isHook hook = false
  | l => m.Regular l ∧
      (l = .act .pause → ∀ a ∈ m.stack.head?, (m.obj a.self).caller.isHook hook = false)

instance Steady.decidable (hook : ObjId → Bool) (m : Machine) : ∀ l : Label,
    Decidable (m.Steady hook l)
  | .cancel => inferInstanceAs (Decidable (m.entry.isHook hook = false))
  | .tick | .act _ | .start _ | .spawn _ | .resume _ | .run => inferInstanceAs (Decidable (_ ∧ _))

/-- The target has a frame, and its entry is next to the task and is not paused. -/
def joinable (m : Machine) : Bool :=
  match m.top, m.entry with
  | .obj _, .obj r => (m.obj r).caller = .task && (m.obj r).prev = .null
  | _, _ => false

/-! ### The chain of hooks -/

/-- The hooks `H` are linked between the frames and the task, the one next to the frames first. -/
structure Hung (hook : ObjId → Bool) (m : Machine) (next : ObjId → Ptr) (H : List ObjId) : Prop where
  hooks : ∀ j ∈ H, hook j = true
  nodup : H.Nodup
  links : ∃ q, Links m.callers .obj .task q H
  entry : ∀ j, H.getLast? = some j → m.entry = .obj j
  next_ne : ∀ j ∈ H, next j ≠ .null
  first : ∀ j, H.head? = some j → ∃ r, next j = .obj r ∧ hook r = false

theorem Hung.nil (hook : ObjId → Bool) (m : Machine) (next : ObjId → Ptr) : m.Hung hook next [] where
  hooks := nofun
  nodup := List.nodup_nil
  links := ⟨.task, rfl⟩
  entry := nofun
  next_ne := nofun
  first := nofun

/-- Only the records of the hooks and the entry are read. -/
theorem Hung.congr (h : m.Hung hook next H) (hcaller : ∀ j ∈ H, (t.obj j).caller = (m.obj j).caller)
    (hentry : t.entry = m.entry) : t.Hung hook next H where
  hooks := h.hooks
  nodup := h.nodup
  links := h.links.imp fun _ hq => hq.congr hcaller
  entry := hentry ▸ h.entry
  next_ne := h.next_ne
  first := h.first

theorem Hung.congr_next {next' : ObjId → Ptr} (h : m.Hung hook next H)
    (hnext : ∀ j ∈ H, next' j = next j) : m.Hung hook next' H where
  hooks := h.hooks
  nodup := h.nodup
  links := h.links
  entry := h.entry
  next_ne j hj := (hnext j hj).symm ▸ h.next_ne j hj
  first j hj := by
    rw [hnext j (List.mem_of_head? hj)]
    exact h.first j hj

/-- The new hook is next to the task; the entry was the last hook, or a frame. -/
theorem Hung.addHook (h : m.Hung hook next H) (hj : hook j = true) (hjH : j ∉ H)
    (hentry : m.entry = .obj r) (hr : H = [] → hook r = false) :
    (m.addHook j).Hung hook (Function.update next j (.obj r)) (H ++ [j]) where
  hooks k hk := by
    rcases List.mem_append.mp hk with hk | hk
    · exact h.hooks k hk
    · exact List.mem_singleton.mp hk ▸ hj
  nodup := h.nodup.append (List.nodup_singleton j) (by simpa using hjH)
  links := by
    obtain ⟨q, hq⟩ := h.links
    rcases List.eq_nil_or_concat H with rfl | ⟨X, k, rfl⟩
    · refine ⟨.obj j, rfl, ?_⟩
      have hrj : j ≠ r := fun hc => by simp [hc, hr rfl] at hj
      simp [Machine.addHook, callers, hentry, setCaller, set_obj, hrj]
    · rw [List.concat_eq_append] at hq hjH h ⊢
      obtain rfl : k = r := by simpa [hentry, eq_comm] using h.entry k (by simp)
      have hkj : k ≠ j := fun hc => hjH (by simp [hc])
      have hkX : k ∉ X := fun hc => (List.nodup_append.mp h.nodup).2.2 k hc k (by simp) rfl
      obtain ⟨p, hX, hp, -⟩ := links_append.mp hq
      refine ⟨q, links_append.mpr ⟨.obj j, links_append.mpr ⟨p, hX.congr fun d hd => ?_, hp, ?_⟩, rfl, ?_⟩⟩
      · have hdk : d ≠ k := fun hc => hkX (hc ▸ hd)
        have hdj : d ≠ j := fun hc => hjH (by simp [← hc, hd])
        simp [Machine.addHook, callers, hentry, setCaller, set_obj, hdk, hdj]
      · simp [Machine.addHook, callers, hentry, setCaller]
      · simp [Machine.addHook, callers, hentry, setCaller, set_obj, hkj.symm]
  entry k hk := by
    obtain rfl : j = k := by simpa using hk
    rfl
  next_ne k hk := by
    by_cases hkj : k = j
    · simp [hkj]
    · rw [Function.update_of_ne hkj]
      exact h.next_ne k (by simpa [hkj] using hk)
  first k hk := by
    cases H with
    | nil =>
      obtain rfl : j = k := by simpa using hk
      exact ⟨r, Function.update_self .., hr rfl⟩
    | cons d H =>
      obtain rfl : d = k := by simpa using hk
      have hdj : d ≠ j := fun hc => hjH (by simp [hc])
      rw [Function.update_of_ne hdj]
      exact h.first d rfl

/-- The hook that is run next, or the task. -/
def firstPtr : List ObjId → Ptr
  | [] => .task
  | j :: _ => .obj j

/-- The target after its first hook `j` was run, which was linked to the frame `r`. -/
def dropHook (m : Machine) (j r : ObjId) : Machine :=
  let o := m.obj j
  { m with
    obj := fun i =>
      if i = j then { o with task := false, error := {} }
      else if i = r then { m.obj r with caller := o.caller }
      else if o.caller = .obj i ∧ o.error.isSet then { m.obj i with error := o.error }
      else m.obj i
    entry := if o.caller = .task then .obj r else m.entry
    taskError := if o.caller = .task ∧ o.error.isSet then o.error else m.taskError
    top := o.caller }

theorem dropHook_eq (hrj : r ≠ j) (hcaller : (m.obj j).caller = firstPtr H) (hj : j ∉ H)
    (hr : r ∉ H) {n : Machine}
    (hn : n = { m.set r fun o => { o with caller := firstPtr H } with
      entry := if H = [] then .obj r else m.entry }) :
    { (if (m.obj j).error.isSet then n.setError (firstPtr H) (m.obj j).error else n).set j fun o =>
        { o with task := false, error := {} } with top := firstPtr H } = m.dropHook j r := by
  have hobj : ∀ i, ((if (m.obj j).error.isSet then n.setError (firstPtr H) (m.obj j).error
      else n).set j fun o => { o with task := false, error := {} }).obj i = (m.dropHook j r).obj i := by
    intro i
    subst hn
    cases H with
    | nil =>
      by_cases hij : i = j
      · split <;> simp [dropHook, firstPtr, setError, set_obj, hij, hrj.symm]
      by_cases hir : i = r
      · split <;> simp [dropHook, firstPtr, setError, set_obj, hir, hrj, hcaller]
      · split <;> simp [dropHook, firstPtr, setError, set_obj, hij, hir, hcaller]
    | cons p H =>
      have hpj : p ≠ j := fun hc => hj (by simp [hc])
      have hpr : p ≠ r := fun hc => hr (by simp [hc])
      by_cases hij : i = j
      · split <;> simp [dropHook, firstPtr, setError, set_obj, hij, hrj.symm, hpj.symm]
      by_cases hir : i = r
      · split <;> simp [dropHook, firstPtr, setError, set_obj, hir, hrj, hpr.symm, hcaller]
      by_cases hip : i = p
      · split <;> simp [dropHook, firstPtr, setError, set_obj, *]
      · split <;> simp [dropHook, firstPtr, setError, set_obj, hij, hir, hip, Ne.symm hip, hcaller]
  ext1
  · exact funext hobj
  all_goals
    subst hn
    cases H <;> split <;> simp [dropHook, firstPtr, setError, *]

theorem dropHook_caller (m : Machine) (j : ObjId) (h : i ≠ r) :
    ((m.dropHook j r).obj i).caller = (m.obj i).caller := by
  simp only [dropHook]
  split
  · rename_i hij
    rw [hij]
  · split <;> rfl

theorem dropHook_task (m : Machine) (h : i ≠ j) :
    ((m.dropHook j r).obj i).task = (m.obj i).task := by
  simp only [dropHook, if_neg h]
  split
  · rename_i hir
    rw [hir]
  split <;> rfl

theorem Hung.caller (h : m.Hung hook next (j :: H)) : (m.obj j).caller = firstPtr H := by
  obtain ⟨q, -, hq⟩ := h.links
  cases H with
  | nil => exact links_nil.mp hq
  | cons d H => exact (links_cons.mp hq).1

theorem Hung.dropHook {next' : ObjId → Ptr} (h : m.Hung hook next (j :: H)) (hr : hook r = false)
    (hnext : ∀ k ∈ H, next' k = if H.head? = some k then .obj r else next k) :
    (m.dropHook j r).Hung hook next' H where
  hooks k hk := h.hooks k (List.mem_cons_of_mem j hk)
  nodup := (List.nodup_cons.mp h.nodup).2
  links := by
    obtain ⟨q, -, hq⟩ := h.links
    refine ⟨_, hq.congr fun k hk => dropHook_caller m j ?_⟩
    rintro rfl
    simp [h.hooks k (List.mem_cons_of_mem j hk)] at hr
  entry k hk := by
    cases H with
    | nil => cases hk
    | cons d H =>
      simpa [Machine.dropHook, h.caller, firstPtr] using h.entry k (by rw [List.getLast?_cons_cons]; exact hk)
  next_ne k hk := by
    rw [hnext k hk]
    split
    · exact nofun
    · exact h.next_ne k (List.mem_cons_of_mem j hk)
  first k hk := ⟨r, by rw [hnext k (List.mem_of_head? hk), if_pos hk], hr⟩

/-! ### Hooks are no frames -/

section Started

variable (s : Machine) (f : ObjId) (j : ObjId)

theorem started_swapDone (c : Ptr) : started (s.swapDone f c).log j = started s.log j := by
  rw [swapDone, (Quiet.callback _ f).started, emit_log, set_log, setCaller_log]
  rfl

theorem started_poll : started (s.poll f).log j = started s.log j := by
  simp only [poll]
  split
  · split
    · split
      · rfl
      split
      · exact started_swapDone s f j _
      · rfl
    · exact (Quiet.asyncReturn s f).started j
  · exact (Quiet.callback s f).started j

theorem started_enter (rest : List Activation) :
    started (s.enter f rest).log j = started s.log j := by
  simp only [enter]
  split
  · rfl
  · exact started_poll { s with stack := ⟨f, none⟩ :: rest } f j

theorem started_walk (c : Ptr) : started (s.walk f c).log j = started s.log j := by
  rw [walk]
  split
  · rfl
  split
  · rw [started_swapDone, repairPrev_log]
  · rfl

theorem started_unwind : started s.unwind.log j = started s.log j := by
  rw [unwind]
  split
  · exact (Quiet.finalize s _).started j
  · split <;> rfl

end Started

theorem started_tick (h : g.tick = some t) (j : ObjId) : started t.log j = started g.log j := by
  unfold Machine.tick at h
  split at h
  · cases h
    exact (Quiet.runTop g).started j
  · cases h
    exact started_unwind g j
  · cases h
    exact started_enter g _ j _
  · cases h
    exact started_walk g _ j _
  · cases h
    exact (Quiet.afterCallback g _ _ _).started j
  · cases h

/-- Only a call and `Task::init` make an awaitable a frame. -/
theorem started_step (h : g.step l = some t) (hj : started t.log j = true) :
    started g.log j = true ∨ l = .act (.call j) ∨ l = .spawn j := by
  cases l with
  | tick => exact .inl (started_tick h j ▸ hj)
  | act x =>
    simp only [step] at h
    split at h
    · cases h
    rename_i a rest hstack
    split at h
    swap
    · cases h
    cases x with
    | call k =>
      cases h
      rcases started_cons.mp hj with ⟨p, hp⟩ | hj
      · obtain ⟨-, rfl⟩ := Event.called.inj hp
        exact .inr (.inl rfl)
      · exact .inl hj
    | ret =>
      cases h
      exact .inl ((Quiet.asyncReturn g _).started j ▸ hj)
    | throw e =>
      cases h
      exact .inl ((Quiet.asyncThrow g _ e).started j ▸ hj)
    | suspend | yield =>
      cases h
      exact .inl ((Quiet.asyncWait g _ _).started j ▸ hj)
    | pause =>
      simp only [act, Option.ite_none_right_eq_some, Option.some.injEq] at h
      obtain ⟨-, rfl⟩ := h
      refine .inl ?_
      simp only [asyncPause] at hj
      split at hj
      · exact hj
      split at hj
      · simpa [started_cons] using hj
      · exact hj
    | propagate =>
      simp only [act, Option.ite_none_right_eq_some, Option.some.injEq] at h
      obtain ⟨-, rfl⟩ := h
      exact .inl hj
    | exception =>
      simp only [act, Option.ite_none_right_eq_some, Option.some.injEq] at h
      obtain ⟨-, rfl⟩ := h
      exact .inl ((Quiet.catchException g _).started j ▸ hj)
  | start f =>
    simp only [step, Option.ite_none_right_eq_some, Option.some.injEq] at h
    obtain ⟨-, rfl⟩ := h
    exact .inl hj
  | spawn r =>
    simp only [step, Option.ite_none_right_eq_some, Option.some.injEq] at h
    obtain ⟨-, rfl⟩ := h
    rcases started_cons.mp hj with ⟨p, hp⟩ | hj
    · obtain ⟨-, rfl⟩ := Event.called.inj hp
      exact .inr (.inr rfl)
    · exact .inl hj
  | resume e =>
    simp only [step, Option.ite_none_right_eq_some] at h
    obtain ⟨-, h⟩ := h
    split at h <;> cases h <;> exact .inl hj
  | run | cancel =>
    simp only [step, Option.ite_none_right_eq_some, Option.some.injEq] at h
    obtain ⟨-, rfl⟩ := h
    exact .inl hj

theorem Unhooked.step (h : g.Unhooked hook) (hown : m.own hook l = true) (ht : g.step l = some t) :
    t.Unhooked hook := fun j hj => by
  by_contra hstarted
  rcases started_step ht (by simpa using hstarted) with hold | rfl | rfl
  · simp [h j hj] at hold
  · simp [own, hj] at hown
  · simp [own, hj] at hown

/-! ### The target is alive -/

/-- The target is cancelled, or was: no hook is its `_top`. -/
structure Quit (hook : ObjId → Bool) (g : Machine) : Prop where
  stack : g.stack = []
  used : g.log ≠ [] ∨ g.top ≠ .null
  chain : match g.ctl with
    | .cancelling => ∃ L, Links g.callers .obj .task g.top L ∧ ∀ f ∈ L, hook f = false
    | .stopped => g.top = .null ∨ g.top = .task
    | .running => g.top = .task
    | _ => False

theorem Quit.stopped (hstack : g.stack = []) (hused : g.log ≠ [] ∨ g.top ≠ .null)
    (hctl : g.ctl = .stopped) (htop : g.top = .null ∨ g.top = .task) : g.Quit hook :=
  ⟨hstack, hused, by simpa only [hctl] using htop⟩

theorem Quit.tick (h : g.Quit hook) (ht : g.tick = some t) : t.Quit hook := by
  have hchain := h.chain
  rcases hctl : g.ctl <;> simp only [hctl] at hchain
  · simp [Machine.tick, hctl, h.stack] at ht
  · simp only [Machine.tick, hctl, Option.some.injEq, runTop, hchain] at ht
    subst ht
    exact .stopped h.stack (.inl (by simp)) rfl (.inl rfl)
  · simp only [Machine.tick, hctl, Option.some.injEq] at ht
    subst ht
    obtain ⟨L, hL, hhook⟩ := hchain
    cases L with
    | nil =>
      have htop : g.top = .task := links_nil.mp hL
      simp only [unwind, htop]
      split
      · exact .stopped h.stack (.inr (by simp)) rfl (.inr rfl)
      · exact .stopped h.stack (.inr (by simp)) rfl (.inr rfl)
    | cons f L =>
      obtain ⟨htop, hL⟩ := links_cons.mp hL
      simp only [unwind, htop]
      refine ⟨h.stack, .inl (by simp [finalize]), ?_⟩
      have hctl' : (g.finalize f).ctl = .cancelling := hctl
      simp only [hctl']
      refine ⟨L, hL.congr fun k _ => ?_, fun k hk => hhook k (List.mem_cons_of_mem f hk)⟩
      exact (Quiet.finalize g f).caller k

theorem Quit.step (h : g.Quit hook) (hl : g.Steady hook l) (ht : g.step l = some t) :
    t.Quit hook := by
  have hchain := h.chain
  have hstop : g.ctl = .stopped → g.top = .null ∨ g.top = .task := fun hctl => by
    simpa only [hctl] using hchain
  cases l with
  | tick => exact h.tick ht
  | act x => simp [Machine.step, h.stack] at ht
  | start f =>
    simp only [Machine.step, Option.ite_none_right_eq_some, Option.some.injEq] at ht
    obtain ⟨⟨hctl, -⟩, rfl⟩ := ht
    rcases hctl with huser | hctl
    · rcases hctl : g.ctl <;> simp [userCode, hctl] at huser hchain
    · exact .stopped h.stack h.used hctl (hstop hctl)
  | spawn r =>
    obtain ⟨hlog, htop⟩ := hl.1
    rcases h.used with hused | hused
    · exact absurd hlog hused
    · exact absurd htop hused
  | resume e =>
    simp only [Machine.step, Option.ite_none_right_eq_some] at ht
    obtain ⟨hctl, ht⟩ := ht
    split at ht <;> cases ht
    · exact h
    · exact .stopped h.stack h.used hctl (hstop hctl)
  | run =>
    simp only [Machine.step, Option.ite_none_right_eq_some, Option.some.injEq] at ht
    obtain ⟨⟨hctl, htop, -⟩, rfl⟩ := ht
    exact ⟨h.stack, h.used, (hstop hctl).resolve_left htop⟩
  | cancel =>
    simp only [Machine.step, Option.ite_none_right_eq_some, Option.some.injEq] at ht
    obtain ⟨⟨hctl, htop⟩, rfl⟩ := ht
    exact ⟨h.stack, h.used, [], (hstop hctl).resolve_left htop, by simp⟩

/-- A stopped task with frames is cancelled. -/
theorem Intact.quit (hg : g.Intact) (hclean : g.Unhooked hook) (ht : g.step .cancel = some t) :
    t.Quit hook := by
  simp only [Machine.step, Option.ite_none_right_eq_some, Option.some.injEq] at ht
  obtain ⟨⟨hctl, htop⟩, rfl⟩ := ht
  have hstack := hg.whole.stack_nil (.inl hctl)
  rcases (whole_stopped hctl hstack).mp hg.whole with ⟨hnull, -⟩ | ⟨L, hL⟩
  · exact absurd hnull htop
  · exact ⟨hstack, .inr htop, L, hL.links, fun f hf => hclean.hook_eq (hL.started f hf)⟩

/-- What the target may do with hooks, it may do without them. -/
theorem Steady.regular (hg : g.Intact) (hclean : g.Unhooked K.hook) (hfirst : K.hook K.first = true)
    (hl : (g.above K).Steady K.hook l) (hcancel : l ≠ .cancel) : g.Regular l := by
  have htop : ∀ {f}, K.hook f = false → (g.above K).top = .obj f → g.top = .obj f :=
    fun hf => (above_top hfirst hf).mp
  cases l with
  | cancel => exact absurd rfl hcancel
  | spawn r => exact ⟨hl.1.1, Ptr.above_eq_null.mp hl.1.2⟩
  | act x =>
    cases x with
    | exception =>
      intro a ha
      have hmem : a ∈ g.stack := List.mem_of_head? ha
      exact htop (hclean.hook_eq (hg.stacked a hmem).1) (hl.1 a ha)
    | pause =>
      obtain ⟨⟨-, hpauses⟩, hhook⟩ := hl
      refine ⟨rfl, ?_⟩
      cases hstack : g.stack with
      | nil => simp [Pauses, hstack]
      | cons a rest =>
        have hf := hclean.hook_eq (hg.stacked a (by simp [hstack])).1
        have hstack' : (g.above K).stack = a :: rest := hstack
        have hmay : (g.above K).mayPause a.self = true := by simpa [Pauses, hstack'] using hpauses
        have hcaller := hhook rfl a (by simp [hstack'])
        rw [above_obj hf] at hcaller
        simp only [Pauses, hstack, List.head?_cons, Option.all_some]
        simp only [mayPause, above_obj hf] at hmay ⊢
        cases hc : (g.obj a.self).caller with
        | null => simp [Obj.above, hc, Ptr.above] at hmay
        | task => simp [Obj.above, hc, Ptr.above, Ptr.isHook, hfirst] at hcaller
        | obj k =>
          have hk : K.hook k = false := by simpa [Obj.above, hc, Ptr.above, Ptr.isHook] using hcaller
          simpa [Obj.above, hc, Ptr.above, above_isPaused hk] using hmay
    | _ => exact ⟨hl.1.1, hl.1.2⟩
  | _ => exact ⟨rfl, rfl⟩

/-- The target may have frames: `g` is the target that nobody has joined. -/
inductive Alive (hook : ObjId → Bool) (m g : Machine) : List ObjId → Prop
  | free (same : m = g) (whole : g.Intact ∨ g.Quit hook) : Alive hook m g []
  | joined (K : Hooks) (H : List ObjId) (hooks : K.hook = hook) (same : m = g.above K)
      (intact : g.Intact) (top : ∃ i, g.top = .obj i)
      (errors : ∀ j, hook j = true → (K.obj j).error.isSet = false) : Alive hook m g (K.first :: H)

/-! ### The target has ended -/

/-- The result of the entry, where the hooks have brought it. -/
def result (m : Machine) : List ObjId → Error
  | [] => m.taskError
  | j :: _ => if (m.obj j).error.isSet then (m.obj j).error else m.taskError

/-- The hooks `H` are still to be run. -/
structure Handed (hook : ObjId → Bool) (m g : Machine) (H : List ObjId) : Prop
    extends Ending hook m g where
  frames : ∀ a ∈ g.stack, hook a.self = false
  last : H = [] → g.ctl = .running
  top : m.top = firstPtr H
  error : m.result H = g.taskError
  others : ∀ j, hook j = true → H.head? ≠ some j → (m.obj j).error.isSet = false

/-- The task has exited. -/
structure Over (hook : ObjId → Bool) (m g : Machine) : Prop extends Same hook m g where
  top : m.top = .null ∧ g.top = .null
  stopped : g.ctl = .stopped ∧ g.stack = []
  used : g.log ≠ []

/-- The entry has handed its result down. -/
def Past (hook : ObjId → Bool) (m g : Machine) (H : List ObjId) : Prop :=
  Handed hook m g H ∨ H = [] ∧ Over hook m g

/-- What is run or cancelled of a target with frames is a frame. -/
theorem Alive.top_frame (h : Alive hook m g H) (hclean : g.Unhooked hook)
    (hctl : m.ctl = .running ∨ m.ctl = .cancelling) (htop : m.top = .obj j) : hook j = false := by
  have hintact : ∀ {g : Machine}, g.Intact → g.Unhooked hook →
      (g.ctl = .running ∨ g.ctl = .cancelling) → g.top = .obj j → hook j = false := by
    intro g hg hclean hctl htop
    rcases hctl with hctl | hctl
    · obtain ⟨L, hL⟩ := (whole_running hctl (hg.whole.stack_nil (.inr hctl))).mp hg.whole
      rw [htop] at hL
      exact hclean.hook_eq (hL.started j hL.head)
    · have hwhole := hg.whole
      simp [Whole, hctl] at hwhole
  cases h with
  | free same whole =>
    subst same
    rcases whole with hg | hg
    · exact hintact hg hclean hctl htop
    · have hchain := hg.chain
      rcases hctl with hctl | hctl <;> simp only [hctl] at hchain
      · simp [hchain] at htop
      · obtain ⟨L, hL, hhook⟩ := hchain
        cases L with
        | nil => simp [links_nil.mp hL] at htop
        | cons f L =>
          obtain rfl : f = j := by simpa [(links_cons.mp hL).1] using htop
          exact hhook f List.mem_cons_self
  | joined K H hooks same hg htop' herr =>
    subst same
    obtain ⟨i, hi⟩ := htop'
    refine hintact hg hclean hctl ?_
    simpa [above, hi, Ptr.above] using htop

/-- Nobody joins a target without frames. -/
theorem Past.not_joined (h : Past hook m g H) (htop : m.top = .obj i) (hacc : m.accessible = true) :
    False := by
  rcases h with h | ⟨-, h⟩
  · have hctl := h.ctl
    rcases h.point with hc | ⟨hc, -⟩ | hc <;> rw [hc] at hctl <;>
      simp [accessible, userCode, hctl] at hacc
  · simp [h.top.1] at htop

theorem Past.not_cancelling (h : Past hook m g H) : m.ctl ≠ .cancelling := by
  rcases h with h | ⟨-, h⟩
  · rw [h.ctl]
    rcases h.point with hc | ⟨hc, -⟩ | hc <;> simp [hc]
  · rw [h.ctl]
    simp [h.stopped.1]

theorem Alive.top_of_hook (h : Alive hook m g H) (hclean : g.Unhooked hook) (hj : j ∈ H) :
    ∃ f, m.top = .obj f ∧ (m.ctl = .stopped → hook f = false) := by
  cases h with
  | free same whole => cases hj
  | joined K H hooks same hg htop herr =>
    subst same
    obtain ⟨i, htop⟩ := htop
    refine ⟨i, by simp [above, htop, Ptr.above], fun hstop => ?_⟩
    have hctl : g.ctl = .stopped := hstop
    rcases (whole_stopped hctl (hg.whole.stack_nil (.inl hctl))).mp hg.whole with ⟨hnull, -⟩ | ⟨L, hL⟩
    · simp [hnull] at htop
    · rw [htop] at hL
      exact hclean.hook_eq (hL.started i hL.head)

theorem Past.top_of_hook (h : Past hook m g H) (hj : j ∈ H) :
    ∃ f, m.top = .obj f ∧ (m.ctl = .stopped → hook f = false) := by
  rcases h with h | ⟨rfl, -⟩
  · cases H with
    | nil => cases hj
    | cons k H =>
      refine ⟨k, h.top, fun hctl => ?_⟩
      have hctl' := h.ctl
      rcases h.point with hc | ⟨hc, -⟩ | hc <;> rw [hc, hctl] at hctl' <;> cases hctl'
  · cases hj

theorem Past.no_frame (h : Past hook m g H) (hung : m.Hung hook next H) :
    m.userCode = false ∧ ∀ f, m.top = .obj f → hook f = true := by
  rcases h with h | ⟨-, h⟩
  · refine ⟨?_, fun f hf => ?_⟩
    · have hctl := h.ctl
      rcases h.point with hc | ⟨hc, -⟩ | hc <;> rw [hc] at hctl <;> simp [userCode, hctl]
    · have htop := h.top.symm.trans hf
      cases H with
      | nil => cases htop
      | cons k H =>
        obtain rfl : k = f := by simpa [firstPtr] using htop
        exact hung.hooks k List.mem_cons_self
  · refine ⟨?_, fun f hf => ?_⟩
    · simp [userCode, h.ctl, h.stopped.1]
    · simp [h.top.1] at hf

theorem HandedDown.handed (h : HandedDown K m g) (hg : g.Intact) (hclean : g.Unhooked K.hook)
    (hfirst : K.hook K.first = true) (herr : ∀ j, K.hook j = true → (K.obj j).error.isSet = false)
    (H : List ObjId) : Handed K.hook m g (K.first :: H) where
  toEnding := h.toEnding
  frames a ha := hclean.hook_eq (hg.stacked a ha).1
  last := nofun
  top := h.top
  error := by
    rcases h.first with ⟨hobj, herror⟩ | ⟨hobj, hset⟩
    · simpa [result, hobj, herr K.first hfirst] using herror
    · simp [result, hobj, hset]
  others j hj hne := by
    rw [h.others j hj fun hc => hne (by simp [hc])]
    exact herr j hj

theorem Alive.step (h : Alive hook m g H) (hclean : g.Unhooked hook) (hung : m.Hung hook next H)
    (hl : m.Steady hook l) (hown : m.own hook l = true) (hm : m.step l = some t) :
    ∃ g', g.step l = some g' ∧ t.Hung hook next H ∧ (Alive hook t g' H ∨ Past hook t g' H) := by
  cases h with
  | free same whole =>
    subst same
    refine ⟨t, hm, .nil hook t next, .inl (.free rfl ?_)⟩
    rcases whole with hg | hg
    · by_cases hcancel : l = .cancel
      · subst hcancel
        exact .inr (hg.quit hclean hm)
      · refine .inl (hg.step ?_ hm)
        cases l with
        | cancel => exact absurd rfl hcancel
        | _ => exact hl.1
    · exact .inr (hg.step hl hm)
  | joined K H hooks same hg htop herr =>
    subst hooks same
    have hfirst := hung.hooks K.first List.mem_cons_self
    have hcancel : l ≠ .cancel := by
      rintro rfl
      obtain ⟨k, hk⟩ := Option.isSome_iff_exists.mp
        (show (K.first :: H).getLast?.isSome = true by simp)
      have hhook : K.hook k = false := by simpa [Steady, hung.entry k hk, Ptr.isHook] using hl
      rw [hung.hooks k (List.mem_of_getLast? hk)] at hhook
      cases hhook
    have hreg := hl.regular hg hclean hfirst hcancel
    obtain ⟨i, htop⟩ := htop
    obtain ⟨g', hg', hcases⟩ := step_above hg hreg hclean hfirst htop hown hm
    have hintact := hg.step hreg hg'
    refine ⟨g', hg', ?_⟩
    rcases hcases with ⟨rfl, htop'⟩ | hdown
    · refine ⟨hung.congr (fun j hj => ?_) rfl, .inl (.joined K H rfl rfl hintact htop' herr)⟩
      simp [above, hung.hooks j hj]
    · refine ⟨hung.congr (fun j hj => ?_) hdown.entry, .inr (.inl ?_)⟩
      · have hobj : ((g.above K).obj j) = K.obj j := by simp [above, hung.hooks j hj]
        rw [hobj]
        by_cases hjf : j = K.first
        · subst hjf
          rcases hdown.first with ⟨hsame, -⟩ | ⟨hsame, -⟩ <;> rw [hsame]
        · rw [hdown.others j (hung.hooks j hj) hjf]
      · exact hdown.handed hintact (hclean.step hown hg') hfirst herr H

theorem Over.step (h : Over hook m g) (hl : m.Steady hook l) (hown : m.own hook l = true)
    (hm : m.step l = some t) : ∃ g', g.step l = some g' ∧ Over hook t g' := by
  have hctl : m.ctl = .stopped := h.ctl.trans h.stopped.1
  have hstack : m.stack = [] := h.stack.trans h.stopped.2
  cases l with
  | tick => simp [Machine.step, tick, hctl, hstack] at hm
  | act x => simp [Machine.step, hstack] at hm
  | start f =>
    have hf : hook f = false := by simpa [own] using hown
    simp only [Machine.step, Option.ite_none_right_eq_some, Option.some.injEq] at hm
    obtain ⟨⟨-, htask⟩, rfl⟩ := hm
    rw [h.task f hf] at htask
    refine ⟨_, if_pos ⟨.inr h.stopped.1, htask⟩, ⟨⟨h.stack, h.ctl, h.state, h.log, fun i hi => ?_⟩,
      h.top, h.stopped, h.used⟩⟩
    by_cases hif : i = f
    · subst hif
      simpa using h.task i hi
    · simpa [set_obj, hif] using h.task i hi
  | spawn r => exact absurd (h.log ▸ hl.1.1) h.used
  | resume e =>
    simp only [Machine.step, hctl, h.top.1, true_or, if_true, Option.some.injEq] at hm
    subst hm
    exact ⟨g, by simp [Machine.step, h.stopped.1, h.top.2], h⟩
  | run => simp [Machine.step, h.top.1] at hm
  | cancel => simp [Machine.step, h.top.1] at hm

/-- The task exits with the result. -/
theorem Handed.exit (h : Handed hook m g []) (hm : m.step l = some t) :
    ∃ g', g.step l = some g' ∧ Over hook t g' := by
  have hctl := h.last rfl
  have hmctl := h.ctl.trans hctl
  have hstack : g.stack = [] := by
    rcases h.point with hc | ⟨-, hstack⟩ | hc
    · simp [hctl] at hc
    · exact hstack
    · simp [hctl] at hc
  obtain rfl := step_internal (by simp [hmctl]) (by simp [userCode, hmctl]) hm
  have htop : m.top = .task := h.top
  have herror : m.taskError = g.taskError := h.error
  simp only [Machine.step, tick, hmctl, runTop, htop, Option.some.injEq] at hm
  subst hm
  refine ⟨_, by simp only [Machine.step, tick, hctl, runTop, h.ended]; rfl, ?_⟩
  exact {
    stack := h.stack
    ctl := rfl
    state := rfl
    log := by simp [herror, h.log]
    task := h.task
    top := ⟨rfl, rfl⟩
    stopped := ⟨rfl, hstack⟩
    used := by simp }

theorem Past.step (h : Past hook m g H) (hung : m.Hung hook next H) (hl : m.Steady hook l)
    (hown : m.own hook l = true) (hm : m.step l = some t) :
    ∃ g', g.step l = some g' ∧ t.Hung hook next H ∧ Past hook t g' H := by
  rcases h with h | ⟨rfl, h⟩
  · cases H with
    | nil =>
      obtain ⟨g', hg', hover⟩ := h.exit hm
      exact ⟨g', hg', .nil hook t next, .inr ⟨rfl, hover⟩⟩
    | cons j H =>
      have hj := hung.hooks j List.mem_cons_self
      obtain ⟨g', hg', herror, hend, hsame, hstack⟩ := h.toEnding.step h.frames h.top hj hown hm
      refine ⟨g', hg', hung.congr (fun k hk => ?_) hsame.entry, .inl ?_⟩
      · rw [hsame.hooks k (hung.hooks k hk)]
      · exact {
          toEnding := hend
          frames := fun a ha => h.frames a (hstack ha)
          last := nofun
          top := hsame.top.trans h.top
          error := by
            have hresult := h.error
            simp only [result] at hresult ⊢
            rw [hsame.hooks j hj, hsame.taskError, herror]
            exact hresult
          others := fun k hk hne => by
            rw [hsame.hooks k hk]
            exact h.others k hk hne }
  · obtain ⟨g', hg', hover⟩ := h.step hl hown hm
    exact ⟨g', hg', .nil hook t next, .inr ⟨rfl, hover⟩⟩

/-- The first hook is run, and gives the result on. -/
theorem Handed.drop (h : Handed hook m g (j :: H)) (hung : m.Hung hook next (j :: H))
    (hctl : m.ctl = .running) (hr : hook r = false) : Handed hook (m.dropHook j r) g H := by
  have hj := hung.hooks j List.mem_cons_self
  have hcaller := hung.caller
  have hobj : ∀ k, hook k = true → k ≠ j → (m.dropHook j r).obj k =
      if firstPtr H = .obj k ∧ (m.obj j).error.isSet then { m.obj k with error := (m.obj j).error }
      else m.obj k := fun k hk hkj => by
    have hkr : k ≠ r := fun hc => by simp [← hc, hk] at hr
    simp only [dropHook, if_neg hkj, if_neg hkr, hcaller]
  have hresult := h.error
  simp only [result] at hresult
  exact {
    stack := h.stack
    ctl := h.ctl
    state := h.state
    log := h.log
    task := fun i hi => by
      rw [dropHook_task m fun hc => by simp [hc, hj] at hi]
      exact h.task i hi
    ended := h.ended
    point := h.point
    frames := h.frames
    last := fun _ => h.ctl.symm.trans hctl
    top := hcaller
    error := by
      rw [← hresult]
      cases H with
      | nil => simp [result, dropHook, hcaller, firstPtr]
      | cons d H =>
        have hdj : d ≠ j := fun hc => (List.nodup_cons.mp hung.nodup).1 (by simp [← hc])
        have hd := hung.hooks d (by simp)
        have herr := h.others d hd (by simpa using hdj.symm)
        have htask : (m.dropHook j r).taskError = m.taskError := by
          simp [dropHook, hcaller, firstPtr]
        simp only [result, hobj d hd hdj, htask, firstPtr, true_and]
        by_cases he : (m.obj j).error.isSet = true
        · simp [he]
        · simp [he, herr]
    others := fun k hk hne => by
      by_cases hkj : k = j
      · subst hkj
        simp [dropHook]
      · rw [hobj k hk hkj, if_neg]
        · exact h.others k hk (by simpa using fun hc => hkj hc.symm)
        · rintro ⟨hc, -⟩
          cases H with
          | nil => cases hc
          | cons d H => exact hne (by simpa [firstPtr] using hc) }

/-! ### A hook is added -/

theorem joinable_iff : m.joinable = true ↔
    ∃ i r, m.top = .obj i ∧ m.entry = .obj r ∧ (m.obj r).caller = .task ∧ (m.obj r).prev = .null := by
  unfold joinable
  split
  · rename_i i r htop hentry
    simp [htop, hentry]
  · rename_i hno
    simp only [Bool.false_eq_true, false_iff]
    rintro ⟨i, r, htop, hentry, -⟩
    exact hno i r htop hentry

theorem addHook_error (m : Machine) (j k : ObjId) :
    ((m.addHook j).obj k).error = (m.obj k).error := by
  have hset : ((m.set j fun o => { o with task := true, caller := .task }).obj k).error =
      (m.obj k).error := by
    simp only [set_obj]
    split <;> rfl
  simp only [Machine.addHook, setCaller]
  split
  · exact hset
  · exact hset
  · rw [← hset]
    simp only [set_obj]
    split <;> rfl

theorem addHook_obj (hentry : m.entry = .obj r) (hij : i ≠ j) (hir : i ≠ r) :
    (m.addHook j).obj i = m.obj i := by
  simp [Machine.addHook, hentry, setCaller, set_obj, hij, hir]

/-- The entry is the only awaitable that points to the task. -/
theorem Intact.addHook (hg : g.Intact) (hclean : g.Unhooked hook) (hj : hook j = true)
    (htop : g.top = .obj i) (hentry : g.entry = .obj r) (hcaller : (g.obj r).caller = .task)
    (hprev : (g.obj r).prev = .null) :
    g.addHook j = g.above ⟨hook, (g.addHook j).obj, .obj j, j⟩ ∧ hook r = false := by
  obtain ⟨x, hx⟩ := hg.bottom
  obtain ⟨rfl, hstarted⟩ := hx r (.inl hcaller)
  have hr := hclean.hook_eq hstarted
  have hobj : (g.addHook j).obj = fun k => if hook k then (g.addHook j).obj k
      else (g.obj k).above j := by
    funext k
    split
    · rfl
    rename_i hk
    have hkj : k ≠ j := fun hc => hk (hc ▸ hj)
    by_cases hkr : k = r
    · subst hkr
      simp [Machine.addHook, hentry, setCaller, set_obj, hkj, Obj.above, hcaller, hprev, Ptr.above]
    · rw [addHook_obj hentry hkj hkr]
      have hnone : ∀ p : Ptr, p ≠ .task → p.above j = p := fun p hp => by
        cases p <;> first | rfl | exact absurd rfl hp
      rw [Obj.above, hnone _ fun hc => hkr (hx k (.inl hc)).1, hnone _ fun hc => hkr (hx k (.inr hc)).1]
  refine ⟨?_, hr⟩
  have habove : (g.top.above j) = g.top := by simp [htop, Ptr.above]
  simp only [above, habove]
  rw [← hobj]
  simp only [Machine.addHook, hentry, setCaller]
  rfl

theorem addHook_above (hentry : K.entry = .obj r) (hj : K.hook j = true) (hr : K.hook r = true) :
    (g.above K).addHook j =
      g.above { K with obj := ((g.above K).addHook j).obj, entry := .obj j } := by
  have hobj : ((g.above K).addHook j).obj = fun k => if K.hook k then ((g.above K).addHook j).obj k
      else (g.obj k).above K.first := by
    funext k
    split
    · rfl
    rename_i hk
    have hkj : k ≠ j := by
      rintro rfl
      exact hk hj
    have hkr : k ≠ r := by
      rintro rfl
      exact hk hr
    rw [addHook_obj hentry hkj hkr, above_obj (by simpa using hk)]
  show _ = { g.above K with
    obj := fun k => if K.hook k then ((g.above K).addHook j).obj k else (g.obj k).above K.first
    entry := .obj j }
  rw [← hobj]
  have hentry' : (g.above K).entry = .obj r := hentry
  simp only [Machine.addHook, hentry', setCaller]
  rfl

theorem Alive.addHook (h : Alive hook m g H) (hclean : g.Unhooked hook) (hung : m.Hung hook next H)
    (hj : hook j = true) (hjH : j ∉ H) (hjoin : m.joinable = true) (hacc : m.accessible = true) :
    Alive hook (m.addHook j) g (H ++ [j]) ∧
      (m.addHook j).Hung hook (Function.update next j m.entry) (H ++ [j]) := by
  obtain ⟨i, r, htop, hentry, hcaller, hprev⟩ := joinable_iff.mp hjoin
  rw [hentry]
  cases h with
  | free same whole =>
    subst same
    have hg : m.Intact := whole.resolve_right fun hquit => by
      have hchain := hquit.chain
      rcases hctl : m.ctl <;> simp [accessible, userCode, hctl, htop] at hacc hchain
    obtain ⟨hsame, hr⟩ := hg.addHook hclean hj htop hentry hcaller hprev
    refine ⟨.joined ⟨hook, (m.addHook j).obj, .obj j, j⟩ [] rfl hsame hg ⟨i, htop⟩ fun k hk => ?_,
      hung.addHook hj hjH hentry fun _ => hr⟩
    rw [addHook_error]
    have hstop : m.userCode = true ∨ m.ctl = .stopped := by simpa [accessible] using hacc
    exact hg.errors.noError (hstop.imp id .inl) k
  | joined K H hooks same hg htop' herr =>
    subst hooks
    have hr : K.hook r = true := by
      obtain ⟨k, hk⟩ := Option.isSome_iff_exists.mp
        (show (K.first :: H).getLast?.isSome = true by simp)
      obtain rfl : k = r := by simpa [hentry, eq_comm] using hung.entry k hk
      exact hung.hooks k (List.mem_of_getLast? hk)
    refine ⟨.joined { K with obj := (m.addHook j).obj, entry := .obj j } (H ++ [j]) rfl ?_ hg htop'
      fun k hk => ?_, hung.addHook hj hjH hentry (by simp)⟩
    · subst same
      exact addHook_above hentry hj hr
    · rw [addHook_error, same]
      simpa [above, hk] using herr k hk

/-! ### The call chain -/

/-- What a join does not change: what the target does and, where others can see it, its call chain
    with all hooks removed. -/
structure Undisturbed (hook : ObjId → Bool) (m g : Machine) : Prop extends Same hook m g where
  chain : m.accessible = true → ∀ L, Links g.callers .obj .task g.current L ↔
    ∃ L', Links m.callers .obj .task m.current L' ∧ L'.filter (fun f => !hook f) = L

theorem links_above (h : Links g.callers .obj .task q L) (hL : ∀ f ∈ L, K.hook f = false) :
    Links (g.above K).callers .obj (.obj K.first) (q.above K.first) L := by
  induction L generalizing q with
  | nil =>
    rw [links_nil.mp h]
    exact links_nil.mpr rfl
  | cons f L ih =>
    obtain ⟨rfl, h⟩ := h
    refine ⟨rfl, ?_⟩
    have hf : (g.above K).callers f = (g.callers f).above K.first := by
      rw [callers, above_obj (hL f List.mem_cons_self)]
      rfl
    rw [hf]
    exact ih h fun k hk => hL k (List.mem_cons_of_mem f hk)

/-- Where others can see it, the chain is one of frames. -/
theorem Intact.links (hg : g.Intact) (hclean : g.Unhooked hook) (hacc : g.accessible = true) :
    g.current = .null ∨
      ∃ L, Links g.callers .obj .task g.current L ∧ ∀ f ∈ L, hook f = false := by
  have hframes : ∀ {q : Ptr} {L : List ObjId}, Settled g q L → ∀ f ∈ L, hook f = false :=
    fun hL f hf => hclean.hook_eq (hL.started f hf)
  have hstop : g.userCode = true ∨ g.ctl = .stopped := by simpa [accessible] using hacc
  rcases hstop with huser | hctl
  · cases hstack : g.stack with
    | nil =>
      have hwhole := hg.whole
      rcases hctl : g.ctl <;> simp [userCode, hctl, Whole, hstack] at huser hwhole
    | cons a rest =>
      obtain ⟨-, -, L, hL⟩ := whole_user hg.whole huser hstack
      have hcurrent : g.current = .obj a.self := by simp only [current, hstack]
      rw [hcurrent]
      exact .inr ⟨L, hL.links, hframes hL⟩
  · have hstack := hg.whole.stack_nil (.inl hctl)
    have hcurrent : g.current = g.top := by simp only [current, hstack]
    rw [hcurrent]
    rcases (whole_stopped hctl hstack).mp hg.whole with ⟨hnull, -⟩ | ⟨L, hL⟩
    · exact .inl hnull
    · exact .inr ⟨L, hL.links, hframes hL⟩

theorem filter_frames (h : ∀ f ∈ L, hook f = false) : L.filter (fun f => !hook f) = L :=
  List.filter_eq_self.mpr fun f hf => by simp [h f hf]

theorem Alive.undisturbed (h : Alive hook m g H) (hclean : g.Unhooked hook)
    (hung : m.Hung hook next H) : Undisturbed hook m g := by
  cases h with
  | free same whole =>
    subst same
    refine ⟨⟨rfl, rfl, rfl, rfl, fun _ _ => rfl⟩, fun hacc L => ?_⟩
    have hframes : ∀ L, Links m.callers .obj .task m.current L → ∀ f ∈ L, hook f = false := by
      intro L hL
      rcases whole with hg | hg
      · rcases hg.links hclean hacc with hnull | ⟨X, hX, hhook⟩
        · exact absurd hnull (links_ne_null hL)
        · exact links_unique hX hL ▸ hhook
      · have hcurrent : m.current = m.top := by simp only [current, hg.stack]
        have hchain := hg.chain
        rcases hctl : m.ctl <;> simp [accessible, userCode, hctl] at hacc hchain
        rw [hcurrent] at hL
        rcases hchain with hnull | htask
        · exact absurd hnull (links_ne_null hL)
        · rw [htask] at hL
          simp [hL.eq_nil (by simp)]
    constructor
    · exact fun hL => ⟨L, hL, filter_frames (hframes L hL)⟩
    · rintro ⟨X, hX, rfl⟩
      rwa [filter_frames (hframes X hX)]
  | joined K H hooks same hg htop herr =>
    subst hooks same
    refine ⟨same_above g K, fun hacc L => ?_⟩
    obtain ⟨i, htop⟩ := htop
    obtain ⟨k, hk⟩ : ∃ k, g.current = .obj k := by
      unfold current
      split
      · exact ⟨_, rfl⟩
      · exact ⟨i, htop⟩
    have hcurrent : (g.above K).current = g.current.above K.first := by
      unfold current
      have hstack : (g.above K).stack = g.stack := rfl
      rw [hstack]
      split <;> rfl
    have hnull : g.current ≠ .null := by simp [hk]
    obtain ⟨X, hX, hhook⟩ := (hg.links hclean hacc).resolve_left hnull
    obtain ⟨q, hq⟩ := hung.links
    obtain rfl : q = .obj K.first := (links_cons.mp hq).1
    have hall : Links (g.above K).callers .obj .task (g.above K).current (X ++ K.first :: H) := by
      rw [hcurrent]
      exact links_append.mpr ⟨_, links_above hX hhook, hq⟩
    have hfilter : (X ++ K.first :: H).filter (fun f => !K.hook f) = X := by
      have hnone : (K.first :: H).filter (fun f => !K.hook f) = [] :=
        List.filter_eq_nil_iff.mpr fun f hf => by simp [hung.hooks f hf]
      rw [List.filter_append, filter_frames hhook, hnone, List.append_nil]
    constructor
    · intro hL
      obtain rfl := links_unique hX hL
      exact ⟨_, hall, hfilter⟩
    · rintro ⟨Y, hY, rfl⟩
      rwa [links_unique hY hall, hfilter]

theorem Past.undisturbed (h : Past hook m g H) : Undisturbed hook m g := by
  rcases h with h | ⟨rfl, h⟩
  · refine ⟨h.toSame, fun hacc => ?_⟩
    have hctl := h.ctl
    rcases h.point with hc | ⟨hc, -⟩ | hc <;> rw [hc] at hctl <;>
      simp [accessible, userCode, hctl] at hacc
  · refine ⟨h.toSame, fun _ L => ?_⟩
    have hcurrent : m.current = .null ∧ g.current = .null := by
      simp only [current, h.stack, h.stopped.2, h.top, and_self]
    rw [hcurrent.1, hcurrent.2]
    constructor
    · exact fun hL => absurd rfl (links_ne_null hL)
    · rintro ⟨X, hX, -⟩
      exact absurd rfl (links_ne_null hX)

end Machine

end Jinx.Await
