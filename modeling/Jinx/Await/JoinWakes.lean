import Jinx.Await.JoinChain

/-! What `AsyncJoin` does for those who join.

    Every target is followed by the one that nobody has joined, which takes the labels of the target
    and knows of no hook. An `AsyncJoin` that was not used yet is linked to its target until its hook
    is run, and is done from then on. -/

namespace Jinx.Await

open LinkedList
open Jinx.Sync (Stage)

/-- The label, where it is one of the target `t`. -/
def JoinLabel.ofTarget (t : TargetId) : JoinLabel → Option Label
  | .target u l => if u = t then some l else none
  | _ => none

/-- The `AsyncJoin` after its hook was run. -/
def AsyncJoin.woken (a : AsyncJoin) : AsyncJoin :=
  { ({ a with done := true, next := .null } : AsyncJoin).wake with observer := false }

namespace Joins

variable {hook : ObjId → Bool} {s s' : Joins} {g : TargetId → Machine} {H : TargetId → List ObjId}
  {t u : TargetId} {j k r p : ObjId} {a b : AsyncJoin} {L X : List ObjId}

/-- An `AsyncJoin` is used once, on a target that has frames and whose entry is next to the task or
    to the hooks; the joiner is resumed by the hook alone; and the targets are `Steady`. -/
def Proper (hook : ObjId → Bool) (s : Joins) : JoinLabel → Prop
  | .target t l => (s.machine t).Steady hook l
  | .await j t => (s.join j).done = false ∧ (s.join j).next = .null ∧ (s.machine t).joinable = true
  | .resume j => (s.join j).stage ≠ .suspended
  | .hook _ | .run _ | .cancel _ => True

instance Proper.decidable (hook : ObjId → Bool) (s : Joins) : ∀ l : JoinLabel,
    Decidable (Proper hook s l)
  | .target t l => inferInstanceAs (Decidable ((s.machine t).Steady hook l))
  | .await _ _ => inferInstanceAs (Decidable (_ ∧ _ ∧ _))
  | .resume j => inferInstanceAs (Decidable ((s.join j).stage ≠ .suspended))
  | .hook _ | .run _ | .cancel _ => .isTrue trivial

/-! ### What the member functions do -/

theorem await_eq (hdone : (s.join j).done = false) :
    s.await j t =
      { machine := Function.update s.machine t ((s.machine t).addHook j)
        join := Function.update s.join j
          ⟨t, false, true, (s.machine t).entry, .suspended, 0⟩ } := by
  simp [await, asyncPoll, modify, hdone, addHook, setMachine]

/-- The hook `j` is the first one of `t`, before the others `X` and behind the awaitable `r`. -/
structure FirstHook (s : Joins) (t : TargetId) (j r : ObjId) (X : List ObjId) : Prop where
  next : (s.join j).next = .obj r
  observer : (s.join j).observer = true
  ne : r ≠ j
  caller : ((s.machine t).obj j).caller = Machine.firstPtr X
  notMem : j ∉ X

theorem removeHook_task (hnext : (s.join j).next = .obj r) (hrj : r ≠ j)
    (hcaller : ((s.machine t).obj j).caller = .task) :
    s.removeHook t j =
      { machine := Function.update s.machine t
          { (s.machine t).set r fun o => { o with caller := .task } with entry := .obj r }
        join := Function.update s.join j { s.join j with next := .null } } := by
  simp [removeHook, hnext, Machine.setCaller, Machine.set_obj, hrj.symm, hcaller, modify, setMachine]

theorem removeHook_obj (hnext : (s.join j).next = .obj r) (hrj : r ≠ j) (hpj : p ≠ j)
    (hcaller : ((s.machine t).obj j).caller = .obj p) :
    s.removeHook t j =
      { machine := Function.update s.machine t
          ((s.machine t).set r fun o => { o with caller := .obj p })
        join := Function.update (Function.update s.join p { s.join p with next := .obj r }) j
          { s.join j with next := .null } } := by
  simp [removeHook, hnext, Machine.setCaller, Machine.set_obj, hrj.symm, hcaller, modify, setMachine, hpj.symm]

/-- The first hook is taken out, the next one is linked to the frame. -/
theorem resumeHook_join (h : s.FirstHook t j r X) :
    (s.resumeHook t j).join = fun k => if k = j then (s.join j).woken
      else if X.head? = some k then { s.join k with next := .obj r } else s.join k := by
  have hnext' : ((s.modify j fun a => { a with done := true }).join j).next = .obj r := by
    simpa [modify] using h.next
  funext k
  simp only [resumeHook]
  cases X with
  | nil =>
    rw [removeHook_task hnext' h.ne h.caller]
    by_cases hkj : k = j
    · simp [modify, h.observer, hkj, AsyncJoin.woken]
    · simp [modify, h.observer, hkj]
  | cons p X =>
    have hpj : p ≠ j := fun hc => h.notMem (by simp [hc])
    rw [removeHook_obj hnext' h.ne hpj h.caller]
    by_cases hkj : k = j
    · simp [modify, h.observer, hkj, AsyncJoin.woken]
    · by_cases hkp : k = p
      · simp [modify, h.observer, hkp, hpj]
      · simp [modify, h.observer, hkj, hkp, Ne.symm hkp]

theorem resumeHook_machine (h : s.FirstHook t j r X) :
    (s.resumeHook t j).machine = Function.update s.machine t
      { (s.machine t).set r fun o => { o with caller := Machine.firstPtr X } with
        entry := if X = [] then .obj r else (s.machine t).entry } := by
  have hnext' : ((s.modify j fun a => { a with done := true }).join j).next = .obj r := by
    simpa [modify] using h.next
  simp only [resumeHook]
  cases X with
  | nil =>
    rw [removeHook_task hnext' h.ne h.caller]
    simp [modify, h.observer, Machine.firstPtr]
  | cons p X =>
    have hpj : p ≠ j := fun hc => h.notMem (by simp [hc])
    rw [removeHook_obj hnext' h.ne hpj h.caller]
    simp [modify, h.observer, Machine.firstPtr]
    rfl

theorem runHook_join (h : s.FirstHook t j r X) :
    (s.runHook t j).join = fun k => if k = j then (s.join j).woken
      else if X.head? = some k then { s.join k with next := .obj r } else s.join k := by
  funext k
  simp only [runHook, finalizeHook, setMachine, modify, resumeHook_join h]
  by_cases hkj : k = j
  · simp [hkj, AsyncJoin.woken]
  · simp [hkj]

theorem runHook_machine (h : s.FirstHook t j r X) (hr : r ∉ X) :
    (s.runHook t j).machine = Function.update s.machine t ((s.machine t).dropHook j r) := by
  simp only [runHook, finalizeHook, setMachine, modify, resumeHook_machine h]
  simp only [Function.update_self, Function.update_idem]
  rw [Machine.set_obj_ne _ _ h.ne.symm, h.caller, Machine.dropHook_eq h.ne h.caller h.notMem hr rfl]

/-! ### What a run keeps -/

/-- The life of an `AsyncJoin`: it is not used yet, linked to its target, or its hook was run.
    `linked t` says that its hook is one of `t`, `past t` that the frames of `t` are gone. -/
inductive Use (a : AsyncJoin) (linked past : TargetId → Prop) : Prop
  | fresh (done : a.done = false) (next : a.next = .null) (stage : a.stage = .idle)
      (free : ∀ t, ¬ linked t)
  | waiting (done : a.done = false) (observer : a.observer = true)
      (hung : ∀ t, linked t ↔ t = a.target)
      (stage : a.stage = .suspended ∧ a.wakes = 0 ∨ a.stage = .idle)
  | finished (done : a.done = true) (free : ∀ t, ¬ linked t) (stage : a.stage ≠ .suspended)
      (wakes : a.stage ≠ .idle → a.wakes = 1 ∧ past a.target)

theorem Use.mono {linked past linked' past' : TargetId → Prop} (h : Use a linked past)
    (hlinked : ∀ t, linked' t ↔ linked t) (hpast : past a.target → past' a.target) :
    Use a linked' past' := by
  cases h with
  | fresh done next stage free =>
    exact .fresh done next stage fun t ht => free t ((hlinked t).mp ht)
  | waiting done observer hung stage =>
    exact .waiting done observer (fun t => (hlinked t).trans (hung t)) stage
  | finished done free stage wakes =>
    exact .finished done (fun t ht => free t ((hlinked t).mp ht)) stage fun hst => (wakes hst).imp_right hpast

/-- `g` are the targets that nobody has joined, `H` the hooks that are linked. -/
structure Inv (hook : ObjId → Bool) (s : Joins) (g : TargetId → Machine) (H : TargetId → List ObjId) :
    Prop where
  phase : ∀ t, (s.machine t).Alive hook (g t) (H t) ∨ (s.machine t).Past hook (g t) (H t)
  clean : ∀ t, (g t).Unhooked hook
  hung : ∀ t, (s.machine t).Hung hook (fun j => (s.join j).next) (H t)
  use : ∀ j, Use (s.join j) (fun t => j ∈ H t) fun t => (s.machine t).Past hook (g t) (H t)

theorem Inv.init (hook : ObjId → Bool) (pausable : TargetId → ObjId → Bool) :
    (Joins.init pausable).Inv hook (fun t => .init (pausable t)) fun _ => [] where
  phase t := .inl (.free rfl (.inl (.init (pausable t))))
  clean _ _ _ := rfl
  hung _ := .nil hook _ _
  use _ := .fresh rfl rfl rfl fun _ => List.not_mem_nil

/-- A target does a step by itself. -/
theorem Inv.target {l : Label} {m : Machine} (h : s.Inv hook g H) (hl : (s.machine t).Steady hook l)
    (hown : (s.machine t).own hook l = true) (hm : (s.machine t).step l = some m) :
    ∃ x, (g t).step l = some x ∧ (s.setMachine t m).Inv hook (Function.update g t x) H := by
  obtain ⟨x, hx, hhung, hphase, hpast⟩ : ∃ x, (g t).step l = some x ∧
      m.Hung hook (fun j => (s.join j).next) (H t) ∧ (m.Alive hook x (H t) ∨ m.Past hook x (H t)) ∧
        ((s.machine t).Past hook (g t) (H t) → m.Past hook x (H t)) := by
    by_cases hpast : (s.machine t).Past hook (g t) (H t)
    · obtain ⟨x, hx, hhung, hpast'⟩ := hpast.step (h.hung t) hl hown hm
      exact ⟨x, hx, hhung, .inr hpast', fun _ => hpast'⟩
    · obtain ⟨x, hx, hhung, hphase⟩ :=
        ((h.phase t).resolve_right hpast).step (h.clean t) (h.hung t) hl hown hm
      exact ⟨x, hx, hhung, hphase, fun hc => absurd hc hpast⟩
  refine ⟨x, hx, ?_, ?_, ?_, ?_⟩
  · intro u
    by_cases hut : u = t
    · subst hut
      simpa [setMachine] using hphase
    · simpa [setMachine, hut] using h.phase u
  · intro u
    by_cases hut : u = t
    · subst hut
      simpa using (h.clean u).step hown hx
    · simpa [hut] using h.clean u
  · intro u
    by_cases hut : u = t
    · subst hut
      simpa [setMachine] using hhung
    · simpa [setMachine, hut] using h.hung u
  · intro j
    refine (h.use j).mono (fun u => Iff.rfl) fun hold => ?_
    by_cases hut : (s.join j).target = t
    · simpa [setMachine, hut] using hpast (hut ▸ hold)
    · simpa [setMachine, hut] using hold

/-- The record of one `AsyncJoin` is changed, and its hook is not. -/
theorem Inv.modify {f : AsyncJoin → AsyncJoin} (h : s.Inv hook g H)
    (hnext : (f (s.join j)).next = (s.join j).next)
    (huse : Use (f (s.join j)) (fun t => j ∈ H t) fun t => (s.machine t).Past hook (g t) (H t)) :
    (s.modify j f).Inv hook g H where
  phase := h.phase
  clean := h.clean
  hung t := (h.hung t).congr_next fun k _ => by
    by_cases hkj : k = j
    · subst hkj
      simpa [Joins.modify] using hnext
    · simp [Joins.modify, hkj]
  use k := by
    by_cases hkj : k = j
    · subst hkj
      simpa [Joins.modify] using huse
    · simpa [Joins.modify, hkj] using h.use k

theorem Inv.run (h : s.Inv hook g H) (hstage : (s.join j).stage = .scheduled) :
    (s.asyncPoll j).Inv hook g H := by
  rcases h.use j with ⟨-, -, hst, -⟩ | ⟨-, -, -, hst⟩ | ⟨hdone, hfree, -, hwakes⟩
  · simp [hstage] at hst
  · simp [hstage] at hst
  · rw [asyncPoll, if_pos hdone]
    exact h.modify rfl (.finished hdone hfree (by simp) fun _ => hwakes (by simp [hstage]))

theorem Inv.cancel (h : s.Inv hook g H) :
    (s.modify j fun a => { a with stage := .idle }).Inv hook g H := by
  refine h.modify rfl ?_
  rcases h.use j with ⟨hdone, hnext, hst, hfree⟩ | ⟨hdone, hobs, hhung, -⟩ | ⟨hdone, hfree, -, -⟩
  · exact .fresh hdone hnext rfl hfree
  · exact .waiting hdone hobs hhung (.inr rfl)
  · exact .finished hdone hfree (by simp) (by simp)

/-- The joiner is not suspended, and stays as it is. -/
theorem Inv.resume (h : s.Inv hook g H) (hstage : (s.join j).stage ≠ .suspended) :
    (s.resume j).Inv hook g H := by
  have hsame : (s.join j).stage.resume = (s.join j).stage := by
    cases hst : (s.join j).stage <;> first | rfl | exact absurd hst hstage
  refine h.modify rfl ?_
  simp only [hsame]
  exact h.use j

/-- A task that has not used its `AsyncJoin` awaits it. -/
theorem Inv.await (h : s.Inv hook g H) (hj : hook j = true) (hdone : (s.join j).done = false)
    (hnext : (s.join j).next = .null) (hjoin : (s.machine t).joinable = true)
    (hacc : (s.machine t).accessible = true) :
    (s.await j t).Inv hook g (Function.update H t (H t ++ [j])) := by
  have hfree : ∀ u, j ∉ H u := fun u hu => (h.hung u).next_ne j hu hnext
  have hpast : ¬ (s.machine t).Past hook (g t) (H t) := fun hc => by
    obtain ⟨i, r, htop, -⟩ := Machine.joinable_iff.mp hjoin
    exact hc.not_joined htop hacc
  obtain ⟨halive, hhung⟩ := ((h.phase t).resolve_right hpast).addHook (h.clean t) (h.hung t) hj
    (hfree t) hjoin hacc
  rw [await_eq hdone]
  refine ⟨fun u => ?_, h.clean, fun u => ?_, fun k => ?_⟩
  · by_cases hut : u = t
    · subst hut
      simpa using .inl halive
    · simpa [hut] using h.phase u
  · by_cases hut : u = t
    · subst hut
      simp only [Function.update_self]
      refine hhung.congr_next fun k hk => ?_
      by_cases hkj : k = j
      · subst hkj
        simp
      · simp [hkj]
    · simp only [Function.update_of_ne hut]
      refine (h.hung u).congr_next fun k hk => ?_
      have hkj : k ≠ j := fun hc => hfree u (hc ▸ hk)
      simp [hkj]
  · by_cases hkj : k = j
    · subst hkj
      simp only [Function.update_self]
      refine .waiting rfl rfl (fun u => ?_) (.inl ⟨rfl, rfl⟩)
      by_cases hut : u = t
      · simp [hut]
      · simp [hut, hfree u]
    · simp only [Function.update_of_ne hkj]
      refine (h.use k).mono (fun u => ?_) fun hold => ?_
      · by_cases hut : u = t
        · simp [hut, hkj]
        · simp [hut]
      · have hut : (s.join k).target ≠ t := fun hc => hpast (hc ▸ hold)
        simpa [hut] using hold

/-- A hook that is linked is linked to one target. -/
theorem Inv.waiting (h : s.Inv hook g H) (hj : j ∈ H t) :
    (s.join j).done = false ∧ (s.join j).observer = true ∧ (∀ u, j ∈ H u ↔ u = (s.join j).target) ∧
      ((s.join j).stage = .suspended ∧ (s.join j).wakes = 0 ∨ (s.join j).stage = .idle) := by
  rcases h.use j with ⟨-, -, -, hfree⟩ | ⟨hdone, hobs, hhung, hst⟩ | ⟨-, hfree, -, -⟩
  · exact absurd hj (hfree t)
  · exact ⟨hdone, hobs, hhung, hst⟩
  · exact absurd hj (hfree t)

theorem Inv.hooked (h : s.Inv hook g H) (hj : j ∈ H t) (hu : j ∈ H u) : u = t := by
  obtain ⟨-, -, hhung, -⟩ := h.waiting hj
  rw [(hhung u).mp hu, (hhung t).mp hj]

theorem woken_over {linked past : TargetId → Prop} (hfree : ∀ t, ¬ linked t) (hpast : past a.target)
    (hst : a.stage = .suspended ∧ a.wakes = 0 ∨ a.stage = .idle) : Use a.woken linked past := by
  rcases hst with ⟨hst, hwakes⟩ | hst
  · refine .finished rfl hfree ?_ fun _ => ⟨?_, hpast⟩
    · simp [AsyncJoin.woken, AsyncJoin.wake, hst, Stage.resume]
    · simp [AsyncJoin.woken, AsyncJoin.wake, hst, hwakes]
  · refine .finished rfl hfree ?_ fun hne => absurd ?_ hne
    · simp [AsyncJoin.woken, AsyncJoin.wake, hst, Stage.resume]
    · simp [AsyncJoin.woken, AsyncJoin.wake, hst, Stage.resume]

/-- The first hook of a target is run. -/
theorem Inv.runHook (h : s.Inv hook g H) (hctl : (s.machine t).ctl = .running)
    (htop : (s.machine t).top = .obj j) (hj : hook j = true) :
    ∃ X, H t = j :: X ∧ (s.runHook t j).Inv hook g (Function.update H t X) := by
  have hhanded : (s.machine t).Handed hook (g t) (H t) := by
    rcases h.phase t with halive | hhanded | ⟨-, hover⟩
    · simp [halive.top_frame (h.clean t) (.inl hctl) htop] at hj
    · exact hhanded
    · simp [hover.top.1] at htop
  obtain ⟨X, hX⟩ : ∃ X, H t = j :: X := by
    have hfirst := hhanded.top.symm.trans htop
    cases hH : H t with
    | nil => simp [hH, Machine.firstPtr] at hfirst
    | cons k X =>
      obtain rfl : k = j := by simpa [hH, Machine.firstPtr] using hfirst
      exact ⟨X, rfl⟩
  refine ⟨X, hX, ?_⟩
  have hjH : j ∈ H t := hX ▸ List.mem_cons_self
  have hhung := h.hung t
  rw [hX] at hhung hhanded
  obtain ⟨r, hnext, hr⟩ := hhung.first j rfl
  obtain ⟨-, hobs, -, hst⟩ := h.waiting hjH
  have htarget := h.waiting hjH |>.2.2.1
  have hjX := (List.nodup_cons.mp hhung.nodup).1
  have hrj : r ≠ j := fun hc => by simp [hc, hj] at hr
  have hrX : r ∉ X := fun hc => by simp [hhung.hooks r (List.mem_cons_of_mem j hc)] at hr
  have hfirst : s.FirstHook t j r X := ⟨hnext, hobs, hrj, hhung.caller, hjX⟩
  have hmachine := runHook_machine hfirst hrX
  have hjoin := runHook_join hfirst
  have hhead : ∀ {u k}, k ∈ H u → u ≠ t → X.head? ≠ some k := fun hk hu hc =>
    hu (h.hooked (by rw [hX]; exact List.mem_cons_of_mem j (List.mem_of_head? hc)) hk)
  have hpast : ((s.machine t).dropHook j r).Past hook (g t) X := .inl (hhanded.drop hhung hctl hr)
  refine ⟨fun u => ?_, h.clean, fun u => ?_, fun k => ?_⟩
  · rw [hmachine]
    by_cases hut : u = t
    · subst hut
      simpa using .inr hpast
    · simpa [hut] using h.phase u
  · rw [hmachine, hjoin]
    by_cases hut : u = t
    · subst hut
      simp only [Function.update_self]
      refine hhung.dropHook hr fun k hk => ?_
      have hkj : k ≠ j := fun hc => hjX (hc ▸ hk)
      rw [if_neg hkj]
      split <;> rfl
    · simp only [Function.update_of_ne hut]
      refine (h.hung u).congr_next fun k hk => ?_
      have hkj : k ≠ j := fun hc => hut (h.hooked hjH (hc ▸ hk))
      rw [if_neg hkj, if_neg (hhead hk hut)]
  · rw [hjoin, hmachine]
    by_cases hkj : k = j
    · subst hkj
      simp only [if_true]
      refine woken_over (fun u hu => ?_) ?_ hst
      · by_cases hut : u = t
        · subst hut
          exact hjX (by simpa using hu)
        · exact hut (h.hooked hjH (by simpa [hut] using hu))
      · rw [← (htarget t).mp hjH]
        simpa using hpast
    · simp only [if_neg hkj]
      have hlinked : ∀ u, k ∈ Function.update H t X u ↔ k ∈ H u := fun u => by
        by_cases hut : u = t
        · subst hut
          simp [hX, hkj]
        · simp [hut]
      by_cases hk : X.head? = some k
      · rw [if_pos hk]
        have hkH : k ∈ H t := hX ▸ List.mem_cons_of_mem j (List.mem_of_head? hk)
        obtain ⟨hdone, hobs, hhung, hst⟩ := h.waiting hkH
        exact .waiting hdone hobs (fun u => (hlinked u).trans (hhung u)) hst
      · rw [if_neg hk]
        refine (h.use k).mono hlinked fun hold => ?_
        by_cases hut : (s.join k).target = t
        · simpa [hut] using hpast
        · simpa [hut] using hold

theorem exec_ofTarget {l : Label} {x : Machine} (hx : (g t).step l = some x) (u : TargetId) :
    (g u).exec ([.target t l].filterMap (JoinLabel.ofTarget u)) = some (Function.update g t x u) := by
  by_cases hut : t = u
  · subst hut
    simp [JoinLabel.ofTarget, Machine.exec, Runs.exec, hx]
  · simp [JoinLabel.ofTarget, hut, Ne.symm hut]

theorem Inv.step {l : JoinLabel} (h : s.Inv hook g H) (hl : Proper hook s l)
    (hs : step hook s l = some s') :
    ∃ g' H', s'.Inv hook g' H' ∧
      ∀ u, (g u).exec ([l].filterMap (JoinLabel.ofTarget u)) = some (g' u) := by
  cases l with
  | target t l =>
    simp only [Joins.step, Option.ite_none_right_eq_some, Option.map_eq_some_iff] at hs
    obtain ⟨hown, m, hm, rfl⟩ := hs
    obtain ⟨x, hx, hinv⟩ := h.target hl hown hm
    exact ⟨_, H, hinv, exec_ofTarget hx⟩
  | hook t =>
    simp only [Joins.step] at hs
    split at hs
    · rename_i j hctl htop
      simp only [Option.ite_none_right_eq_some, Option.some.injEq] at hs
      obtain ⟨hj, rfl⟩ := hs
      obtain ⟨X, -, hinv⟩ := h.runHook hctl htop hj
      exact ⟨g, _, hinv, fun _ => rfl⟩
    · rename_i j hctl htop
      simp only [Option.ite_none_right_eq_some, Option.some.injEq] at hs
      obtain ⟨hj, -⟩ := hs
      rcases h.phase t with halive | hpast
      · simp [halive.top_frame (h.clean t) (.inr hctl) htop] at hj
      · exact absurd hctl hpast.not_cancelling
    · cases hs
  | await j t =>
    simp only [Joins.step, Option.ite_none_right_eq_some, Option.some.injEq] at hs
    obtain ⟨⟨hj, -, hacc⟩, rfl⟩ := hs
    obtain ⟨hdone, hnext, hjoin⟩ := hl
    exact ⟨g, _, h.await hj hdone hnext hjoin hacc, fun _ => rfl⟩
  | resume j =>
    cases hs
    exact ⟨g, H, h.resume hl, fun _ => rfl⟩
  | run j =>
    simp only [Joins.step, Option.ite_none_right_eq_some, Option.some.injEq] at hs
    obtain ⟨⟨hst, -⟩, rfl⟩ := hs
    exact ⟨g, H, h.run hst, fun _ => rfl⟩
  | cancel j =>
    simp only [Joins.step, Option.ite_none_right_eq_some, Option.some.injEq] at hs
    obtain ⟨-, rfl⟩ := hs
    exact ⟨g, H, h.cancel, fun _ => rfl⟩

/-- The targets that nobody has joined do what the targets do. -/
theorem Inv.exec (h : s.Inv hook g H) {as : List JoinLabel}
    (hproper : Runs.Meets (Joins.step hook) (Proper hook) s as) (hrun : Joins.exec hook s as = some s') :
    ∃ g' H', s'.Inv hook g' H' ∧
      ∀ u, (g u).exec (as.filterMap (JoinLabel.ofTarget u)) = some (g' u) := by
  induction as generalizing s g H with
  | nil =>
    obtain rfl : s = s' := by simpa using hrun
    exact ⟨g, H, h, fun _ => rfl⟩
  | cons l as ih =>
    obtain ⟨m, hm, hms⟩ := Runs.exec_cons.mp hrun
    obtain ⟨g₁, H₁, hinv, hstep⟩ := h.step hproper.1 hm
    obtain ⟨g', H', hinv', hrest⟩ := ih hinv (hproper.2 m hm) hms
    refine ⟨g', H', hinv', fun u => ?_⟩
    have hsplit : (l :: as).filterMap (JoinLabel.ofTarget u) =
        [l].filterMap (JoinLabel.ofTarget u) ++ as.filterMap (JoinLabel.ofTarget u) :=
      List.filterMap_append (l := [l])
    rw [hsplit]
    exact Runs.exec_trans (hstep u) (hrest u)

/-! ### The joiners -/

/-- A joiner stays suspended as long as the target has a frame, and no longer when `Task::run` has
    returned; it is scheduled once, when the target has no frame any more. -/
structure Woken (hook : ObjId → Bool) (s : Joins) (j : ObjId) : Prop where
  waits : (s.join j).stage = .suspended → (s.join j).wakes = 0 ∧
    ∃ f, (s.machine (s.join j).target).top = .obj f ∧
      ((s.machine (s.join j).target).ctl = .stopped → hook f = false)
  woken : (s.join j).stage = .scheduled ∨ (s.join j).stage = .returned → (s.join j).wakes = 1 ∧
    (s.machine (s.join j).target).userCode = false ∧
      ∀ f, (s.machine (s.join j).target).top = .obj f → hook f = true

theorem Inv.woken (h : s.Inv hook g H) (j : ObjId) : Woken hook s j := by
  rcases h.use j with ⟨-, -, hst, -⟩ | ⟨-, -, hhung, hst⟩ | ⟨-, -, hst, hwakes⟩
  · exact ⟨by simp [hst], by simp [hst]⟩
  · refine ⟨fun hsus => ?_, fun hsch => ?_⟩
    · obtain ⟨-, hwakes⟩ := hst.resolve_right (by simp [hsus])
      have hj : j ∈ H (s.join j).target := (hhung _).mpr rfl
      refine ⟨hwakes, ?_⟩
      rcases h.phase (s.join j).target with halive | hpast
      · exact halive.top_of_hook (h.clean _) hj
      · exact hpast.top_of_hook hj
    · rcases hst with ⟨hst, -⟩ | hst <;> simp [hst] at hsch
  · refine ⟨fun hsus => absurd hsus hst, fun hsch => ?_⟩
    obtain ⟨hwakes, hpast⟩ := hwakes (by rcases hsch with hsch | hsch <;> simp [hsch])
    exact ⟨hwakes, hpast.no_frame (h.hung _)⟩

/-- Joining wakes every joiner once the target has ended, and does not disturb the target. -/
theorem join_wakes (hook : ObjId → Bool) (pausable : TargetId → ObjId → Bool) (as : List JoinLabel)
    (hrun : exec hook (init pausable) as = some s)
    (hproper : Runs.Meets (step hook) (Proper hook) (init pausable) as) :
    (∀ j, Woken hook s j) ∧
      ∀ t, ∃ g, (Machine.init (pausable t)).exec (as.filterMap (JoinLabel.ofTarget t)) = some g ∧
        Machine.Undisturbed hook (s.machine t) g := by
  obtain ⟨g, H, hinv, hexec⟩ := (Inv.init hook pausable).exec hproper hrun
  refine ⟨hinv.woken, fun t => ⟨g t, hexec t, ?_⟩⟩
  rcases hinv.phase t with halive | hpast
  · exact halive.undisturbed (hinv.clean t) (hinv.hung t)
  · exact hpast.undisturbed

/-- The frame `0` is joined before it runs and again while it is suspended, and ends with an
    error. -/
theorem join_wakes_twice :
    let hook := fun j => decide (8 ≤ j)
    let as : List JoinLabel := [.target 0 (.spawn 0), .await 8 0, .target 0 .run, .target 0 .tick,
      .target 0 .tick, .target 0 (.act .suspend), .target 0 .tick, .await 9 0,
      .target 0 (.resume {}), .target 0 .run, .target 0 .tick, .target 0 .tick,
      .target 0 (.act (.throw (makeError .cxxException))), .target 0 .tick, .target 0 .tick,
      .target 0 (.act .propagate), .target 0 .tick, .hook 0, .hook 0, .target 0 .tick, .run 8]
    ∃ s, exec hook (init fun _ _ => false) as = some s ∧ (s.join 8).stage = .returned ∧
      (s.join 9).stage = .scheduled ∧ (∀ j, Woken hook s j) ∧
      ∀ t, ∃ g, (Machine.init fun _ => false).exec (as.filterMap (JoinLabel.ofTarget t)) = some g ∧
        Machine.Undisturbed hook (s.machine t) g :=
  ⟨_, rfl, rfl, rfl, join_wakes _ (fun _ _ => false) _ rfl (by decide)⟩

/-- A target is cancelled: it exits, and the one who joins it stays suspended. A used `AsyncJoin`
    returns at once. One that joins a task that has exited is never woken. One that joins while the
    awaitable `1` is paused between the entry and the task takes it out of the chain. -/
theorem join_strands :
    let hook := fun j => decide (8 ≤ j)
    let begin : List JoinLabel := [.target 0 (.spawn 0), .target 0 .run, .target 0 .tick, .target 0 .tick]
    (∃ s, exec hook (init fun _ _ => false) (begin ++ [.target 0 (.act .suspend), .target 0 .tick,
        .await 8 0, .target 0 .cancel, .target 0 .tick, .hook 0, .target 0 .tick]) = some s ∧
      (s.machine 0).state = .exited ∧ (s.join 8).stage = .suspended ∧ ¬ Woken hook s 8) ∧
    (∃ s, exec hook (init fun _ _ => false) ([.target 0 (.spawn 0), .await 8 0] ++ begin.tail ++
        [.target 0 (.act .ret), .target 0 .tick, .hook 0, .target 0 .tick, .run 8,
          .target 1 (.spawn 1), .await 8 1]) = some s ∧
      (s.machine 1).top = .obj 1 ∧ (s.join 8).stage = .returned ∧ ¬ Woken hook s 8) ∧
    (∃ s, exec hook (init fun _ _ => false) (begin ++ [.target 0 (.act .ret), .target 0 .tick,
        .target 0 .tick, .await 8 0]) = some s ∧
      (s.machine 0).state = .exited ∧ (s.join 8).stage = .suspended ∧ ¬ Woken hook s 8) ∧
    ∃ s, exec hook (init fun _ i => i = 1) (begin ++ [.target 0 (.act (.call 1)), .target 0 .tick,
        .target 0 (.act .pause), .target 0 .tick, .target 0 .tick, .target 0 .tick,
        .target 0 (.act .suspend), .target 0 .tick, .await 8 0]) = some s ∧
      ((s.machine 0).obj 1).isPaused = true ∧
      Links (s.machine 0).callers .obj .task (s.machine 0).current [0, 8] := by
  refine ⟨⟨_, rfl, rfl, rfl, fun h => ?_⟩, ⟨_, rfl, rfl, rfl, fun h => ?_⟩, ⟨_, rfl, rfl, rfl, fun h => ?_⟩,
    _, rfl, rfl, rfl, rfl, rfl⟩
  · obtain ⟨-, f, hf, -⟩ := h.waits rfl
    cases hf
  · obtain ⟨hwakes, -⟩ := h.woken (.inr rfl)
    cases hwakes
  · obtain ⟨-, f, hf, -⟩ := h.waits rfl
    cases hf

end Joins

end Jinx.Await
