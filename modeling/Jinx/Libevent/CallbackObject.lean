import Jinx.Libevent.EventHandle

/-! The object whose callback runs: `callback` has a reference to it, and looks at its `_state` after
    `_callback` has returned. -/

namespace Jinx.Libevent.Engine
open Jinx Function

variable {H κ : Type*} [DecidableEq H] {s s' : Engine H κ} {h : H}

/-- The object whose callback has not returned is the one that lives in its handle. -/
def Alive {H κ : Type*} (s : Engine H κ) : Prop :=
  ∀ frame, s.frame = some frame → (s.handle frame.1).empty = false ∧ s.built frame.1 = frame.2

/-- A callback does nothing with its own handle but remove it, and that at most once. -/
def Gentle (s : Engine H κ) : EngineOp H κ → Prop
  | .addIo _ h _ _ _ | .addTimer h _ _ | .addSignal h _ _ _ | .reset h => s.own h = false
  | .removeIo h | .removeTimer h | .removeSignal h =>
    s.own h = true → (s.handle h).memory.state = .running
  | .fire _ _ | .finish => True

instance (s : Engine H κ) : (op : EngineOp H κ) → Decidable (s.Gentle op)
  | .addIo _ h _ _ _ | .addTimer h _ _ | .addSignal h _ _ _ | .reset h =>
    inferInstanceAs (Decidable (s.own h = false))
  | .removeIo h | .removeTimer h | .removeSignal h =>
    inferInstanceAs (Decidable (s.own h = true → (s.handle h).memory.state = .running))
  | .fire _ _ | .finish => .isTrue trivial

/-- libevent has only events of objects that live. -/
structure Sound {H κ : Type*} (s : Engine H κ) : Prop where
  alive : s.Alive
  added : ∀ h, s.added h = true → (s.handle h).empty = false

theorem built_reset (s : Engine H κ) (h : H) : (s.reset h).built = s.built := by
  unfold reset
  split <;> rfl

/-- What is written into the memory does not tell whether an object lives there. -/
theorem empty_update (handle : H → EventHandle κ) (h : H) (data : EventData κ) (k : H) :
    (update handle h { handle h with memory := data } k).empty = (handle k).empty := by
  by_cases hk : k = h
  · subst hk
    rw [update_self]
  · rw [update_of_ne hk]

theorem own_iff : s.own h = true ↔ ∃ n, s.frame = some (h, n) := by
  unfold own
  constructor
  · intro hown
    obtain ⟨⟨k, n⟩, hframe, hk⟩ := (Option.any_eq_true _ _).mp hown
    exact ⟨n, by simpa [← of_decide_eq_true hk] using hframe⟩
  · rintro ⟨n, hframe⟩
    simp [hframe]

theorem own_eq_false {frame : H × Nat} (hown : s.own h = false) (hframe : s.frame = some frame) :
    frame.1 ≠ h := by
  rintro rfl
  exact Bool.false_ne_true (hown.symm.trans (own_iff.mpr ⟨frame.2, hframe⟩))

/-- What happens in another handle does not concern the object that is called. -/
theorem Alive.elsewhere (ha : s.Alive) (hs : Elsewhere s s' h) (hbuilt : ∀ k ≠ h, s'.built k = s.built k)
    (hown : s.own h = false) : s'.Alive := by
  intro frame hframe
  rw [hs.frame] at hframe
  have hne := own_eq_false hown hframe
  rw [hs.handle _ hne, hbuilt _ hne]
  exact ha frame hframe

theorem added_elsewhere (hadded : ∀ k, s.added k = true → (s.handle k).empty = false)
    (hs : Elsewhere s s' h) (hself : s'.added h = true → (s'.handle h).empty = false) (k : H)
    (hk : s'.added k = true) : (s'.handle k).empty = false := by
  by_cases heq : k = h
  · subst heq
    exact hself hk
  · rw [hs.handle k heq]
    exact hadded k (hs.added k heq ▸ hk)

theorem Sound.reset (hs : s.Sound) (hown : s.own h = false) : (s.reset h).Sound where
  alive := hs.alive.elsewhere (elsewhere_reset s h) (fun _ _ => by rw [built_reset]) hown
  added := added_elsewhere hs.added (elsewhere_reset s h) fun hadded => by
    rw [added_reset, Bool.and_eq_true] at hadded
    exact absurd hadded.2 (by simp [hs.added h hadded.1])

theorem Sound.add (hs : s.Sound) (hown : s.own h = false) (event : Event) (callback : κ)
    (accepted : Bool) : (s.add h event callback accepted).1.Sound where
  alive := hs.alive.elsewhere (elsewhere_add s h event callback accepted)
    (fun k hk => (update_of_ne hk ..).trans (congrFun (built_reset s h) k)) hown
  added := added_elsewhere hs.added (elsewhere_add s h event callback accepted) fun _ => by
    show (Function.update (s.reset h).handle h _ h).empty = false
    rw [update_self]

theorem Sound.setState (hs : s.Sound) (state : EventState) : (s.setState h state).Sound where
  alive frame hframe := by
    rw [Engine.setState, empty_update]
    exact hs.alive frame hframe
  added k hk := by
    rw [Engine.setState, empty_update]
    exact hs.added k hk

theorem Sound.removeIo (hs : s.Sound) (hown : s.own h = true → (s.handle h).memory.state = .running) :
    (s.removeIo h).1.Sound := by
  unfold Engine.removeIo
  split
  · exact hs.setState .deleted
  · next hstate => exact hs.reset (Bool.eq_false_iff.mpr fun h => hstate (hown h))

theorem Sound.removeTimer (hs : s.Sound)
    (hown : s.own h = true → (s.handle h).memory.state = .running) : (s.removeTimer h).1.Sound := by
  rw [removeTimer_fst]
  split
  · exact hs
  · exact hs.removeIo hown

theorem Sound.fire (hs : s.Sound) (hadded : s.added h = true) (flags : Nat) : (s.fire h flags).Sound := by
  rw [fire_eq]
  constructor
  · intro frame hframe
    rw [empty_update]
    obtain rfl := Option.some.inj hframe
    exact ⟨hs.added h hadded, rfl⟩
  · intro k hk
    rw [empty_update]
    by_cases heq : k = h
    · subst heq
      exact hs.added k hadded
    · exact hs.added k ((update_of_ne heq ..).symm.trans hk)

theorem Sound.finish (hs : s.Sound) {frame : H × Nat} (hframe : s.frame = some frame) :
    (s.finish frame.1).Sound := by
  constructor
  · intro frame' hframe'
    rw [finish_frame] at hframe'
    cases hframe'
  · intro k hk
    by_cases heq : k = frame.1
    · subst heq
      rw [finish_added, Bool.and_eq_true] at hk
      have halive := (hs.alive frame hframe).1
      rw [finish_handle, left]
      split
      · next hdeleted => simp [halive, hdeleted] at hk
      · exact halive
    · rw [(finish_other s heq).1]
      exact hs.added k ((finish_other s heq).2 ▸ hk)

theorem Sound.step (hs : s.Sound) {op : EngineOp H κ} (hg : s.Gentle op) (hstep : s.step op = some s') :
    s'.Sound := by
  cases op with
  | addIo flags h fd cb accepted =>
    obtain rfl := Option.some.inj hstep
    exact hs.add hg _ cb accepted
  | addTimer h cb accepted =>
    obtain rfl := Option.some.inj hstep
    exact hs.add hg _ cb accepted
  | addSignal h sig cb accepted =>
    obtain rfl := Option.some.inj hstep
    exact hs.add hg _ cb accepted
  | removeIo h =>
    obtain rfl := Option.some.inj hstep
    exact hs.removeIo hg
  | removeTimer h | removeSignal h =>
    obtain rfl := Option.some.inj hstep
    exact hs.removeTimer hg
  | reset h =>
    obtain rfl := Option.some.inj hstep
    exact hs.reset hg
  | fire h flags =>
    obtain ⟨⟨-, hadded⟩, hs'⟩ := Option.ite_none_right_eq_some.mp hstep
    obtain rfl := Option.some.inj hs'
    exact hs.fire hadded flags
  | finish =>
    obtain ⟨frame, hframe, rfl⟩ := Option.map_eq_some_iff.mp hstep
    exact hs.finish hframe

/-! ### Nothing else is safe -/

theorem not_alive_reset (hown : s.own h = true) : ¬ (s.reset h).Alive := by
  obtain ⟨n, hframe⟩ := own_iff.mp hown
  intro ha
  have halive := (ha (h, n) ((elsewhere_reset s h).frame.trans hframe)).1
  rw [handle_reset] at halive
  cases halive

theorem not_alive_add (hs : s.Sound) (hown : s.own h = true) (event : Event) (callback : κ)
    (accepted : Bool) : ¬ (s.add h event callback accepted).1.Alive := by
  obtain ⟨n, hframe⟩ := own_iff.mp hown
  intro ha
  have hbuilt := (ha (h, n) ((elsewhere_add s h event callback accepted).frame.trans hframe)).2
  have hnext : (s.add h event callback accepted).1.built h = s.built h + 1 :=
    (update_self ..).trans (congrArg (· + 1) (congrFun (built_reset s h) h))
  have hbefore := (hs.alive (h, n) hframe).2
  simp only at hbuilt hbefore
  omega

theorem not_alive_removeIo (hown : s.own h = true) (hstate : (s.handle h).memory.state ≠ .running) :
    ¬ (s.removeIo h).1.Alive := by
  unfold Engine.removeIo
  rw [if_neg hstate]
  exact not_alive_reset hown

theorem not_alive_removeTimer (hs : s.Sound) (hown : s.own h = true)
    (hstate : (s.handle h).memory.state ≠ .running) : ¬ (s.removeTimer h).1.Alive := by
  obtain ⟨n, hframe⟩ := own_iff.mp hown
  have halive : (s.handle h).empty = false := (hs.alive (h, n) hframe).1
  rw [removeTimer_fst, if_neg (by simp [halive])]
  exact not_alive_removeIo hown hstate

theorem not_alive_step (hs : s.Sound) {op : EngineOp H κ} (hg : ¬ s.Gentle op)
    (hstep : s.step op = some s') : ¬ s'.Alive := by
  cases op with
  | addIo flags h fd cb accepted =>
    obtain rfl := Option.some.inj hstep
    exact not_alive_add hs ((Bool.not_eq_false _).mp hg) _ cb accepted
  | addTimer h cb accepted =>
    obtain rfl := Option.some.inj hstep
    exact not_alive_add hs ((Bool.not_eq_false _).mp hg) _ cb accepted
  | addSignal h sig cb accepted =>
    obtain rfl := Option.some.inj hstep
    exact not_alive_add hs ((Bool.not_eq_false _).mp hg) _ cb accepted
  | removeIo h =>
    obtain rfl := Option.some.inj hstep
    obtain ⟨hown, hstate⟩ := Classical.not_imp.mp hg
    exact not_alive_removeIo hown hstate
  | removeTimer h | removeSignal h =>
    obtain rfl := Option.some.inj hstep
    obtain ⟨hown, hstate⟩ := Classical.not_imp.mp hg
    exact not_alive_removeTimer hs hown hstate
  | reset h =>
    obtain rfl := Option.some.inj hstep
    exact not_alive_reset ((Bool.not_eq_false _).mp hg)
  | fire h flags => exact absurd trivial hg
  | finish => exact absurd trivial hg

theorem sound_init {H κ : Type*} : ({} : Engine H κ).Sound where
  alive _ hframe := by cases hframe
  added _ hadded := by cases hadded

/-- An object lives as long as its callback runs, in every state of a run, if and only if no callback
    does more with its own handle than remove it once. -/
theorem alive_iff_gentle {ops : List (EngineOp H κ)} (hrun : exec ({} : Engine H κ) ops = some s) :
    Runs.Always step Alive ({} : Engine H κ) ops ↔ Runs.Meets step Gentle ({} : Engine H κ) ops :=
  Runs.always_iff_meets (fun _ _ _ hs hg hstep => Sound.step hs hg hstep) (fun _ hs => hs.alive)
    (fun _ _ _ hs hg hstep => not_alive_step hs hg hstep) ops {} s hrun sound_init

/-- A callback that removes its handle once, and does what it likes with another one. -/
theorem alive_iff_gentle_removed :
    Runs.Always step Alive ({} : Engine Bool Nat)
      [.addTimer true 7 true, .fire true EV_TIMEOUT, .removeTimer true, .addTimer false 8 true,
        .reset false, .finish] := by
  have hrun : ∃ s, exec ({} : Engine Bool Nat)
      [.addTimer true 7 true, .fire true EV_TIMEOUT, .removeTimer true, .addTimer false 8 true,
        .reset false, .finish] = some s := ⟨_, rfl⟩
  obtain ⟨s, hrun⟩ := hrun
  exact (alive_iff_gentle hrun).mpr (by decide)

end Jinx.Libevent.Engine
