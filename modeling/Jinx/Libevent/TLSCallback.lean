import Jinx.Libevent.Waiting

/-! The assertion of `AsyncTLS::callback`: that the task of the awaitable could be resumed. -/

namespace Jinx.Libevent.Waiting
open Jinx Function

variable {O U : Type*} {kind : O → Kind} {s s' : Waiting O U} {o : O} {u : U}

/-- Where nobody else resumes its task, `AsyncTLS` has an event only while the task is suspended. -/
structure Exclusive {O U : Type*} (kind : O → Kind) (s : Waiting O U) : Prop where
  inv : Inv s
  asserted : s.asserted = false
  waits : ∀ o, kind o = .tls → s.engine.added (.inl o) = true → (s.operation o).stage = .suspended ∧
    (s.engine.handle (.inl o)).memory.event.persists = false

theorem Exclusive.frame (hs : Exclusive kind s) (hinv : Inv s') (hasserted : s'.asserted = s.asserted)
    (hsame : ∀ o, kind o = .tls → s'.operation o = s.operation o ∧
      s'.engine.handle (.inl o) = s.engine.handle (.inl o) ∧
      s'.engine.added (.inl o) = s.engine.added (.inl o)) : Exclusive kind s' where
  inv := hinv
  asserted := hasserted.trans hs.asserted
  waits o hkind hadded := by
    obtain ⟨hop, hhandle, hadd⟩ := hsame o hkind
    rw [hop, hhandle]
    exact hs.waits o hkind (hadd.symm.trans hadded)

theorem Polled.exclusive (hp : Polled kind s s' o) (hs : Exclusive kind s) : Exclusive kind s' where
  inv := hp.inv hs.inv
  asserted := hp.asserted.trans hs.asserted
  waits p hkind hadded := by
    by_cases hne : p = o
    · subst hne
      obtain ⟨hstage, honce⟩ := hp.waits hadded
      exact ⟨hstage, honce hkind⟩
    · have hother : (Sum.inl p : O ⊕ U) ≠ .inl o := fun heq => hne (Sum.inl.inj heq)
      rw [hp.operation p hne, hp.engine.handle _ hother]
      exact hs.waits p hkind (hp.engine.added _ hother ▸ hadded)

theorem Fired.exclusive (hf : Fired kind s s' o) (hs : Exclusive kind s)
    (hadded : s.engine.added (.inl o) = true) : Exclusive kind s' where
  inv := hf.inv hs.inv
  asserted := (hf.asserted fun hkind => (hs.waits o hkind hadded).1).trans hs.asserted
  waits p hkind hadded' := by
    by_cases hne : p = o
    · subst hne
      have hnone := hf.once (hs.waits p hkind hadded).2
      exact absurd (hnone.symm.trans hadded') Bool.false_ne_true
    · have hother : (Sum.inl p : O ⊕ U) ≠ .inl o := fun heq => hne (Sum.inl.inj heq)
      rw [hf.operation p hne, hf.handle _ hother]
      exact hs.waits p hkind (hf.added _ hother ▸ hadded')

variable [DecidableEq O] [DecidableEq U]

theorem user_elsewhere {op : UserOp U} {engine : Engine (O ⊕ U) (Code O)}
    (hstep : s.engine.step op.lift = some engine) : ∃ u, Engine.Elsewhere s.engine engine (.inr u) := by
  cases op with
  | addIo flags u fd n accepted =>
    obtain rfl := Option.some.inj hstep
    exact ⟨u, Engine.elsewhere_add ..⟩
  | addTimer u n accepted =>
    obtain rfl := Option.some.inj hstep
    exact ⟨u, Engine.elsewhere_add ..⟩
  | addSignal u sig n accepted =>
    obtain rfl := Option.some.inj hstep
    exact ⟨u, Engine.elsewhere_add ..⟩
  | removeIo u =>
    obtain rfl := Option.some.inj hstep
    exact ⟨u, Engine.elsewhere_removeIo ..⟩
  | removeTimer u | removeSignal u =>
    obtain rfl := Option.some.inj hstep
    exact ⟨u, Engine.elsewhere_removeTimer ..⟩
  | reset u =>
    obtain rfl := Option.some.inj hstep
    exact ⟨u, Engine.elsewhere_reset ..⟩

/-- The task of an `AsyncTLS` is resumed by its event only. -/
def Undisturbed {O U : Type*} (kind : O → Kind) : WaitingLabel O U → Prop
  | .resume o _ => kind o ≠ .tls
  | _ => True

theorem Exclusive.step (hs : Exclusive kind s) {l : WaitingLabel O U} (hl : Undisturbed kind l)
    (hstep : s.step kind l = some s') : Exclusive kind s' := by
  have hinv := hs.inv.step hstep
  cases l with
  | start o ioHandle flags r accepted =>
    obtain ⟨⟨-, hidle⟩, hs'⟩ := Option.ite_none_right_eq_some.mp hstep
    obtain rfl := Option.some.inj hs'
    have hset : Inv (s.setOperation o { ioHandle, flags, stage := .scheduled }) :=
      hs.inv.setOperation (fun h => by cases h) (fun h => by cases h)
    exact (poll_spec hset o r accepted).of_setOperation.exclusive hs
  | run o r accepted =>
    obtain ⟨-, hs'⟩ := Option.ite_none_right_eq_some.mp hstep
    obtain rfl := Option.some.inj hs'
    exact (poll_spec hs.inv o r accepted).exclusive hs
  | cancel o =>
    obtain ⟨-, hs'⟩ := Option.ite_none_left_eq_some.mp hstep
    obtain rfl := Option.some.inj hs'
    exact (finalize_spec hs.inv o).exclusive hs
  | resume o e =>
    obtain rfl := Option.some.inj hstep
    have hspec := resume_spec s o e
    refine hs.frame hinv ?_ fun p hkind => ⟨hspec.2.2.1 p ?_, by rw [hspec.1], by rw [hspec.1]⟩
    · unfold Waiting.resume
      split <;> rfl
    · rintro rfl
      exact hl hkind
  | user op =>
    obtain ⟨engine, hengine, rfl⟩ := Option.map_eq_some_iff.mp hstep
    obtain ⟨u, he⟩ := user_elsewhere hengine
    exact hs.frame hinv rfl fun p _ => ⟨rfl, he.handle _ Sum.inl_ne_inr, he.added _ Sum.inl_ne_inr⟩
  | fire h flags =>
    obtain ⟨engine, hengine, rfl⟩ := Option.map_eq_some_iff.mp hstep
    obtain ⟨⟨-, hadded⟩, he⟩ := Option.ite_none_right_eq_some.mp hengine
    obtain rfl := Option.some.inj he
    cases h with
    | inl o => exact (dispatch_spec hs.inv hadded flags).exclusive hs hadded
    | inr u =>
      have hsame := dispatch_user kind hs.inv hadded flags
      rw [hsame] at hinv ⊢
      refine hs.frame hinv rfl fun p _ => ⟨rfl, ?_, ?_⟩
      · exact (fired_other s.engine flags Sum.inl_ne_inr).1
      · exact (fired_other s.engine flags Sum.inl_ne_inr).2
  | finish =>
    obtain ⟨engine, hengine, rfl⟩ := Option.map_eq_some_iff.mp hstep
    obtain ⟨frame, hframe, rfl⟩ := Option.map_eq_some_iff.mp hengine
    obtain ⟨u, hu⟩ := hs.inv.frame frame hframe
    rw [hu] at hinv ⊢
    refine hs.frame hinv rfl fun p _ => ⟨rfl, ?_, ?_⟩
    · exact (Engine.finish_other s.engine Sum.inl_ne_inr).1
    · exact (Engine.finish_other s.engine Sum.inl_ne_inr).2

/-- If nobody but its event resumes the task of an `AsyncTLS`, the resume in `callback` succeeds every
    time, and its assertion holds in every run. -/
theorem tls_callback_resumes {ls : List (WaitingLabel O U)} (hrun : exec kind {} ls = some s)
    (hls : ∀ o e, WaitingLabel.resume o e ∈ ls → kind o ≠ .tls) : s.asserted = false := by
  have hmeets : ∀ l ∈ ls, Undisturbed kind l := by
    intro l hl
    cases l with
    | resume o e => exact hls o e hl
    | start | run | cancel | user | fire | finish => trivial
  exact (Runs.exec_invariant (C := fun _ l => Undisturbed kind l)
    (fun s l s' hs hl (hstep : Waiting.step kind s l = some s') => Exclusive.step hs hl hstep) ls {} s
    hrun (Runs.meets_of_forall ls _ hmeets) ⟨inv_init, rfl, fun _ _ h => by cases h⟩).asserted

/-- Both awaits of a stream over OpenSSL have their event. -/
theorem tls_callback_resumes_twice :
    ∃ s, exec (fun _ => .tls) ({} : Waiting Unit Unit)
        [.start () 5 0 ⟨⟨sslWantRead, categoryOpenssl⟩, -1⟩ true, .fire (.inl ()) EV_READ,
          .run () ⟨⟨sslWantWrite, categoryOpenssl⟩, -1⟩ true, .fire (.inl ()) EV_WRITE,
          .run () ⟨{}, 3⟩ true] = some s ∧
      (s.operation ()).stage = .idle ∧ s.asserted = false := by
  have hrun : ∃ s, exec (fun _ => .tls) ({} : Waiting Unit Unit)
      [.start () 5 0 ⟨⟨sslWantRead, categoryOpenssl⟩, -1⟩ true, .fire (.inl ()) EV_READ,
        .run () ⟨⟨sslWantWrite, categoryOpenssl⟩, -1⟩ true, .fire (.inl ()) EV_WRITE,
        .run () ⟨{}, 3⟩ true] = some s ∧
      (s.operation ()).stage = .idle := ⟨_, rfl, rfl⟩
  obtain ⟨s, hrun, hidle⟩ := hrun
  exact ⟨s, hrun, hidle, tls_callback_resumes hrun (by simp)⟩

end Jinx.Libevent.Waiting
