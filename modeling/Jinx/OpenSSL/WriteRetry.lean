import Jinx.OpenSSL.StreamBytes

/-! A call of `SSL_write` that was told to wait has to be made again with the same buffer.

    `_send` keeps to that as long as it is awaited. After an await that was cancelled, or whose event
    could not be added, it depends on the next view. -/

namespace Jinx.OpenSSL
open Jinx Http Posix Function

namespace StreamOpenSSL

variable {s s' : StreamOpenSSL} {m : Member} {e : Error} {c : Call} {n err : Int} {l : List Byte}
  {added : ResultGeneric}

/-- A new write begins where the one that is pending did, and is not shorter. -/
def SameBuffer (s : StreamOpenSSL) : StreamLabel → Prop
  | .await .send v => ∀ b, s.pending = some b → v.sliceForConsumer.data = b.data ∧ num b.size ≤ num v.size
  | _ => True

/-- While `_send` waits, the call that is pending is the one it would make. -/
structure Kept (s : StreamOpenSSL) : Prop where
  good : s.badRetry = false
  same : (s.stage .send).waits = true → ∀ b, s.pending = some b → b = s.sendView.sliceForConsumer

/-- What the other awaitables do has no part in it. -/
structure Beside (s s' : StreamOpenSSL) : Prop where
  view : s'.sendView = s.sendView
  pending : s'.pending = s.pending
  badRetry : s'.badRetry = s.badRetry
  stage : s'.stage .send = s.stage .send

theorem Beside.trans {t : StreamOpenSSL} (h : Beside s s') (h' : Beside s' t) : Beside s t :=
  ⟨h'.view.trans h.view, h'.pending.trans h.pending, h'.badRetry.trans h.badRetry, h'.stage.trans h.stage⟩

theorem Kept.beside (h : Kept s) (hb : Beside s s') : Kept s' where
  good := hb.badRetry.trans h.good
  same := by
    rw [hb.stage, hb.pending, hb.view]
    exact h.same

theorem beside_setStage (hm : m ≠ .send) (st : TLSStage) : Beside s (s.setStage m st) :=
  ⟨rfl, rfl, rfl, update_of_ne hm.symm ..⟩

theorem beside_begins (hc : c ≠ .write) : Beside s (s.begins c) :=
  ⟨rfl, rfl, by simp [begins, hc], rfl⟩

theorem beside_afterRead : Beside s (s.afterRead n err l added) := by
  unfold afterRead
  repeat' split
  all_goals exact ⟨rfl, rfl, rfl, rfl⟩

/-- A call that is not `SSL_write` returns. -/
theorem beside_answered (hc : c ≠ .write) : Beside s (s.answered c n err l added) := by
  cases c with
  | accept | connect =>
    simp only [answered, afterHandshake]
    split_ifs <;> exact ⟨rfl, rfl, rfl, rfl⟩
  | shutdown =>
    simp only [answered, afterShutdown]
    split_ifs <;> exact ⟨rfl, rfl, by simp [begins, doTlsIo, setStage], rfl⟩
  | peek =>
    simp only [answered, afterPeek]
    split_ifs <;> exact ⟨rfl, rfl, by simp [begins, doTlsIo, setStage], rfl⟩
  | wait => exact ⟨rfl, rfl, rfl, rfl⟩
  | read => exact beside_afterRead
  | write => exact (hc rfl).elim

/-- A call of `SSL_write` that is the same again. -/
theorem kept_begins (h : s.badRetry = false) (hrepeats : s.repeats = true)
    (hstage : (s.stage .send).waits = false) : Kept (s.begins .write) where
  good := by simp [begins, h, hrepeats]
  same hwaits := by
    have hsame : ((s.begins .write).stage .send).waits = (s.stage .send).waits := rfl
    rw [hsame, hstage] at hwaits
    cases hwaits

theorem kept_afterWrite (h : s.badRetry = false) (hstage : s.stage .send = .polling) :
    Kept (s.afterWrite n err added) := by
  unfold afterWrite
  split
  · dsimp only
    split
    · exact ⟨h, fun hwaits => by simp [hstage, TLSStage.waits] at hwaits⟩
    · split
      · exact kept_begins h rfl (by rw [hstage]; rfl)
      · exact ⟨h, fun _ b hb => by cases hb⟩
  · refine ⟨h, fun _ b hb => ?_⟩
    change (if _ then _ else _) = some b at hb
    split at hb
    · exact (Option.some.inj hb).symm
    · cases hb

theorem Kept.answered (h : Kept s) (hinv : Inv s) (hc : s.call = some c) :
    Kept (s.answered c n err l added) := by
  by_cases hwrite : c = .write
  · subst hwrite
    exact kept_afterWrite h.good (hinv.calling _ hc).1
  · exact h.beside (beside_answered hwrite)

/-- An awaitable other than `_send` begins its poll. -/
theorem beside_io (hm : m ≠ .send) : Beside s (s.io m) := by
  cases m with
  | accept | connect | recv => exact beside_begins (by simp)
  | shutdown =>
    simp only [io]
    split_ifs <;> exact beside_begins (by simp)
  | send => exact (hm rfl).elim

theorem beside_await (hm : m ≠ .send) (v : RawView) : Beside s ((s.await m v).setStage m .polling) := by
  cases m with
  | accept | connect | shutdown | recv => exact ⟨rfl, rfl, rfl, rfl⟩
  | send => exact (hm rfl).elim

theorem Kept.await (h : Kept s) {v : RawView} (hsame : SameBuffer s (.await m v)) :
    Kept (((s.await m v).setStage m .polling).io m) := by
  by_cases hm : m = .send
  · subst hm
    refine kept_begins h.good ?_ rfl
    show StreamOpenSSL.repeats { s with sendView := v, sendOrigin := v, accepted := [] } = true
    unfold repeats
    split
    · rfl
    · next b hb =>
      obtain ⟨hdata, hsize⟩ := hsame b hb
      exact Bool.and_eq_true_iff.mpr ⟨beq_iff_eq.mpr hdata, decide_eq_true hsize⟩
  · exact h.beside ((beside_await hm v).trans (beside_io hm))

/-- The event of `_send` has come: the same slice is written. -/
theorem Kept.resume (h : Kept s) (hwaits : (s.stage m).waits = true) : Kept ((s.setStage m .polling).io m) := by
  by_cases hm : m = .send
  · subst hm
    refine kept_begins h.good ?_ rfl
    show s.repeats = true
    unfold repeats
    split
    · rfl
    · next b hb =>
      rw [h.same hwaits b hb]
      simp [RawView.sliceForConsumer]
  · exact h.beside ((beside_setStage hm _).trans (beside_io hm))

theorem Kept.cancel (h : Kept s) : Kept (s.setStage m .cancelled) := by
  by_cases hm : m = .send
  · subst hm
    exact ⟨h.good, fun hwaits => by cases hwaits⟩
  · exact h.beside (beside_setStage hm _)

theorem Kept.step {a : StreamLabel} (h : Kept s) (hinv : Inv s) (hsame : SameBuffer s a)
    (hstep : s.step a = some s') : Kept s' := by
  cases a with
  | await m v =>
    obtain ⟨-, hs⟩ := Option.ite_none_right_eq_some.mp hstep
    exact Option.some.inj hs ▸ h.await hsame
  | answer n err l added =>
    cases hc : s.call with
    | none => simp [StreamOpenSSL.step, hc] at hstep
    | some c =>
      simp only [StreamOpenSSL.step, hc] at hstep
      obtain ⟨-, hs⟩ := Option.ite_none_right_eq_some.mp hstep
      exact Option.some.inj hs ▸ h.answered hinv hc
  | resume m =>
    obtain ⟨⟨-, -, hwaits⟩, hs⟩ := Option.ite_none_right_eq_some.mp hstep
    exact Option.some.inj hs ▸ h.resume hwaits
  | cancel m =>
    obtain ⟨-, hs⟩ := Option.ite_none_right_eq_some.mp hstep
    exact Option.some.inj hs ▸ h.cancel

/-- Another buffer is noticed at once. -/
theorem badRetry_of_other {a : StreamLabel} (hother : ¬ SameBuffer s a) (hstep : s.step a = some s') :
    s'.badRetry = true := by
  unfold SameBuffer at hother
  split at hother
  · next v =>
    obtain ⟨-, hs⟩ := Option.ite_none_right_eq_some.mp hstep
    obtain rfl := Option.some.inj hs
    obtain ⟨b, hother⟩ := Classical.not_forall.mp hother
    obtain ⟨hb, hne⟩ := Classical.not_imp.mp hother
    have hrepeats : (({ s with sendView := v, sendOrigin := v, accepted := [] } : StreamOpenSSL).setStage
        .send .polling).repeats = false := by
      simp only [repeats, StreamOpenSSL.setStage, hb, Bool.and_eq_false_iff, beq_eq_false_iff_ne,
        decide_eq_false_iff_not, Int.not_le]
      by_cases hdata : v.sliceForConsumer.data = b.data
      · exact .inr (Int.not_le.mp fun hsize => hne ⟨hdata, hsize⟩)
      · exact .inl hdata
    simp [StreamOpenSSL.io, begins, StreamOpenSSL.await, hrepeats]
  · exact (hother trivial).elim

/-- In every run OpenSSL is given the buffer of a pending write again exactly if every new await of
    `write` begins where the pending one did, with at least as many bytes. Where no write is pending that
    is no condition, and a write that is resumed always keeps to it. -/
theorem same_buffer_iff (recvView sendView : RawView) {as : List StreamLabel}
    (hrun : exec (init recvView sendView) as = some s) :
    Runs.Always StreamOpenSSL.step (fun s => s.badRetry = false) (init recvView sendView) as ↔
      Runs.Meets StreamOpenSSL.step SameBuffer (init recvView sendView) as := by
  refine Runs.always_iff_meets (I := fun s => Inv s ∧ Kept s) ?_ (fun s hs => hs.2.good) ?_ as _ s hrun
    ⟨inv_init .., rfl, fun hwaits => by cases hwaits⟩
  · rintro s a t ⟨hinv, hkept⟩ hsame hstep
    exact ⟨hinv.step hstep, hkept.step hinv hsame hstep⟩
  · rintro s a t - hother hstep hgood
    rw [badRetry_of_other hother hstep] at hgood
    cases hgood

/-- A write is cancelled while OpenSSL waits for it again, and another view is written. -/
def otherBuffer : List StreamLabel :=
  [.await .send (RawView.resetFull (RawView.fresh 4096 [1, 2])),
    .answer (-1) SSL_ERROR_WANT_WRITE [] .successful, .cancel .send,
    .await .send (RawView.resetFull (RawView.fresh 8192 [3]))]

theorem same_buffer_iff_cancelled :
    ¬ Runs.Always StreamOpenSSL.step (fun s => s.badRetry = false)
      (init (RawView.fresh 8192 []) (RawView.fresh 4096 [])) otherBuffer := by
  have hrun : ∃ s, exec (init (RawView.fresh 8192 []) (RawView.fresh 4096 [])) otherBuffer = some s :=
    ⟨_, rfl⟩
  obtain ⟨s, hrun⟩ := hrun
  rw [same_buffer_iff _ _ hrun]
  rintro ⟨-, hwait⟩
  obtain ⟨-, hcancel⟩ := hwait _ rfl
  obtain ⟨-, hother⟩ := hcancel _ rfl
  obtain ⟨hsame, -⟩ := hother _ rfl
  obtain ⟨hdata, -⟩ := hsame _ rfl
  exact absurd hdata (by decide)

end StreamOpenSSL

end Jinx.OpenSSL
