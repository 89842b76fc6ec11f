import Jinx.OpenSSL.StreamOpenSSL

/-! What the views of a `StreamOpenSSL` have after an await, and what a shutdown that returns has done. -/

namespace Jinx.OpenSSL
open Jinx Http Posix Function
open Jinx.Libevent (categoryOpenssl sslEstablished sslWantRead sslWantWrite EV_READ EV_WRITE)

theorem num_le (size : Nat) : num size ≤ size := by
  have h := @Int.bmod_le (size : Int) (2 ^ 32) (by decide)
  unfold num
  rcases Nat.lt_or_ge size (2 ^ 31) with hlt | hge
  · rw [Int.bmod_eq_of_le_mul_two] <;> omega
  · omega

/-- A result with which the await returns. -/
def Succeeds (e : Error) : Prop :=
  e.category = categoryOpenssl ∧ e.value = sslEstablished ∨ e.isSet = false

instance (e : Error) : Decidable (Succeeds e) := inferInstanceAs (Decidable (_ ∨ _))

/-- An error of `SSL_get_error` is not success. -/
theorem not_succeeds_convert {err : Int} (h : err ≠ SSL_ERROR_NONE) :
    ¬ Succeeds (convertToStreamtlsErrorCode err) := by
  unfold convertToStreamtlsErrorCode
  split
  · decide
  · next hread =>
    split_ifs
    iterate 4 decide
    -- a value that is kept could be taken for `Established` where it is `SSL_ERROR_WANT_READ`
    rintro (⟨-, hvalue⟩ | hset)
    · exact hread hvalue
    · exact h (by simpa [makeOpenssl, Error.isSet] using hset)

namespace StreamOpenSSL

variable {s s' : StreamOpenSSL} {m : Member} {e : Error} {c : Call} {n err : Int} {l : List Byte}
  {added : ResultGeneric}

/-- `SSL_shutdown` has sent `close_notify`. -/
def Notified (s : StreamOpenSSL) : Prop := ∃ x ∈ s.closing, x.call = .shutdown ∧ 0 ≤ x.n

/-- The `close_notify` of the peer has come. -/
def Heard (s : StreamOpenSSL) : Prop :=
  ∃ x ∈ s.closing, x.call = .shutdown ∧ x.n = 1 ∨
    x.call ≠ .shutdown ∧ x.n ≤ 0 ∧ x.err = SSL_ERROR_ZERO_RETURN

/-- A peek has found a byte that nobody has read. -/
def Unread (s : StreamOpenSSL) : Prop := ∃ x ∈ s.closing, x.call ≠ .shutdown ∧ x.n = 1

/-- A peek has returned 0 for another reason than `close_notify`: the transport has ended without it.
    `do_peek` looks at `SSL_get_error` only below 0. -/
def Truncated (s : StreamOpenSSL) : Prop :=
  ∃ x ∈ s.closing, x.call ≠ .shutdown ∧ x.n = 0 ∧ x.err ≠ SSL_ERROR_ZERO_RETURN

/-- What ends a shutdown that does not fail. -/
def Settled (s : StreamOpenSSL) : Prop := s.Heard ∨ s.Unread ∨ s.Truncated

/-- What holds where the await of the member returns. -/
def Post (s : StreamOpenSSL) : Member → Prop
  | .send => s.sendView.size = 0
  | .recv => s.received ≠ []
  | .shutdown => s.Notified ∧ s.Settled
  | .accept | .connect => True

/-- What every step keeps, also within a poll. -/
structure Base (s : StreamOpenSSL) : Prop where
  calm : s.aborted = false
  sent : s.accepted ++ s.sendView.content = s.sendOrigin.content
  got : s.recvOrigin.Extends s.recvView s.received
  post : ∀ m, s.stage m = .returned → s.Post m
  notified : s.waitCloseNotify = true → s.Notified
  settled : s.waitCloseNotify = true → s.Settled

/-- The call that is under way is one of the awaitable that is polled, and of `io` as far as it got. -/
def Calling (s : StreamOpenSSL) (c : Call) : Prop :=
  s.stage c.member = .polling ∧
    match c with
    | .peek => s.Notified
    | .wait => s.waitCloseNotify = true
    | _ => True

structure Inv (s : StreamOpenSSL) : Prop extends Base s where
  calling : ∀ c, s.call = some c → s.Calling c
  nothing : s.stage .recv ≠ .returned → s.received = []

theorem setStage_self (s : StreamOpenSSL) (m : Member) (st : TLSStage) : (s.setStage m st).stage m = st :=
  update_self ..

theorem setStage_of_ne {k : Member} (h : k ≠ m) (st : TLSStage) :
    (s.setStage m st).stage k = s.stage k := update_of_ne h ..

theorem registered_ne (flags : Nat) (added : ResultGeneric) : registered flags added ≠ .returned := by
  cases added <;> simp [registered]

/-- The await returns with success only. -/
theorem outcome_eq_returned (e : Error) (added : ResultGeneric) :
    outcome e added = .returned ↔ Succeeds e := by
  unfold outcome Succeeds
  split
  · next h =>
    simp only [registered_ne, h, Error.isSet, true_and, false_iff]
    decide
  · split
    · next h =>
      simp only [registered_ne, h, Error.isSet, true_and, false_iff]
      decide
    · split
      · next h => simp [h]
      · next h =>
        rw [or_iff_right h]
        split
        · next hset => simpa using hset
        · next hset => simpa using hset

theorem Base.conclude (h : Base s) (hpost : Succeeds e → s.Post m) : Base (s.doTlsIo m e added) := by
  refine { h with post := ?_ }
  intro k hk
  by_cases hkm : k = m
  · subst hkm
    rw [doTlsIo, setStage_self] at hk
    exact hpost ((outcome_eq_returned e added).mp hk)
  · rw [doTlsIo, setStage_of_ne hkm] at hk
    exact h.post k hk

theorem Inv.conclude (h : Base s) (hpost : Succeeds e → s.Post m)
    (hnone : (m = .recv → ¬ Succeeds e) → m = .recv ∨ s.stage .recv ≠ .returned → s.received = []) :
    Inv (s.doTlsIo m e added) := by
  refine { h.conclude hpost with calling := ?_, nothing := ?_ }
  · rintro c hc
    cases hc
  · intro hne
    by_cases hm : .recv = m
    · subst hm
      rw [doTlsIo, setStage_self] at hne
      exact hnone (fun _ hs => hne ((outcome_eq_returned e added).mpr hs)) (.inl rfl)
    · rw [doTlsIo, setStage_of_ne hm] at hne
      exact hnone (fun heq => (hm heq.symm).elim) (.inr hne)

/-- A member that is not `_recv`. -/
theorem Inv.conclude_of_ne (h : Inv s) (hm : m ≠ .recv) (hpost : Succeeds e → s.Post m) :
    Inv (s.doTlsIo m e added) :=
  .conclude h.toBase hpost fun _ hor => h.nothing (hor.resolve_left hm)

theorem Inv.begins (h : Inv s) (hc : s.Calling c) : Inv (s.begins c) := by
  refine { h with calling := ?_ }
  rintro d hd
  obtain rfl := Option.some.inj hd
  exact hc

/-! ### What each call of OpenSSL leaves -/

theorem Inv.handshake (h : Inv s) (hm : m = .accept ∨ m = .connect) : Inv (s.afterHandshake m n err added) := by
  have hne : m ≠ .recv := by rcases hm with rfl | rfl <;> simp
  have hpost : s.Post m := by rcases hm with rfl | rfl <;> trivial
  unfold afterHandshake
  split_ifs <;> exact h.conclude_of_ne hne fun _ => hpost

/-- A peek that has returned 0 has an end of the connection behind it. -/
theorem Settled.of_zero {x : Closing} (hx : x ∈ s.closing) (hcall : x.call ≠ .shutdown) (hn : x.n = 0) :
    s.Settled := by
  by_cases herr : x.err = SSL_ERROR_ZERO_RETURN
  · exact .inl ⟨x, hx, .inr ⟨hcall, Int.le_of_eq hn, herr⟩⟩
  · exact .inr (.inr ⟨x, hx, hcall, hn, herr⟩)

/-- A call of the shutdown is noted. -/
theorem Inv.log (h : Inv s) (x : Closing) : Inv { s with closing := s.closing ++ [x] } := by
  have hmem : ∀ {p : Closing → Prop}, (∃ y ∈ s.closing, p y) → ∃ y ∈ s.closing ++ [x], p y :=
    fun ⟨y, hy, hp⟩ => ⟨y, List.mem_append_left _ hy, hp⟩
  have hnotified : s.Notified → ({ s with closing := s.closing ++ [x] } : StreamOpenSSL).Notified := hmem
  have hsettled : s.Settled → ({ s with closing := s.closing ++ [x] } : StreamOpenSSL).Settled :=
    fun hor => hor.imp hmem fun hor => hor.imp hmem hmem
  refine { h with post := ?_, notified := ?_, settled := ?_, calling := ?_ }
  · intro m hm
    have hpost := h.post m hm
    cases m with
    | shutdown => exact ⟨hnotified hpost.1, hsettled hpost.2⟩
    | accept | connect | recv | send => exact hpost
  · exact fun hwait => hnotified (h.notified hwait)
  · exact fun hwait => hsettled (h.settled hwait)
  · intro d hd
    obtain ⟨hstage, hcall⟩ := h.calling d hd
    refine ⟨hstage, ?_⟩
    cases d with
    | peek => exact hnotified hcall
    | wait | accept | connect | shutdown | read | write => exact hcall

theorem Inv.afterShutdown (h : Inv s) (hstage : s.stage .shutdown = .polling)
    (hlog : ⟨.shutdown, n, err⟩ ∈ s.closing) (hn : n ≤ 1) (herr : n ≤ 0 → err ≠ SSL_ERROR_NONE) :
    Inv (s.afterShutdown n err added) := by
  unfold StreamOpenSSL.afterShutdown
  split
  · next hone =>
    subst hone
    exact h.conclude_of_ne (by simp) fun _ =>
      ⟨⟨_, hlog, rfl, Int.one_nonneg⟩, .inl ⟨_, hlog, .inl ⟨rfl, rfl⟩⟩⟩
  · split
    · next hzero =>
      subst hzero
      exact h.begins ⟨hstage, _, hlog, rfl, Int.le_refl 0⟩
    · exact h.conclude_of_ne (by simp) fun hs => (not_succeeds_convert (herr (by omega)) hs).elim

theorem Inv.afterPeek (h : Inv s) (hcall : s.Calling .peek) (hlog : ⟨.peek, n, err⟩ ∈ s.closing)
    (hn : n ≤ 1) (herr : n ≤ 0 → err ≠ SSL_ERROR_NONE) : Inv (s.afterPeek n err added) := by
  obtain ⟨hstage, hnotified⟩ := hcall
  unfold StreamOpenSSL.afterPeek
  split
  · next hzero =>
    subst hzero
    have hwait : Inv { s with waitCloseNotify := true } :=
      { h with
        notified := fun _ => hnotified
        settled := fun _ => .of_zero hlog (by simp) rfl
        calling := fun d hd => by
          obtain ⟨hd, hcall⟩ := h.calling d hd
          refine ⟨hd, ?_⟩
          cases d with
          | wait => rfl
          | peek | accept | connect | shutdown | read | write => exact hcall }
    exact hwait.begins ⟨hstage, rfl⟩
  · next hzero =>
    refine h.conclude_of_ne (by simp) fun hs => ?_
    split at hs
    · exact (not_succeeds_convert (herr (by omega)) hs).elim
    · obtain rfl : n = 1 := by omega
      exact ⟨hnotified, .inr (.inl ⟨_, hlog, by simp, rfl⟩)⟩

theorem Inv.afterWait (h : Inv s) (hcall : s.Calling .wait) : Inv (s.afterWait n err added) :=
  h.conclude_of_ne (by simp) fun _ => ⟨h.notified hcall.2, h.settled hcall.2⟩

theorem Inv.afterRead (h : Inv s) (hstage : s.stage .recv = .polling)
    (hn : 0 < n → n ≤ num s.recvView.capacity) (hl : l.length = n.toNat)
    (herr : n ≤ 0 → err ≠ SSL_ERROR_NONE) : Inv (s.afterRead n err l added) := by
  have hempty : s.received = [] := h.nothing (by rw [hstage]; simp)
  have hnum := num_le s.recvView.capacity
  obtain ⟨v, hstore, hkept, -, v', hcommit, hextends⟩ := RawView.store_producer (v := s.recvView) (l := l) (by omega)
  unfold StreamOpenSSL.afterRead
  rw [hstore]
  have hgot := hempty ▸ h.got
  rcases Int.lt_or_le 0 n with hpos | hle
  · -- the bytes are committed
    simp only [if_neg (show ¬ n = 0 by omega), if_pos hpos, ← hl, hcommit]
    have hne : s.received ++ l ≠ [] := by
      rw [hempty]
      intro hnil
      have hlength := congrArg List.length hnil
      simp only [List.nil_append, List.length_nil] at hlength
      omega
    refine .conclude { h.toBase with got := ?_, post := ?_ } (fun _ => hne) fun hsucc _ =>
      (hsucc rfl (.inr rfl)).elim
    · show s.recvOrigin.Extends v' (s.received ++ l)
      rw [hempty]
      exact hgot.trans hextends
    · intro m hm
      cases m with
      | recv => exact hne
      | accept | connect | shutdown | send => exact h.post _ hm
  · obtain rfl : l = [] := List.eq_nil_of_length_eq_zero (by omega)
    have hbase : Base { s with recvView := v, received := s.received ++ [] } :=
      { h.toBase with
        got := by
          show s.recvOrigin.Extends v (s.received ++ [])
          rw [hempty]
          exact hgot.trans hkept
        post := fun m hm => by
          cases m with
          | recv => simp [hstage] at hm
          | accept | connect | shutdown | send => exact h.post _ hm }
    have hreceived : s.received ++ [] = [] := by rw [hempty, List.nil_append]
    simp only [if_neg (show ¬ 0 < n by omega)]
    split
    · exact .conclude hbase (fun hs => absurd hs (by decide)) fun _ _ => hreceived
    · exact .conclude hbase (fun hs => (not_succeeds_convert (herr hle) hs).elim) fun _ _ => hreceived

theorem Inv.afterWrite (h : Inv s) (hstage : s.stage .send = .polling)
    (hn : 0 < n → n ≤ num s.sendView.size) (herr : n ≤ 0 → err ≠ SSL_ERROR_NONE) :
    Inv (s.afterWrite n err added) := by
  unfold StreamOpenSSL.afterWrite
  split
  · next hpos =>
    have hnum := num_le s.sendView.size
    obtain ⟨v, hconsume, hcontent, -⟩ := RawView.consume_content (v := s.sendView) (n := n.toNat) (by omega)
    have hsent : s.accepted ++ s.sendView.content.take n.toNat ++ v.content = s.sendOrigin.content := by
      rw [hcontent, List.append_assoc, List.take_append_drop, h.sent]
    have hnext : Inv { s with
        accepted := s.accepted ++ s.sendView.content.take n.toNat, pending := none, sendView := v } :=
      { h with
        sent := hsent
        post := fun m hm => by
          cases m with
          | send => simp [hstage] at hm
          | accept | connect | shutdown | recv => exact h.post _ hm }
    simp only [hconsume]
    split
    · exact hnext.begins ⟨hstage, trivial⟩
    · next hsize => exact hnext.conclude_of_ne (m := .send) (by simp) fun _ => Nat.eq_zero_of_not_pos hsize
  · have hpending : ∀ b, Inv { s with pending := b } := fun b => { h with }
    exact (hpending _).conclude_of_ne (by simp) fun hs =>
      (not_succeeds_convert (herr (by omega)) hs).elim

theorem Inv.answered (h : Inv s) (hc : s.call = some c) (ha : s.Answers c n err l) :
    Inv (s.answered c n err l added) := by
  obtain ⟨herr, hbound⟩ := ha
  have hcall := h.calling c hc
  have hlog : ∀ x : Closing, x ∈ s.closing ++ [x] := fun x => List.mem_append_right _ List.mem_cons_self
  cases c with
  | accept => exact h.handshake (.inl rfl)
  | connect => exact h.handshake (.inr rfl)
  | shutdown => exact (h.log _).afterShutdown hcall.1 (hlog _) hbound herr
  | peek => exact (h.log _).afterPeek ((h.log _).calling _ hc) (hlog _) hbound herr
  | wait => exact (h.log _).afterWait ((h.log _).calling _ hc)
  | read => exact h.afterRead hcall.1 hbound.1 hbound.2 herr
  | write => exact h.afterWrite hcall.1 hbound herr

/-! ### Awaits and events -/

theorem Inv.io (h : Inv s) (hm : s.stage m = .polling) : Inv (s.io m) := by
  cases m with
  | accept | connect | recv | send => exact h.begins ⟨hm, trivial⟩
  | shutdown =>
    simp only [StreamOpenSSL.io]
    split
    · next hwait => exact h.begins ⟨hm, hwait⟩
    · exact h.begins ⟨hm, trivial⟩

/-- An awaitable that has not returned is set to a stage in which it has not either. -/
theorem Inv.setStage (h : Inv s) (hc : s.call = none) {st : TLSStage} (hst : st ≠ .returned)
    (hnone : m = .recv → s.received = []) : Inv (s.setStage m st) := by
  refine { h with post := ?_, calling := ?_, nothing := ?_ }
  · intro k hk
    by_cases hkm : k = m
    · subst hkm
      rw [setStage_self] at hk
      exact (hst hk).elim
    · rw [setStage_of_ne hkm] at hk
      exact h.post k hk
  · intro d hd
    rw [show (s.setStage m st).call = s.call from rfl, hc] at hd
    cases hd
  · intro hne
    by_cases hm : .recv = m
    · exact hnone hm.symm
    · rw [setStage_of_ne hm] at hne
      exact h.nothing hne

/-- The stage is set, and the members of the awaitable are as a new await has them. -/
theorem Inv.await (h : Inv s) (hc : s.call = none) (m : Member) (v : RawView) :
    Inv ((s.await m v).setStage m .polling) := by
  have hpost : ∀ k, k ≠ m → ((s.await m v).setStage m .polling).stage k = .returned →
      s.stage k = .returned := fun k hk hstage => by
    rw [setStage_of_ne hk] at hstage
    cases m <;> exact hstage
  have hself : ((s.await m v).setStage m .polling).stage m ≠ .returned := by
    rw [setStage_self]
    simp
  have hcall : ∀ d, ((s.await m v).setStage m .polling).call ≠ some d := by
    intro d hd
    cases m <;> simp [StreamOpenSSL.await, StreamOpenSSL.setStage, hc] at hd
  cases m with
  | accept | connect => exact h.setStage hc (by simp) (by simp)
  | shutdown =>
    refine { h with post := ?_, notified := ?_, settled := ?_, calling := ?_, nothing := ?_ }
    · intro k hk
      cases k with
      | shutdown => exact (hself hk).elim
      | accept | connect | recv | send => exact h.post _ (hpost _ (by simp) hk)
    · rintro hwait
      cases hwait
    · rintro hwait
      cases hwait
    · exact fun d hd => (hcall d hd).elim
    · exact fun hne => h.nothing fun heq => hne heq
  | recv =>
    refine { h with got := .refl v, post := ?_, calling := ?_, nothing := fun _ => rfl }
    · intro k hk
      cases k with
      | recv => exact (hself hk).elim
      | accept | connect | shutdown | send => exact h.post _ (hpost _ (by simp) hk)
    · exact fun d hd => (hcall d hd).elim
  | send =>
    refine { h with sent := rfl, post := ?_, calling := ?_, nothing := ?_ }
    · intro k hk
      cases k with
      | send => exact (hself hk).elim
      | accept | connect | shutdown | recv => exact h.post _ (hpost _ (by simp) hk)
    · exact fun d hd => (hcall d hd).elim
    · exact fun hne => h.nothing fun heq => hne heq

theorem Inv.step {a : StreamLabel} (h : Inv s) (hstep : s.step a = some s') : Inv s' := by
  cases a with
  | await m v =>
    obtain ⟨⟨hc, -, -⟩, hs⟩ := Option.ite_none_right_eq_some.mp hstep
    obtain rfl := Option.some.inj hs
    exact (h.await hc m v).io (setStage_self ..)
  | answer n err l added =>
    cases hc : s.call with
    | none => simp [StreamOpenSSL.step, hc] at hstep
    | some c =>
      simp only [StreamOpenSSL.step, hc] at hstep
      obtain ⟨ha, hs⟩ := Option.ite_none_right_eq_some.mp hstep
      obtain rfl := Option.some.inj hs
      exact h.answered hc ha
  | resume m =>
    obtain ⟨⟨hc, -, hwaits⟩, hs⟩ := Option.ite_none_right_eq_some.mp hstep
    obtain rfl := Option.some.inj hs
    refine (h.setStage hc (by simp) ?_).io (setStage_self ..)
    rintro rfl
    exact h.nothing fun heq => by simp [heq, TLSStage.waits] at hwaits
  | cancel m =>
    obtain ⟨⟨hc, -, hwaits⟩, hs⟩ := Option.ite_none_right_eq_some.mp hstep
    obtain rfl := Option.some.inj hs
    refine h.setStage hc (by simp) ?_
    rintro rfl
    exact h.nothing fun heq => by simp [heq, TLSStage.waits] at hwaits

theorem inv_init (recvView sendView : RawView) : Inv (init recvView sendView) where
  calm := rfl
  sent := rfl
  got := .refl recvView
  post m hm := by cases hm
  notified h := by cases h
  settled h := by cases h
  calling c hc := by cases hc
  nothing _ := rfl

theorem Inv.run {as : List StreamLabel} (h : Inv s) (hrun : exec s as = some s') : Inv s' :=
  Runs.exec_invariant (fun _ _ _ hI _ hstep => hI.step hstep) as s s' hrun (Runs.meets_true as s) h

/-- Whatever OpenSSL answers and however the awaits of the five are mixed: a write takes from the front of
    its view what `SSL_write` accepts, and returns when the view is empty; a read adds to its view what
    `SSL_read` has returned, and nothing if it does not return; a shutdown that returns has sent
    `close_notify`, and has seen the peer's, unless there are bytes that nobody has read or the transport
    has ended without it. -/
theorem stream_bytes (recvView sendView : RawView) {as : List StreamLabel}
    (hrun : exec (init recvView sendView) as = some s) :
    s.accepted ++ s.sendView.content = s.sendOrigin.content ∧
      (s.stage .send = .returned → s.accepted = s.sendOrigin.content ∧ s.sendView.size = 0) ∧
      s.recvOrigin.Extends s.recvView s.received ∧ (s.stage .recv = .returned ↔ s.received ≠ []) ∧
      (s.stage .shutdown = .returned → s.Notified ∧ (s.Heard ∨ s.Unread ∨ s.Truncated)) ∧
      s.aborted = false := by
  have h := (inv_init recvView sendView).run hrun
  refine ⟨h.sent, ?_, h.got, ⟨fun hr => h.post _ hr, fun hne => ?_⟩, fun hr => h.post _ hr, h.calm⟩
  · intro hr
    have hsize : s.sendView.size = 0 := h.post _ hr
    have hempty : s.sendView.content = [] :=
      List.eq_nil_of_length_eq_zero (s.sendView.content_length.trans hsize)
    exact ⟨by simpa [hempty] using h.sent, hsize⟩
  · by_contra hstage
    exact hne (h.nothing hstage)

/-- A write that waits once, a read beside it, and a shutdown that the peer answers. -/
def closedConnection : List StreamLabel :=
  [.await .send (RawView.resetFull (RawView.fresh 4096 [1, 2])),
    .answer (-1) SSL_ERROR_WANT_WRITE [] .successful, .await .recv (RawView.fresh 8192 [0, 0]),
    .answer (-1) SSL_ERROR_WANT_READ [] .successful, .resume .send, .answer 1 0 [] .successful,
    .answer 1 0 [] .successful, .resume .recv, .answer 1 0 [9] .successful,
    .await .shutdown (RawView.fresh 0 []), .answer 0 SSL_ERROR_SYSCALL [] .successful,
    .answer 0 SSL_ERROR_ZERO_RETURN [] .successful, .answer 0 SSL_ERROR_ZERO_RETURN [] .successful]

theorem stream_bytes_closed :
    ∃ s, exec (init (RawView.fresh 8192 [0, 0]) (RawView.fresh 4096 [])) closedConnection = some s ∧
      s.accepted = [1, 2] ∧ s.recvView.content = [9] ∧ s.Notified ∧
        (s.Heard ∨ s.Unread ∨ s.Truncated) := by
  have hrun : ∃ s, exec (init (RawView.fresh 8192 [0, 0]) (RawView.fresh 4096 [])) closedConnection = some s ∧
      s.stage .send = .returned ∧ s.stage .shutdown = .returned ∧ s.sendOrigin.content = [1, 2] ∧
      s.recvOrigin.content = [] ∧ s.received = [9] := ⟨_, rfl, rfl, rfl, rfl, rfl, rfl⟩
  obtain ⟨s, hrun, hsend, hshutdown, horigin, hempty, hreceived⟩ := hrun
  obtain ⟨-, hsent, hgot, -, hclosed, -⟩ := stream_bytes _ _ hrun
  refine ⟨s, hrun, (hsent hsend).1.trans horigin, ?_, hclosed hshutdown⟩
  rw [hgot.content, hempty, hreceived]
  rfl

instance (s : StreamOpenSSL) : Decidable s.Heard := inferInstanceAs (Decidable (∃ _ ∈ _, _))

-- the transport has ended, and the shutdown returns without a `close_notify` of the peer
example : (exec (init (RawView.fresh 8192 [0, 0]) (RawView.fresh 4096 []))
    [.await .shutdown (RawView.fresh 0 []), .answer 0 SSL_ERROR_SYSCALL [] .successful,
      .answer 0 SSL_ERROR_SYSCALL [] .successful, .answer 0 SSL_ERROR_SYSCALL [] .successful]).map
    (fun s => (s.stage .shutdown, decide s.Heard)) = some (.returned, false) := by decide

end StreamOpenSSL

end Jinx.OpenSSL
