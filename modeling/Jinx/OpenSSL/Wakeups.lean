import Jinx.OpenSSL.StreamBIO

/-! What goes into a `StreamBIO` comes out of it, and nobody sleeps while there is something to do.

    The two directions have nothing to do with each other but for the views, which may be the same, and
    for the TLS tasks. Each has its own invariant: the bytes of one log are those of the other one and
    those that are in the view, and where the transport is suspended on a view that OpenSSL could use,
    no TLS task waits for it. The bytes are right whatever happens. The wake-ups need more: a task
    leaves its event without a look at the view, so that OpenSSL must have tried the view before. -/

namespace Jinx.OpenSSL

open Jinx.Http (BufferView Byte)
open Jinx.Sync (Stage)
open Runs

namespace Pipe

variable {w : Prop} {s t : Pipe} {e : TlsId} {i : ViewId}

/-! ### The invariants -/

/-- The bytes that OpenSSL has written to the view that is being read into. -/
def arrived (s : Pipe) : List Byte :=
  s.read.view.elim [] fun i => (filled (s.views i)).drop s.readMark

/-- The bytes that OpenSSL has taken from the view that is being written. -/
def leaving (s : Pipe) : List Byte :=
  s.write.view.elim [] fun i => (s.views i).front.drop s.writeMark

/-- A task that has left an event is suspended and has the event in its handle. -/
def Waits (s : Pipe) (e : TlsId) (flags : Nat) : Prop := s.tls e = ⟨some flags, .suspended⟩

/-- From OpenSSL to the transport; `w` is whether the wake-ups are right as well. -/
structure ReadSide (w : Prop) (s : Pipe) : Prop where
  stage : s.read.view ≠ none ↔ s.read.stage ≠ .idle
  wait : w → ∀ i, s.read.view = some i → s.read.stage = .suspended →
    s.read.pendingWrite = none ∨ (s.views i).capacity = 0
  event : ∀ e, s.read.pendingWrite = some e → s.Waits e IOFlagWrite
  mark : ∀ i, s.read.view = some i → s.readMark ≤ (filled (s.views i)).length
  bytes : s.accepted = s.received ++ s.arrived

/-- From the transport to OpenSSL. -/
structure WriteSide (w : Prop) (s : Pipe) : Prop where
  stage : s.write.view ≠ none ↔ s.write.stage ≠ .idle
  full : ∀ i, s.write.view = some i → s.write.stage = .suspended → (s.views i).size ≠ 0
  wait : w → s.write.stage = .suspended → s.write.pendingRead = none
  event : ∀ e, s.write.pendingRead = some e → s.Waits e IOFlagRead
  mark : ∀ i, s.write.view = some i → s.writeMark ≤ (s.views i).front.length
  bytes : s.returned = s.sent ++ s.leaving

structure Inv (w : Prop) (s : Pipe) : Prop where
  read : s.ReadSide w
  write : s.WriteSide w

/-- What the reader's side is made of. -/
theorem ReadSide.congr (h : s.ReadSide w) (hread : t.read = s.read)
    (hviews : ∀ i, s.read.view = some i → filled (t.views i) = filled (s.views i) ∧
      (t.views i).capacity = (s.views i).capacity)
    (htls : ∀ e, s.read.pendingWrite = some e → t.tls e = s.tls e)
    (hmark : t.readMark = s.readMark) (hacc : t.accepted = s.accepted)
    (hrec : t.received = s.received) : t.ReadSide w := by
  refine ⟨hread ▸ h.stage, ?_, ?_, ?_, ?_⟩
  · rw [hread]
    intro hw i hi hs
    rw [(hviews i hi).2]
    exact h.wait hw i hi hs
  · rw [hread]
    intro e he
    rw [Waits, htls e he]
    exact h.event e he
  · rw [hread, hmark]
    intro i hi
    rw [(hviews i hi).1]
    exact h.mark i hi
  · rw [hacc, hrec, h.bytes, arrived, arrived, hread, hmark]
    cases hv : s.read.view with
    | none => rfl
    | some i => simp [(hviews i hv).1]

/-- What the writer's side is made of. -/
theorem WriteSide.congr (h : s.WriteSide w) (hwrite : t.write = s.write)
    (hviews : ∀ i, s.write.view = some i → (t.views i).front = (s.views i).front ∧
      ((t.views i).size = 0 → (s.views i).size = 0))
    (htls : ∀ e, s.write.pendingRead = some e → t.tls e = s.tls e)
    (hmark : t.writeMark = s.writeMark) (hret : t.returned = s.returned) (hsent : t.sent = s.sent) :
    t.WriteSide w := by
  refine ⟨hwrite ▸ h.stage, ?_, hwrite ▸ h.wait, ?_, ?_, ?_⟩
  · rw [hwrite]
    intro i hi hs hzero
    exact h.full i hi hs ((hviews i hi).2 hzero)
  · rw [hwrite]
    intro e he
    rw [Waits, htls e he]
    exact h.event e he
  · rw [hwrite, hmark]
    intro i hi
    rw [(hviews i hi).1]
    exact h.mark i hi
  · rw [hret, hsent, h.bytes, leaving, leaving, hwrite, hmark]
    cases hv : s.write.view with
    | none => rfl
    | some i => simp [(hviews i hv).1]

/-! ### The callbacks -/

/-- OpenSSL is told to try again, or it gets what is at the beginning of the view. -/
theorem bioRead_cases (s : Pipe) (size : Nat) :
    ((∀ i, s.write.view = some i → (s.views i).size = 0) ∧ s.bioRead size = (s, none)) ∨
    ∃ i v buf, s.write.view = some i ∧ v.front = (s.views i).front ++ buf ∧
      filled v = filled (s.views i) ∧ v.capacity = (s.views i).capacity ∧
      s.bioRead size = ({ s with
        views := Function.update s.views i v
        write := { s.write with stage := s.write.stage.resume }
        returned := s.returned ++ buf }, some buf) := by
  unfold bioRead
  cases hv : s.write.view with
  | none => exact .inl ⟨by simp, rfl⟩
  | some i =>
    dsimp only
    split
    · rename_i hzero
      refine .inl ⟨fun j hj => ?_, rfl⟩
      obtain rfl := Option.some.inj hj
      exact hzero
    · have hfits : min size (s.views i).size ≤ (s.views i).size := Nat.min_le_right ..
      refine .inr ⟨i, _, _, rfl, ?_, ?_, ?_, rfl⟩
      · rw [BufferView.consume_of_le hfits, Option.getD_some]
      · rw [BufferView.consume_of_le hfits, Option.getD_some]
        simp [filled]
      · rw [BufferView.consume_of_le hfits, Option.getD_some]

/-- OpenSSL is told to try again, or its bytes are at the end of the view. -/
theorem bioWrite_cases (s : Pipe) (bytes : List Byte) :
    ((bytes ≠ [] ∧ ∀ i, s.read.view = some i → (s.views i).capacity = 0) ∧
      s.bioWrite bytes = (s, none)) ∨
    (bytes = [] ∧ s.bioWrite bytes = (s, some [])) ∨
    (bytes ≠ [] ∧ ∃ i v data, s.read.view = some i ∧ v.front = (s.views i).front ∧
      v.window = (s.views i).window ++ data ∧ s.bioWrite bytes = ({ s with
        views := Function.update s.views i v
        read := { s.read with stage := s.read.stage.resume }
        accepted := s.accepted ++ data }, some data)) := by
  unfold bioWrite
  by_cases hempty : bytes = []
  · exact .inr (.inl ⟨hempty, if_pos hempty⟩)
  rw [if_neg hempty]
  cases hv : s.read.view with
  | none => exact .inl ⟨⟨hempty, by simp⟩, rfl⟩
  | some i =>
    dsimp only
    split
    · rename_i hzero
      refine .inl ⟨⟨hempty, fun j hj => ?_⟩, rfl⟩
      obtain rfl := Option.some.inj hj
      exact hzero
    · have hfits : (bytes.take (min bytes.length (s.views i).capacity)).length ≤
          (s.views i).capacity := by
        simp only [List.length_take]
        omega
      refine .inr (.inr ⟨hempty, i, _, _, rfl, ?_, ?_, rfl⟩)
      · rw [BufferView.receive_of_le hfits, Option.getD_some]
      · rw [BufferView.receive_of_le hfits, Option.getD_some]

theorem ReadSide.bioRead (h : s.ReadSide w) (size : Nat) : (s.bioRead size).1.ReadSide w := by
  rcases bioRead_cases s size with ⟨-, hr⟩ | ⟨i, v, buf, -, -, hfilled, hcap, hr⟩
  · rw [hr]
    exact h
  · rw [hr]
    refine h.congr rfl (fun j _ => ?_) (fun _ _ => rfl) rfl rfl rfl
    by_cases hj : j = i
    · simp [hj, hfilled, hcap]
    · simp [hj]

theorem WriteSide.bioRead (h : s.WriteSide w) (size : Nat) : (s.bioRead size).1.WriteSide w := by
  rcases bioRead_cases s size with ⟨-, hr⟩ | ⟨i, v, buf, hv, hfront, -, -, hr⟩
  · rw [hr]
    exact h
  · rw [hr]
    have hmark := h.mark i hv
    refine ⟨h.stage.trans (Stage.resume_idle _).symm, fun j _ hs => ?_, fun _ hs => ?_, h.event,
      fun j hj => ?_, ?_⟩
    · exact absurd hs (Stage.resume_ne _)
    · exact absurd hs (Stage.resume_ne _)
    · obtain rfl : i = j := Option.some.inj (hv.symm.trans hj)
      simp only [Function.update_self, hfront, List.length_append]
      omega
    · have hbytes := h.bytes
      simp only [leaving, hv, Option.elim_some, Function.update_self, hfront] at hbytes ⊢
      rw [List.drop_append_of_le_length hmark, hbytes, List.append_assoc]

theorem WriteSide.bioWrite (h : s.WriteSide w) (bytes : List Byte) :
    (s.bioWrite bytes).1.WriteSide w := by
  rcases bioWrite_cases s bytes with ⟨-, hw⟩ | ⟨-, hw⟩ | ⟨-, i, v, data, -, hfront, hwindow, hw⟩
  · rw [hw]
    exact h
  · rw [hw]
    exact h
  · rw [hw]
    refine h.congr rfl (fun j _ => ?_) (fun _ _ => rfl) rfl rfl rfl
    by_cases hj : j = i
    · subst hj
      refine ⟨by simp [hfront], fun hzero => ?_⟩
      simp only [Function.update_self, BufferView.size, hwindow, List.length_append] at hzero ⊢
      omega
    · simp [hj]

theorem ReadSide.bioWrite (h : s.ReadSide w) (bytes : List Byte) : (s.bioWrite bytes).1.ReadSide w := by
  rcases bioWrite_cases s bytes with ⟨-, hw⟩ | ⟨-, hw⟩ | ⟨-, i, v, data, hv, hfront, hwindow, hw⟩
  · rw [hw]
    exact h
  · rw [hw]
    exact h
  · rw [hw]
    have hmark := h.mark i hv
    have hfilled : filled v = filled (s.views i) ++ data := by
      rw [filled, hfront, hwindow, filled, List.append_assoc]
    refine ⟨h.stage.trans (Stage.resume_idle _).symm, fun _ j _ hs => ?_, h.event, fun j hj => ?_, ?_⟩
    · exact absurd hs (Stage.resume_ne _)
    · obtain rfl : i = j := Option.some.inj (hv.symm.trans hj)
      simp only [Function.update_self, hfilled, List.length_append]
      omega
    · have hbytes := h.bytes
      simp only [arrived, hv, Option.elim_some, Function.update_self, hfilled] at hbytes ⊢
      rw [List.drop_append_of_le_length hmark, hbytes, List.append_assoc]

theorem Inv.call (h : s.Inv w) (c : BioCall) : (s.call c).1.Inv w := by
  cases c with
  | read size => exact ⟨h.read.bioRead size, h.write.bioRead size⟩
  | write bytes => exact ⟨h.read.bioWrite bytes, h.write.bioWrite bytes⟩

theorem call_tls (s : Pipe) (c : BioCall) : (s.call c).1.tls = s.tls := by
  cases c with
  | read size =>
    rcases bioRead_cases s size with ⟨-, hr⟩ | ⟨i, v, buf, -, -, -, -, hr⟩ <;> simp [Pipe.call, hr]
  | write bytes =>
    rcases bioWrite_cases s bytes with ⟨-, hw⟩ | ⟨-, hw⟩ | ⟨-, i, v, data, -, -, -, hw⟩ <;>
      simp [Pipe.call, hw]

theorem Inv.calls (h : s.Inv w) (cs : List BioCall) : (s.calls cs).Inv w :=
  foldl_invariant (I := Inv w) (fun _ c hs => hs.call c) cs s h

theorem calls_tls (s : Pipe) (cs : List BioCall) : (s.calls cs).tls = s.tls :=
  foldl_frame (f := fun s c => (Pipe.call s c).1) (g := Pipe.tls) call_tls cs s

/-! ### The transport -/

/-- The transport is about to be polled. -/
structure ReadPolled (i : ViewId) (s : Pipe) : Prop where
  view : s.read.view = some i
  event : ∀ e, s.read.pendingWrite = some e → s.Waits e IOFlagWrite
  mark : s.readMark ≤ (filled (s.views i)).length
  bytes : s.accepted = s.received ++ (filled (s.views i)).drop s.readMark

structure WritePolled (i : ViewId) (s : Pipe) : Prop where
  view : s.write.view = some i
  event : ∀ e, s.write.pendingRead = some e → s.Waits e IOFlagRead
  mark : s.writeMark ≤ (s.views i).front.length
  bytes : s.returned = s.sent ++ (s.views i).front.drop s.writeMark

theorem ReadSide.polled (h : s.ReadSide w) (hv : s.read.view = some i) : s.ReadPolled i := by
  refine ⟨hv, h.event, h.mark i hv, ?_⟩
  have hbytes := h.bytes
  simpa [arrived, hv] using hbytes

theorem WriteSide.polled (h : s.WriteSide w) (hv : s.write.view = some i) : s.WritePolled i := by
  refine ⟨hv, h.event, h.mark i hv, ?_⟩
  have hbytes := h.bytes
  simpa [leaving, hv] using hbytes

theorem ReadSide.start (h : s.ReadSide w) (hs : s.read.stage = .idle) (i : ViewId) :
    (s.startRead i).ReadPolled i := by
  have hnone : s.read.view = none := by
    by_contra hv
    exact h.stage.mp hv hs
  refine ⟨rfl, h.event, Nat.le_refl _, ?_⟩
  have hbytes := h.bytes
  simpa [arrived, hnone, startRead] using hbytes

theorem WriteSide.start (h : s.WriteSide w) (hs : s.write.stage = .idle) (i : ViewId) :
    (s.startWrite i).WritePolled i := by
  have hnone : s.write.view = none := by
    by_contra hv
    exact h.stage.mp hv hs
  refine ⟨rfl, h.event, Nat.le_refl _, ?_⟩
  have hbytes := h.bytes
  simpa [leaving, hnone, startWrite] using hbytes

/-- The event of a TLS task is not persistent. -/
theorem Waits.flags_invoke {flags : Nat} (h : s.Waits e flags) : (s.invoke e).flags e = flags := by
  have htls : s.tls e = ⟨some flags, .suspended⟩ := h
  simp [Pipe.flags, invoke, htls]

/-- The read returns, or the transport is suspended and nobody waits for it. -/
theorem ReadPolled.cases (h : s.ReadPolled i) (ht : s.pollRead = some t) :
    t = s.finishRead i ∨
    (s.read.pendingWrite = none ∧ t = { s with read := { s.read with stage := .suspended } }) ∨
    ∃ e, s.read.pendingWrite = some e ∧ t = { s.invoke e with
      read := { s.read with pendingWrite := none, stage := .suspended } } := by
  obtain ⟨j, hj, rfl⟩ := Option.map_eq_some_iff.mp ht
  obtain rfl : i = j := Option.some.inj (h.view.symm.trans hj)
  split
  · exact .inl rfl
  · refine .inr ?_
    cases he : s.read.pendingWrite with
    | none => exact .inl ⟨rfl, rfl⟩
    | some e =>
      refine .inr ⟨e, rfl, ?_⟩
      dsimp only
      rw [(h.event e he).flags_invoke, if_pos (by decide)]
      rfl

theorem WritePolled.cases (h : s.WritePolled i) (ht : s.pollWrite = some t) :
    t = s.finishWrite i ∨
    (s.write.pendingRead = none ∧ (s.views i).size ≠ 0 ∧
      t = { s with write := { s.write with stage := .suspended } }) ∨
    ∃ e, s.write.pendingRead = some e ∧ (s.views i).size ≠ 0 ∧ t = { s.invoke e with
      write := { s.write with pendingRead := none, stage := .suspended } } := by
  obtain ⟨j, hj, rfl⟩ := Option.map_eq_some_iff.mp ht
  obtain rfl : i = j := Option.some.inj (h.view.symm.trans hj)
  split
  · exact .inl rfl
  · rename_i hsize
    refine .inr ?_
    cases he : s.write.pendingRead with
    | none => exact .inl ⟨rfl, hsize, rfl⟩
    | some e =>
      refine .inr ⟨e, rfl, hsize, ?_⟩
      dsimp only
      rw [(h.event e he).flags_invoke, if_pos (by decide)]
      rfl

theorem ReadPolled.finish (h : s.ReadPolled i) : (s.finishRead i).ReadSide w := by
  refine ⟨by simp [finishRead], by simp [finishRead], h.event, by simp [finishRead], ?_⟩
  have hbytes := h.bytes
  simpa [finishRead, arrived] using hbytes

theorem WritePolled.finish (h : s.WritePolled i) : (s.finishWrite i).WriteSide w := by
  refine ⟨by simp [finishWrite], by simp [finishWrite], by simp [finishWrite], h.event,
    by simp [finishWrite], ?_⟩
  have hbytes := h.bytes
  simpa [finishWrite, leaving] using hbytes

/-- The other side has events of its own. -/
theorem WriteSide.invoke (h : s.WriteSide w) {e : TlsId} (he : s.Waits e IOFlagWrite) :
    (s.invoke e).WriteSide w := by
  refine h.congr rfl (fun _ _ => ⟨rfl, id⟩) (fun e' he' => ?_) rfl rfl rfl
  have hne : e' ≠ e := by
    rintro rfl
    have hboth := (h.event e' he').symm.trans he
    exact absurd hboth (by decide)
  simp [Pipe.invoke, hne]

theorem ReadSide.invoke (h : s.ReadSide w) {e : TlsId} (he : s.Waits e IOFlagRead) :
    (s.invoke e).ReadSide w := by
  refine h.congr rfl (fun _ _ => ⟨rfl, rfl⟩) (fun e' he' => ?_) rfl rfl rfl
  have hne : e' ≠ e := by
    rintro rfl
    have hboth := (h.event e' he').symm.trans he
    exact absurd hboth (by decide)
  simp [Pipe.invoke, hne]

theorem ReadPolled.poll (h : s.ReadPolled i) (hw : s.WriteSide w) (ht : s.pollRead = some t) :
    t.Inv w := by
  rcases h.cases ht with rfl | ⟨hnone, rfl⟩ | ⟨e, he, rfl⟩
  · exact ⟨h.finish, hw.congr rfl (fun _ _ => ⟨rfl, id⟩) (fun _ _ => rfl) rfl rfl rfl⟩
  · refine ⟨⟨by simp [h.view], fun _ _ _ _ => .inl hnone, h.event, fun j hj => ?_, ?_⟩,
      hw.congr rfl (fun _ _ => ⟨rfl, id⟩) (fun _ _ => rfl) rfl rfl rfl⟩
    · obtain rfl : i = j := Option.some.inj (h.view.symm.trans hj)
      exact h.mark
    · have hbytes := h.bytes
      simpa [arrived, h.view] using hbytes
  · refine ⟨⟨by simp [h.view], fun _ _ _ _ => .inl rfl, by simp, fun j hj => ?_, ?_⟩,
      (hw.invoke (h.event e he)).congr rfl (fun _ _ => ⟨rfl, id⟩) (fun _ _ => rfl) rfl rfl rfl⟩
    · obtain rfl : i = j := Option.some.inj (h.view.symm.trans hj)
      exact h.mark
    · have hbytes := h.bytes
      simpa [arrived, h.view, Pipe.invoke] using hbytes

theorem WritePolled.poll (h : s.WritePolled i) (hr : s.ReadSide w) (ht : s.pollWrite = some t) :
    t.Inv w := by
  rcases h.cases ht with rfl | ⟨hnone, hsize, rfl⟩ | ⟨e, he, hsize, rfl⟩
  · exact ⟨hr.congr rfl (fun _ _ => ⟨rfl, rfl⟩) (fun _ _ => rfl) rfl rfl rfl, h.finish⟩
  · refine ⟨hr.congr rfl (fun _ _ => ⟨rfl, rfl⟩) (fun _ _ => rfl) rfl rfl rfl,
      by simp [h.view], fun j hj _ => ?_, fun _ _ => hnone, h.event, fun j hj => ?_, ?_⟩
    · obtain rfl : i = j := Option.some.inj (h.view.symm.trans hj)
      exact hsize
    · obtain rfl : i = j := Option.some.inj (h.view.symm.trans hj)
      exact h.mark
    · have hbytes := h.bytes
      simpa [leaving, h.view] using hbytes
  · refine ⟨(hr.invoke (h.event e he)).congr rfl (fun _ _ => ⟨rfl, rfl⟩) (fun _ _ => rfl) rfl rfl rfl,
      by simp [h.view], fun j hj _ => ?_, fun _ _ => rfl, by simp, fun j hj => ?_, ?_⟩
    · obtain rfl : i = j := Option.some.inj (h.view.symm.trans hj)
      exact hsize
    · obtain rfl : i = j := Option.some.inj (h.view.symm.trans hj)
      exact h.mark
    · have hbytes := h.bytes
      simpa [leaving, h.view, Pipe.invoke] using hbytes

/-! ### The TLS tasks -/

/-- The task has left no event. -/
def Free (s : Pipe) (e : TlsId) : Prop := s.read.pendingWrite ≠ some e ∧ s.write.pendingRead ≠ some e

theorem Inv.free (h : s.Inv w) (he : (s.tls e).stage ≠ .suspended) : s.Free e := by
  refine ⟨fun hw => he ?_, fun hr => he ?_⟩
  · rw [show s.tls e = ⟨some IOFlagWrite, .suspended⟩ from h.read.event e hw]
  · rw [show s.tls e = ⟨some IOFlagRead, .suspended⟩ from h.write.event e hr]

/-- The record of a task without an event is written. -/
theorem Inv.record (h : s.Inv w) (hfree : s.Free e) (a : AsyncTLS) :
    Inv w { s with tls := Function.update s.tls e a } := by
  refine ⟨h.read.congr rfl (fun _ _ => ⟨rfl, rfl⟩) (fun k hk => ?_) rfl rfl rfl,
    h.write.congr rfl (fun _ _ => ⟨rfl, id⟩) (fun k hk => ?_) rfl rfl rfl⟩
  · have hne : k ≠ e := fun hke => hfree.1 (hke ▸ hk)
    simp [hne]
  · have hne : k ≠ e := fun hke => hfree.2 (hke ▸ hk)
    simp [hne]

/-- The event of the transport's reader is gone. -/
theorem ReadSide.detach (h : s.ReadSide w) :
    ReadSide w { s with read := { s.read with pendingWrite := none } } :=
  ⟨h.stage, fun _ _ _ _ => .inl rfl, by simp, h.mark, h.bytes⟩

theorem WriteSide.detach (h : s.WriteSide w) :
    WriteSide w { s with write := { s.write with pendingRead := none } } :=
  ⟨h.stage, h.full, fun _ _ => rfl, by simp, h.mark, h.bytes⟩

/-- A task that is free, or whose handle has its event, leaves none behind. -/
theorem Inv.removeIo (h : s.Inv w) (e : TlsId) : (s.removeIo e).Inv w ∧ (s.removeIo e).Free e := by
  have hread : s.read.pendingWrite = some e → s.flags e &&& IOFlagRead = 0 := by
    intro he
    rw [Pipe.flags, show s.tls e = ⟨some IOFlagWrite, .suspended⟩ from h.read.event e he]
    rfl
  have hwrite : s.write.pendingRead = some e → s.flags e &&& IOFlagRead ≠ 0 := by
    intro he
    rw [Pipe.flags, show s.tls e = ⟨some IOFlagRead, .suspended⟩ from h.write.event e he]
    decide
  unfold Pipe.removeIo
  split
  · rename_i hflag
    have hother : s.read.pendingWrite ≠ some e := fun he => hflag (hread he)
    split
    · rename_i hne
      exact ⟨h, hother, Ne.symm hne.1⟩
    · exact ⟨⟨h.read.congr rfl (fun _ _ => ⟨rfl, rfl⟩) (fun _ _ => rfl) rfl rfl rfl, h.write.detach⟩,
        hother, by simp⟩
  · rename_i hflag
    have hother : s.write.pendingRead ≠ some e := fun he => hflag (hwrite he)
    split
    · rename_i hne
      exact ⟨h, Ne.symm hne.1, hother⟩
    · exact ⟨⟨h.read.detach, h.write.congr rfl (fun _ _ => ⟨rfl, id⟩) (fun _ _ => rfl) rfl rfl rfl⟩,
        by simp, hother⟩

/-- A task is finalized; a task without a handle has no event either. -/
theorem Inv.finishTls (h : s.Inv w) (e : TlsId) : (s.finishTls e).Inv w := by
  unfold Pipe.finishTls
  dsimp only
  split
  · obtain ⟨hinv, hfree⟩ := h.removeIo e
    exact hinv.record hfree {}
  · rename_i hnone
    have hnone : (s.tls e).handle = none := by simpa using hnone
    refine h.record ⟨fun he => ?_, fun he => ?_⟩ {}
    · rw [show s.tls e = ⟨some IOFlagWrite, .suspended⟩ from h.read.event e he] at hnone
      cases hnone
    · rw [show s.tls e = ⟨some IOFlagRead, .suspended⟩ from h.write.event e he] at hnone
      cases hnone

/-- A task that waits to read throws where there is an event already, and leaves its own otherwise. -/
theorem awaitRead_cases (s : Pipe) (e : TlsId) :
    (s.write.pendingRead ≠ none ∧ s.await e IOFlagRead = finishTls
      { s with tls := Function.update s.tls e { s.tls e with handle := some IOFlagRead } } e) ∨
    (s.write.pendingRead = none ∧ s.await e IOFlagRead = { s with
      tls := Function.update s.tls e ⟨some IOFlagRead, .suspended⟩
      write := { s.write with pendingRead := some e } }) := by
  unfold Pipe.await addIo
  rw [if_neg (by decide)]
  dsimp only
  rw [if_pos (by simp [Pipe.flags, IOFlagRead])]
  by_cases hslot : s.write.pendingRead = none
  · right
    simp [hslot]
  · left
    simp [hslot]

theorem awaitWrite_cases (s : Pipe) (e : TlsId) :
    (s.read.pendingWrite ≠ none ∧ s.await e IOFlagWrite = finishTls
      { s with tls := Function.update s.tls e { s.tls e with handle := some IOFlagWrite } } e) ∨
    (s.read.pendingWrite = none ∧ s.await e IOFlagWrite = { s with
      tls := Function.update s.tls e ⟨some IOFlagWrite, .suspended⟩
      read := { s.read with pendingWrite := some e } }) := by
  unfold Pipe.await addIo
  rw [if_neg (by decide)]
  dsimp only
  rw [if_neg (by simp [Pipe.flags, IOFlagRead, IOFlagWrite])]
  by_cases hslot : s.read.pendingWrite = none
  · right
    simp [hslot]
  · left
    simp [hslot]

/-- It may do so where the transport has nothing for it. -/
theorem Inv.awaitRead (h : s.Inv w) (hfree : s.Free e) (hnone : w → s.write.stage ≠ .suspended) :
    (s.await e IOFlagRead).Inv w := by
  rcases awaitRead_cases s e with ⟨-, hawait⟩ | ⟨-, hawait⟩
  · rw [hawait]
    exact (h.record hfree _).finishTls e
  · rw [hawait]
    refine ⟨(h.record hfree ⟨some IOFlagRead, .suspended⟩).read.congr rfl (fun _ _ => ⟨rfl, rfl⟩)
      (fun _ _ => rfl) rfl rfl rfl, h.write.stage, h.write.full, fun hw hs => ?_, fun k hk => ?_,
      h.write.mark, h.write.bytes⟩
    · exact absurd hs (hnone hw)
    · obtain rfl : e = k := Option.some.inj hk
      exact Function.update_self _ _ _

/-- It may do so where the transport has no room for it. -/
theorem Inv.awaitWrite (h : s.Inv w) (hfree : s.Free e) (hnone : w → ¬ s.ReaderWaits) :
    (s.await e IOFlagWrite).Inv w := by
  rcases awaitWrite_cases s e with ⟨-, hawait⟩ | ⟨-, hawait⟩
  · rw [hawait]
    exact (h.record hfree _).finishTls e
  · rw [hawait]
    refine ⟨⟨h.read.stage, fun hw i hi hs => .inr ?_, fun k hk => ?_, h.read.mark, h.read.bytes⟩,
      (h.record hfree ⟨some IOFlagWrite, .suspended⟩).write.congr rfl (fun _ _ => ⟨rfl, id⟩)
        (fun _ _ => rfl) rfl rfl rfl⟩
    · by_contra hcap
      exact hnone hw ⟨hs, i, hi, hcap⟩
    · obtain rfl : e = k := Option.some.inj hk
      exact Function.update_self _ _ _

/-! ### What a call does for a transport that waits -/

theorem WriteSide.waits_iff (h : s.WriteSide w) : s.WriterWaits ↔ s.write.stage = .suspended := by
  refine ⟨fun hs => hs.1, fun hs => ⟨hs, ?_⟩⟩
  obtain ⟨i, hi⟩ := Option.ne_none_iff_exists'.mp (h.stage.mpr (by simp [hs]))
  exact ⟨i, hi, h.full i hi hs⟩

/-- A call to read, of any size, resumes the writer; a call to write does not. -/
theorem Inv.writerWaits_call (h : s.Inv w) (c : BioCall) :
    (s.call c).1.WriterWaits ↔ s.WriterWaits ∧ ∀ size, c ≠ .read size := by
  rw [(h.call c).write.waits_iff, h.write.waits_iff]
  cases c with
  | read size =>
    refine iff_of_false ?_ fun hnone => hnone.2 size rfl
    rcases bioRead_cases s size with ⟨hempty, hr⟩ | ⟨i, v, buf, -, -, -, -, hr⟩
    · rw [Pipe.call, hr]
      intro hs
      obtain ⟨-, i, hi, hsize⟩ := h.write.waits_iff.mpr hs
      exact hsize (hempty i hi)
    · rw [Pipe.call, hr]
      exact Stage.resume_ne _
  | write bytes =>
    have hstage : (s.bioWrite bytes).1.write = s.write := by
      rcases bioWrite_cases s bytes with ⟨-, hw⟩ | ⟨-, hw⟩ | ⟨-, i, v, data, -, -, -, hw⟩ <;>
        rw [hw]
    simp [Pipe.call, hstage]

/-- A call to write resumes the reader, unless it is one of no bytes. -/
theorem readerWaits_call (s : Pipe) (c : BioCall) :
    (s.call c).1.ReaderWaits ↔ s.ReaderWaits ∧ ∀ bytes, c = .write bytes → bytes = [] := by
  cases c with
  | read size =>
    rcases bioRead_cases s size with ⟨-, hr⟩ | ⟨i, v, buf, -, -, -, hcap, hr⟩
    · simp [Pipe.call, hr]
    · have hroom : ∀ j, (Function.update s.views i v j).capacity = (s.views j).capacity := by
        intro j
        by_cases hj : j = i
        · simp [hj, hcap]
        · simp [hj]
      simp [Pipe.call, hr, ReaderWaits, hroom]
  | write bytes =>
    rcases bioWrite_cases s bytes with ⟨⟨hne, hfull⟩, hw⟩ | ⟨hempty, hw⟩ |
      ⟨hsome, i, v, data, -, -, -, hw⟩
    · rw [Pipe.call, hw]
      refine iff_of_false ?_ fun hnone => hne (hnone.2 bytes rfl)
      rintro ⟨-, i, hi, hcap⟩
      exact hcap (hfull i hi)
    · rw [Pipe.call, hw]
      simp [hempty]
    · rw [Pipe.call, hw]
      refine iff_of_false ?_ fun hnone => hsome (hnone.2 bytes rfl)
      rintro ⟨hs, -⟩
      exact absurd hs (Stage.resume_ne _)

theorem Inv.writerWaits_calls (h : s.Inv w) (cs : List BioCall) :
    (s.calls cs).WriterWaits ↔ s.WriterWaits ∧ ∀ size, .read size ∉ cs := by
  induction cs generalizing s with
  | nil => simp [Pipe.calls]
  | cons c cs ih =>
    rw [show s.calls (c :: cs) = (s.call c).1.calls cs from rfl, ih (h.call c), h.writerWaits_call c]
    simp [and_assoc, forall_and, eq_comm]

theorem readerWaits_calls (s : Pipe) (cs : List BioCall) :
    (s.calls cs).ReaderWaits ↔ s.ReaderWaits ∧ ∀ bytes, .write bytes ∈ cs → bytes = [] := by
  induction cs generalizing s with
  | nil => simp [Pipe.calls]
  | cons c cs ih =>
    rw [show s.calls (c :: cs) = (s.call c).1.calls cs from rfl, ih, readerWaits_call]
    simp [and_assoc, or_imp, forall_and, eq_comm]

/-- To have tried is to find nobody waiting after the calls. -/
theorem Inv.triedRead_iff (h : s.Inv w) (e : TlsId) (cs : List BioCall) :
    s.WantIsTried (.tls e cs .wantRead) ↔ ¬ (s.calls cs).WriterWaits := by
  simp [h.writerWaits_calls, WantIsTried]

theorem triedWrite_iff (s : Pipe) (e : TlsId) (cs : List BioCall) :
    s.WantIsTried (.tls e cs .wantWrite) ↔ ¬ (s.calls cs).ReaderWaits := by
  simp [readerWaits_calls, WantIsTried, and_comm]

/-- A TLS task runs: some calls, then it is done or leaves its event. -/
theorem Inv.tls (h : s.Inv w) {cs : List BioCall} {verdict : Verdict}
    (he : (s.tls e).stage ≠ .suspended) (hwant : w → s.WantIsTried (.tls e cs verdict)) :
    ((s.calls cs).doTlsIo e verdict).Inv w := by
  have hcalls := h.calls cs
  have hfree : (s.calls cs).Free e := hcalls.free (by rwa [calls_tls])
  cases verdict with
  | wantRead =>
    refine hcalls.awaitRead hfree fun hw => ?_
    rw [Ne, ← hcalls.write.waits_iff]
    exact (h.triedRead_iff e cs).mp (hwant hw)
  | wantWrite => exact hcalls.awaitWrite hfree fun hw => (triedWrite_iff s e cs).mp (hwant hw)
  | done => exact hcalls.finishTls e

/-! ### Runs -/

theorem Inv.step {a : PipeOp} (h : s.Inv w) (hwant : w → s.WantIsTried a) (ht : s.step a = some t) :
    t.Inv w := by
  cases a with
  | call c =>
    obtain rfl := Option.some.inj ht
    exact h.call c
  | tls e cs verdict =>
    obtain ⟨he, ht⟩ := Option.ite_none_left_eq_some.mp ht
    obtain rfl := Option.some.inj ht
    exact h.tls he hwant
  | cancelTls e =>
    obtain ⟨-, ht⟩ := Option.ite_none_right_eq_some.mp ht
    obtain rfl := Option.some.inj ht
    exact h.finishTls e
  | read i =>
    obtain ⟨hidle, ht⟩ := Option.ite_none_right_eq_some.mp ht
    have hw : (s.startRead i).WriteSide w :=
      h.write.congr rfl (fun _ _ => ⟨rfl, id⟩) (fun _ _ => rfl) rfl rfl rfl
    exact (h.read.start hidle i).poll hw ht
  | runRead =>
    obtain ⟨-, ht⟩ := Option.ite_none_right_eq_some.mp ht
    obtain ⟨i, hi, -⟩ := Option.map_eq_some_iff.mp ht
    exact (h.read.polled hi).poll h.write ht
  | cancelRead =>
    obtain ⟨i, hi, rfl⟩ := Option.map_eq_some_iff.mp ht
    exact ⟨(h.read.polled hi).finish,
      h.write.congr rfl (fun _ _ => ⟨rfl, id⟩) (fun _ _ => rfl) rfl rfl rfl⟩
  | write i =>
    obtain ⟨hidle, ht⟩ := Option.ite_none_right_eq_some.mp ht
    have hr : (s.startWrite i).ReadSide w :=
      h.read.congr rfl (fun _ _ => ⟨rfl, rfl⟩) (fun _ _ => rfl) rfl rfl rfl
    exact (h.write.start hidle i).poll hr ht
  | runWrite =>
    obtain ⟨-, ht⟩ := Option.ite_none_right_eq_some.mp ht
    obtain ⟨i, hi, -⟩ := Option.map_eq_some_iff.mp ht
    exact (h.write.polled hi).poll h.read ht
  | cancelWrite =>
    obtain ⟨i, hi, rfl⟩ := Option.map_eq_some_iff.mp ht
    exact ⟨h.read.congr rfl (fun _ _ => ⟨rfl, rfl⟩) (fun _ _ => rfl) rfl rfl rfl,
      (h.write.polled hi).finish⟩
  | touch i view =>
    obtain ⟨hnone, ht⟩ := Option.ite_none_left_eq_some.mp ht
    obtain rfl := Option.some.inj ht
    obtain ⟨hr, hw⟩ := not_or.mp hnone
    refine ⟨h.read.congr rfl (fun j hj => ?_) (fun _ _ => rfl) rfl rfl rfl,
      h.write.congr rfl (fun j hj => ?_) (fun _ _ => rfl) rfl rfl rfl⟩
    · have hne : j ≠ i := fun hji => hr (hji ▸ hj)
      simp [hne]
    · have hne : j ≠ i := fun hji => hw (hji ▸ hj)
      simp [hne]

theorem init_inv (views : ViewId → BufferView) : Inv w { views } :=
  ⟨⟨by simp, by simp, by simp, by simp, rfl⟩, by simp, by simp, by simp, by simp, by simp, rfl⟩

/-- What the callbacks have taken is what the transport has found in its views and will find there, and
    what they have given is what it has found gone and will. -/
structure Piped (s : Pipe) : Prop where
  accepted : s.accepted = s.received ++ s.arrived
  returned : s.returned = s.sent ++ s.leaving

/-- A transport that is suspended on a view that OpenSSL could use is not waited for either. -/
structure Faithful (s : Pipe) : Prop extends s.Piped where
  write_awake : ¬ (s.WriterWaits ∧ s.write.pendingRead ≠ none)
  read_awake : ¬ (s.ReaderWaits ∧ s.read.pendingWrite ≠ none)

theorem Inv.piped (h : s.Inv w) : s.Piped := ⟨h.read.bytes, h.write.bytes⟩

theorem Inv.faithful (h : s.Inv True) : s.Faithful := by
  refine ⟨h.piped, ?_, ?_⟩
  · rintro ⟨⟨hs, -⟩, hne⟩
    exact hne (h.write.wait trivial hs)
  · rintro ⟨⟨hs, i, hi, hcap⟩, hne⟩
    exact (h.read.wait trivial i hi hs).elim hne hcap

/-- A task that waits for what it has not tried is not woken. -/
theorem Inv.untried {a : PipeOp} (h : s.Inv True) (hwant : ¬ s.WantIsTried a)
    (ht : s.step a = some t) : ¬ t.Faithful := by
  cases a with
  | tls e cs verdict =>
    obtain ⟨-, ht⟩ := Option.ite_none_left_eq_some.mp ht
    obtain rfl := Option.some.inj ht
    have hcalls := h.calls cs
    cases verdict with
    | wantRead =>
      have hwaits : (s.calls cs).WriterWaits := by
        rwa [h.triedRead_iff e cs, not_not] at hwant
      have hslot := hcalls.write.wait trivial hwaits.1
      rcases awaitRead_cases (s.calls cs) e with ⟨hne, -⟩ | ⟨-, hawait⟩
      · exact absurd hslot hne
      · intro hfaithful
        rw [doTlsIo, hawait] at hfaithful
        exact hfaithful.write_awake ⟨hwaits, by simp⟩
    | wantWrite =>
      have hwaits : (s.calls cs).ReaderWaits := by
        rwa [triedWrite_iff s e cs, not_not] at hwant
      obtain ⟨hs, i, hi, hcap⟩ := hwaits
      have hslot := (hcalls.read.wait trivial i hi hs).resolve_right hcap
      rcases awaitWrite_cases (s.calls cs) e with ⟨hne, -⟩ | ⟨-, hawait⟩
      · exact absurd hslot hne
      · intro hfaithful
        rw [doTlsIo, hawait] at hfaithful
        exact hfaithful.read_awake ⟨⟨hs, i, hi, hcap⟩, by simp⟩
    | done => exact absurd trivial hwant
  | _ => exact absurd trivial hwant

/-- In every state of every run the stream is a faithful pipe. Nobody misses a wake-up in the whole run
    if and only if OpenSSL has always tried what it waits for. -/
theorem pipe_faithful_iff (views : ViewId → BufferView) (as : List PipeOp)
    (hrun : exec { views } as = some t) :
    Always step Piped { views } as ∧
      (Always step Faithful { views } as ↔ Meets step WantIsTried { views } as) := by
  constructor
  · exact always_of_meets (fun _ _ _ h _ ht => h.step (w := False) False.elim ht)
      (fun _ h => h.piped) as _ (init_inv views) (meets_true as _)
  · exact always_iff_meets (fun _ _ _ h ha ht => h.step (fun _ => ha) ht) (fun _ h => h.faithful)
      (fun _ _ _ h ha ht => h.untried ha ht) as _ t hrun (init_inv views)

/-- A task waits for three bytes, takes them in two calls and waits again. -/
theorem pipe_faithful_iff_hello :
    ∃ t, exec { views := fun _ => { window := [22, 3, 1], capacity := 125 } }
        [.tls 0 [.read 5] .wantRead, .write 7, .tls 0 [.read 2, .read 9, .read 5] .wantRead,
          .runWrite] = some t ∧
      t.sent = [22, 3, 1] ∧ t.write.pendingRead = some 0 ∧ t.Faithful := by
  have hrun : (exec { views := fun _ => { window := [22, 3, 1], capacity := 125 } }
      [.tls 0 [.read 5] .wantRead, .write 7, .tls 0 [.read 2, .read 9, .read 5] .wantRead,
        .runWrite]).map (fun t => (t.sent, t.write.pendingRead)) = some ([22, 3, 1], some 0) := by decide
  obtain ⟨t, ht, hseen⟩ := Option.map_eq_some_iff.mp hrun
  obtain ⟨hsent, hevent⟩ := Prod.mk.inj hseen
  refine ⟨t, ht, hsent, hevent, ((pipe_faithful_iff _ _ ht).2.mpr ?_).last ht⟩
  refine ⟨fun _ => ⟨5, by simp⟩, fun _ _ => ⟨trivial, fun _ _ => ?_⟩⟩
  exact ⟨fun _ => ⟨2, by simp⟩, fun _ _ => ⟨trivial, fun _ _ => trivial⟩⟩

/-- OpenSSL takes two of three bytes and has them still when the transport waits again. A task that is
    told to wait now waits for a byte that is there. -/
theorem pipe_unprocessed_unfaithful :
    ∃ t, exec { views := fun _ => { window := [22, 3, 1], capacity := 125 } }
        [.write 7, .call (.read 2), .runWrite, .tls 0 [] .wantRead] = some t ∧
      t.write.stage = .suspended ∧ t.write.pendingRead = some 0 ∧ (t.views 7).window = [1] ∧
      ¬ t.Faithful := by
  have hrun : (exec { views := fun _ => { window := [22, 3, 1], capacity := 125 } }
      [.write 7, .call (.read 2), .runWrite, .tls 0 [] .wantRead]).map
      (fun t => (t.write, (t.views 7).window)) = some (⟨some 0, some 7, .suspended⟩, [1]) := by decide
  obtain ⟨t, ht, hseen⟩ := Option.map_eq_some_iff.mp hrun
  obtain ⟨hwrite, hwindow⟩ := Prod.mk.inj hseen
  refine ⟨t, ht, by rw [hwrite], by rw [hwrite], hwindow, fun hfaithful => ?_⟩
  exact hfaithful.write_awake ⟨⟨by rw [hwrite], 7, by rw [hwrite], by simp [BufferView.size, hwindow]⟩,
    by simp [hwrite]⟩

end Pipe

end Jinx.OpenSSL
