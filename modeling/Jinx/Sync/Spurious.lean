import Jinx.Await.Join
import Jinx.Sync.BufferPool
import Jinx.Sync.Lock
import Jinx.Sync.Queue

/-! Resumes that nobody has asked for.

    `Wait::schedule` resumes its owner for every event of a branch, also while the owner is in
    another awaitable. The awaitable is then polled again before what it waits for has happened.
    `Get`, `Put` and `Allocate` try to link themselves a second time, which their list refuses;
    `AsyncLock` knows only two states and takes itself for the owner; `AsyncJoin` adds its hook
    again. Each of the systems may be resumed in this way at any time (`Runs.withInput`). -/

namespace Jinx.Sync

open Runs

/-! ### `AsyncLock` -/

namespace Lock

variable {s t : Lock} {i j : Id}

/-- `Task::resume` of the task that is in the `AsyncLock`. -/
def resume (s : Lock) (i : Id) : Lock := s.modify i fun a => { a with stage := a.stage.resume }

/-- The waiters are to be polled by `locked`, except perhaps `i`. -/
def WaitsBut (i : Id) (s : Lock) : Prop :=
  ∀ j, j ≠ i → (s.aw j).stage = .suspended → (s.aw j).fn = some .locked

/-- The waiters are to be polled by `locked`. -/
def Waits (s : Lock) : Prop := ∀ i, (s.aw i).stage = .suspended → (s.aw i).fn = some .locked

theorem Waits.but (h : s.Waits) (i : Id) : s.WaitsBut i := fun j _ => h j

theorem WaitsBut.modify {f : AsyncLock → AsyncLock} (h : s.WaitsBut i) :
    (s.modify i f).WaitsBut i := by
  intro j hj
  simpa [Lock.modify, hj] using h j hj

/-- The record of `i` is in order again. -/
theorem WaitsBut.waits {f : AsyncLock → AsyncLock} (h : s.WaitsBut i)
    (hi : (f (s.aw i)).stage = .suspended → (f (s.aw i)).fn = some .locked) :
    (s.modify i f).Waits := by
  intro j
  by_cases hji : j = i
  · subst hji
    simpa [Lock.modify] using hi
  · simpa [Lock.modify, hji] using h j hji

theorem WaitsBut.leave (h : s.WaitsBut i) {st : Stage} (hst : st ≠ .suspended) :
    (s.modify i fun a => { a with stage := st }).Waits :=
  h.waits fun hs => absurd hs hst

theorem WaitsBut.asyncFinalize (h : s.WaitsBut i) : (s.asyncFinalize i).WaitsBut i := by
  unfold Lock.asyncFinalize
  dsimp only
  split
  · have h' : WaitsBut i
        { s with lock := s.lock - 1, pendingAws := (LinkedList.erase s.pendingAws i).1 } := h
    exact h'.modify
  · exact h.modify

/-- Every answer leaves the record in order. -/
theorem WaitsBut.asyncPoll {r : Lock × Async} (h : s.WaitsBut i) (hr : s.asyncPoll i = some r) :
    (answer i r).Waits := by
  have hlock : WaitsBut i { s with lock := s.lock + 1 } := h
  unfold Lock.asyncPoll at hr
  split at hr
  · cases hr
  · obtain rfl := Option.some.inj hr
    unfold tryLock
    dsimp only
    split
    · exact hlock.modify.asyncFinalize.leave (by simp)
    split
    · exact hlock.modify.asyncFinalize.leave (by simp)
    · rename_i l _
      have hpush : WaitsBut i { s with lock := s.lock + 1, pendingAws := l } := h
      have hlocked := hpush.modify (f := fun a => { a with fn := some .locked })
      exact hlocked.waits (f := fun a => { a with stage := .suspended }) fun _ => by simp [Lock.modify]
  · obtain rfl := Option.some.inj hr
    exact h.modify.asyncFinalize.leave (by simp)

theorem Waits.wake (h : s.Waits) (j : Id) : (s.wake j).1.Waits := by
  unfold Lock.wake
  split
  · exact (h.but j).leave (by simp)
  · exact h

theorem Waits.release (h : s.Waits) (ht : s.release i = some t) : t.Waits := by
  obtain ⟨u, hu, rfl⟩ := Option.map_eq_some_iff.mp ht
  refine WaitsBut.leave (Waits.but ?_ i) (by simp)
  have hlock : Waits { s with lock := s.lock - 1 } := h
  unfold unlock at hu
  dsimp only at hu
  split at hu
  · obtain rfl := Option.some.inj hu
    exact hlock
  split at hu
  · cases hu
  · rename_i j rest _
    obtain rfl := Option.some.inj hu
    have hwake := hlock.wake j
    exact hwake

theorem Waits.step {a : LockOp} (h : s.Waits) (ht : s.step a = some t) : t.Waits := by
  cases a with
  | acquire i =>
    simp only [Lock.step, Option.ite_none_right_eq_some, Option.map_eq_some_iff] at ht
    obtain ⟨-, r, hr, rfl⟩ := ht
    exact (h.but i).modify.asyncPoll hr
  | run i =>
    simp only [Lock.step, Option.ite_none_right_eq_some, Option.map_eq_some_iff] at ht
    obtain ⟨-, r, hr, rfl⟩ := ht
    exact (h.but i).asyncPoll hr
  | unlock i =>
    simp only [Lock.step, Option.ite_none_right_eq_some] at ht
    exact h.release ht.2
  | cancel i =>
    simp only [Lock.step, Option.ite_none_right_eq_some, Option.some.injEq] at ht
    obtain ⟨-, rfl⟩ := ht
    exact (h.but i).asyncFinalize.leave (by simp)

theorem Waits.resume (h : s.Waits) (i : Id) : (s.resume i).Waits :=
  (h.but i).waits fun hs => absurd hs (Stage.resume_ne _)

theorem init_waits : init.Waits := by simp [Waits, init]

/-- The waiter takes itself for the owner. -/
theorem Waits.repoll (h : s.Waits) (hi : (s.aw i).stage = .suspended) :
    ∃ t, (s.resume i).asyncPoll i = some (t, .returned) := by
  have hfn : ((s.resume i).aw i).fn = some .locked := by
    simpa [Lock.resume, Lock.modify] using h i hi
  refine ⟨((s.resume i).locked i).1, ?_⟩
  rw [Lock.asyncPoll, hfn]
  rfl

end Lock

/-! ### `Get` and `Put` -/

namespace Queue

variable {α : Type*} {k : QueueKind} {s t u : Queue α} {i j g p : Id} {v : α}

/-- `Task::resume` of the task that is in the `Get`. -/
def resumeGet (s : Queue α) (i : Id) : Queue α :=
  s.modifyGet i fun x => { x with stage := x.stage.resume }

/-- `Task::resume` of the task that is in the `Put`. -/
def resumePut (s : Queue α) (i : Id) : Queue α :=
  s.modifyPut i fun x => { x with stage := x.stage.resume }

/-- Of a `Get` or of a `Put`. -/
def resume (s : Queue α) : Id ⊕ Id → Queue α
  | .inl i => s.resumeGet i
  | .inr i => s.resumePut i

/-- The suspended `Get`s and `Put`s are in their lists. -/
structure Linked (s : Queue α) : Prop where
  get : ∀ i, (s.get i).stage = .suspended → i ∈ s.pendingGet
  put : ∀ i, (s.put i).stage = .suspended → i ∈ s.pendingPut

/-- Those of `t` that are suspended are so in `s`, and none of them has left its list, except
    perhaps the `Get` `g` and the `Put` `p`. -/
structure Leaves (s t : Queue α) (g p : Option Id) : Prop where
  get : ∀ i, some i ≠ g → (t.get i).stage = .suspended →
    (s.get i).stage = .suspended ∧ (i ∈ s.pendingGet → i ∈ t.pendingGet)
  put : ∀ i, some i ≠ p → (t.put i).stage = .suspended →
    (s.put i).stage = .suspended ∧ (i ∈ s.pendingPut → i ∈ t.pendingPut)

theorem Leaves.refl (s : Queue α) (g p : Option Id) : Leaves s s g p :=
  ⟨fun _ _ h => ⟨h, id⟩, fun _ _ h => ⟨h, id⟩⟩

theorem Leaves.trans {g p : Option Id} (h : Leaves s t g p) (h' : Leaves t u g p) :
    Leaves s u g p where
  get i hi hu := by
    obtain ⟨ht, hmem⟩ := h'.get i hi hu
    exact ⟨(h.get i hi ht).1, fun hs => hmem ((h.get i hi ht).2 hs)⟩
  put i hi hu := by
    obtain ⟨ht, hmem⟩ := h'.put i hi hu
    exact ⟨(h.put i hi ht).1, fun hs => hmem ((h.put i hi ht).2 hs)⟩

/-- Records, lists and nothing else. -/
theorem Leaves.of_eq {g p : Option Id} (hget : t.get = s.get) (hput : t.put = s.put)
    (hpg : t.pendingGet = s.pendingGet) (hpp : t.pendingPut = s.pendingPut) : Leaves s t g p where
  get i _ h := ⟨by rwa [hget] at h, by rw [hpg]; exact id⟩
  put i _ h := ⟨by rwa [hput] at h, by rw [hpp]; exact id⟩

theorem Linked.leaves (h : s.Linked) (hl : Leaves s t none none) : t.Linked where
  get i hi := by
    obtain ⟨hs, hmem⟩ := hl.get i (by simp) hi
    exact hmem (h.get i hs)
  put i hi := by
    obtain ⟨hs, hmem⟩ := hl.put i (by simp) hi
    exact hmem (h.put i hs)

/-- A `Get` is served: it is the last of its list, or it is `i`. -/
theorem Leaves.emplaceGet (s : Queue α) (g : Id) (v : α) (p : Option Id) :
    Leaves s (s.emplaceGet g v) none p where
  get i _ h := by
    by_cases hig : i = g
    · subst hig
      exact absurd (by simpa [Queue.emplaceGet, modifyGet, emit] using h) (Stage.resume_ne _)
    · exact ⟨by simpa [Queue.emplaceGet, modifyGet, emit, hig] using h, id⟩
  put _ _ h := ⟨h, id⟩

theorem Leaves.emplacePut (s : Queue α) (p : Id) (v : α) (g : Option Id) :
    Leaves s (s.emplacePut p v) g none where
  get _ _ h := ⟨h, id⟩
  put i _ h := by
    by_cases hip : i = p
    · subst hip
      exact absurd (by simpa [Queue.emplacePut, modifyPut, emit] using h) (Stage.resume_ne _)
    · exact ⟨by simpa [Queue.emplacePut, modifyPut, emit, hip] using h, id⟩

/-- The last of a list leaves it. -/
theorem Leaves.dropGet (s : Queue α) (hg : s.pendingGet.getLast? = some g) (p : Option Id) :
    Leaves s { s with pendingGet := s.pendingGet.dropLast } (some g) p where
  get i hi h := by
    refine ⟨h, fun hmem => ?_⟩
    have hig : i ≠ g := fun hc => hi (congrArg some hc)
    rcases List.eq_nil_or_concat s.pendingGet with hnil | ⟨l, x, hl⟩
    · simp [hnil] at hmem
    · obtain rfl : x = g := by simpa [hl] using hg
      simpa [hl, hig] using hmem
  put _ _ h := ⟨h, id⟩

theorem Leaves.dropPut (s : Queue α) (hp : s.pendingPut.getLast? = some p) (g : Option Id) :
    Leaves s { s with pendingPut := s.pendingPut.dropLast } g (some p) where
  get _ _ h := ⟨h, id⟩
  put i hi h := by
    refine ⟨h, fun hmem => ?_⟩
    have hip : i ≠ p := fun hc => hi (congrArg some hc)
    rcases List.eq_nil_or_concat s.pendingPut with hnil | ⟨l, x, hl⟩
    · simp [hnil] at hmem
    · obtain rfl : x = p := by simpa [hl] using hp
      simpa [hl, hip] using hmem

/-- A `Get` that is not suspended need not be in the list. -/
theorem Leaves.closeGet {p : Option Id} (h : Leaves s t (some g) p)
    (hg : (t.get g).stage ≠ .suspended) : Leaves s t none p where
  get i _ hi := by
    refine h.get i (fun hig => ?_) hi
    obtain rfl := Option.some.inj hig
    exact hg hi
  put := h.put

theorem Leaves.closePut {g : Option Id} (h : Leaves s t g (some p))
    (hp : (t.put p).stage ≠ .suspended) : Leaves s t g none where
  get := h.get
  put i _ hi := by
    refine h.put i (fun hip => ?_) hi
    obtain rfl := Option.some.inj hip
    exact hp hi

/-- Fewer exceptions. -/
theorem Leaves.weaken {g p : Option Id} (h : Leaves s t none none) : Leaves s t g p where
  get i _ := h.get i (by simp)
  put i _ := h.put i (by simp)

theorem emplaceGet_stage (s : Queue α) (g : Id) (v : α) :
    ((s.emplaceGet g v).get g).stage ≠ .suspended := by
  simpa [emplaceGet, modifyGet, emit] using Stage.resume_ne _

theorem emplacePut_stage (s : Queue α) (p : Id) (v : α) :
    ((s.emplacePut p v).put p).stage ≠ .suspended := by
  simpa [emplacePut, modifyPut, emit] using Stage.resume_ne _

/-- The `Get` that came last is served. -/
theorem Leaves.serveGet (hg : s.pendingGet.getLast? = some g) (v : α) :
    Leaves s ({ s with pendingGet := s.pendingGet.dropLast }.emplaceGet g v) none none :=
  ((Leaves.dropGet s hg none).trans (Leaves.emplaceGet _ g v none).weaken).closeGet
    (emplaceGet_stage _ g v)

/-- The `Put` that came last is served. -/
theorem Leaves.servePut (hp : s.pendingPut.getLast? = some p) (v : α) :
    Leaves s ({ s with pendingPut := s.pendingPut.dropLast }.emplacePut p v) none none :=
  ((Leaves.dropPut s hp none).trans (Leaves.emplacePut _ p v none).weaken).closePut
    (emplacePut_stage _ p v)

/-- A `Get` that is finalized. -/
theorem Leaves.leaveGet (h : Leaves s t none none) (i : Id) {st : Stage} (hst : st ≠ .suspended) :
    Leaves s ((t.finalizeGet i).modifyGet i fun x => { x with stage := st }) none none := by
  refine h.trans ⟨fun j _ hj => ?_, fun _ _ hj => ⟨hj, id⟩⟩
  by_cases hji : j = i
  · subst hji
    exact absurd (by simpa [modifyGet] using hj) hst
  · refine ⟨by simpa [modifyGet, finalizeGet, hji] using hj, fun hmem => ?_⟩
    simpa [modifyGet, finalizeGet] using (List.mem_erase_of_ne hji).mpr hmem

/-- A `Put` that is finalized. -/
theorem Leaves.leavePut (h : Leaves s t none none) (i : Id) {st : Stage} (hst : st ≠ .suspended) :
    Leaves s ((t.finalizePut i).modifyPut i fun x => { x with stage := st }) none none := by
  refine h.trans ⟨fun _ _ hj => ⟨hj, id⟩, fun j _ hj => ?_⟩
  by_cases hji : j = i
  · subst hji
    exact absurd (by simpa [modifyPut] using hj) hst
  · refine ⟨by simpa [modifyPut, finalizePut, hji] using hj, fun hmem => ?_⟩
    simpa [modifyPut, finalizePut] using (List.mem_erase_of_ne hji).mpr hmem

theorem Linked.pollGet {r : Queue α × Async} (h : s.Linked) (hr : s.pollGet i = some r) :
    (answerGet i r).Linked := by
  unfold Queue.pollGet at hr
  split at hr
  · obtain rfl := Option.some.inj hr
    exact h.leaves (Leaves.leaveGet (.refl s none none) i (by simp))
  split at hr
  · rename_i v rest _
    obtain rfl := Option.some.inj hr
    have hc : Leaves (s.emplaceGet i v) { s.emplaceGet i v with container := rest } none none :=
      .of_eq rfl rfl rfl rfl
    exact h.leaves (((Leaves.emplaceGet s i v none).trans hc).leaveGet i (by simp))
  split at hr
  · rename_i p hp
    obtain ⟨v, -, rfl⟩ := Option.map_eq_some_iff.mp hr
    have hserve := Leaves.servePut (s := s.emplaceGet i v) hp v
    exact h.leaves (((Leaves.emplaceGet s i v none).trans hserve).leaveGet i (by simp))
  split at hr
  · obtain rfl := Option.some.inj hr
    exact h.leaves (Leaves.leaveGet (.refl s none none) i (by simp))
  · rename_i l hl
    obtain rfl := Option.some.inj hr
    have hi : i ∉ s.pendingGet := by
      intro hmem
      simp [LinkedList.pushBack_of_mem hmem] at hl
    obtain rfl : s.pendingGet ++ [i] = l := by
      simpa [LinkedList.pushBack_of_not_mem hi] using hl
    refine ⟨fun j hj => ?_, h.put⟩
    by_cases hji : j = i
    · simp [answerGet, modifyGet, hji]
    · have hs : (s.get j).stage = .suspended := by simpa [answerGet, modifyGet, hji] using hj
      exact List.mem_append_left _ (h.get j hs)

theorem Linked.store {r : Queue α × Async} (h : s.Linked) (hr : s.store i = some r) :
    (answerPut i r).Linked := by
  unfold Queue.store at hr
  split at hr
  · split at hr
    · obtain rfl := Option.some.inj hr
      exact h.leaves (Leaves.leavePut (.refl s none none) i (by simp))
    · rename_i l hl
      obtain rfl := Option.some.inj hr
      have hi : i ∉ s.pendingPut := by
        intro hmem
        simp [LinkedList.pushBack_of_mem hmem] at hl
      obtain rfl : s.pendingPut ++ [i] = l := by
        simpa [LinkedList.pushBack_of_not_mem hi] using hl
      refine ⟨h.get, fun j hj => ?_⟩
      by_cases hji : j = i
      · simp [answerPut, modifyPut, hji]
      · have hs : (s.put j).stage = .suspended := by simpa [answerPut, modifyPut, hji] using hj
        exact List.mem_append_left _ (h.put j hs)
  · obtain ⟨v, -, rfl⟩ := Option.map_eq_some_iff.mp hr
    have hc : Leaves s { s with container := s.container ++ [v] } none none := .of_eq rfl rfl rfl rfl
    exact h.leaves ((hc.trans (.emplacePut _ i v none)).leavePut i (by simp))

theorem Linked.pollPut {r : Queue α × Async} (h : s.Linked) (hr : s.pollPut i = some r) :
    (answerPut i r).Linked := by
  unfold Queue.pollPut at hr
  split at hr
  · obtain rfl := Option.some.inj hr
    exact h.leaves (Leaves.leavePut (.refl s none none) i (by simp))
  split at hr
  · rename_i g hg
    obtain ⟨v, -, rfl⟩ := Option.map_eq_some_iff.mp hr
    exact h.leaves (((Leaves.serveGet hg v).trans (.emplacePut _ i v none)).leavePut i (by simp))
  · exact h.store hr

/-- The loop goes through the list from its back. -/
theorem Linked.serve {r : Queue α × Async} (gs : List Id) (h : s.Linked)
    (hgs : s.pendingGet.reverse = gs) (hr : s.serve i gs = some r) : (answerPut i r).Linked := by
  induction gs generalizing s with
  | nil => exact h.store hr
  | cons g gs ih =>
    have hlist : s.pendingGet = gs.reverse ++ [g] := by
      rw [← s.pendingGet.reverse_reverse, hgs, List.reverse_cons]
    have hg : s.pendingGet.getLast? = some g := by simp [hlist]
    simp only [Queue.serve] at hr
    split at hr
    · obtain ⟨v, -, rfl⟩ := Option.map_eq_some_iff.mp hr
      exact h.leaves (((Leaves.serveGet hg v).trans (.emplacePut _ i v none)).leavePut i (by simp))
    · rename_i v rest _
      have hc : Leaves ({ s with pendingGet := s.pendingGet.dropLast }.emplaceGet g v)
          { { s with pendingGet := s.pendingGet.dropLast }.emplaceGet g v with container := rest }
          none none := .of_eq rfl rfl rfl rfl
      refine ih (h.leaves ((Leaves.serveGet hg v).trans hc)) ?_ hr
      simp [Queue.emplaceGet, modifyGet, emit, hlist]

theorem Linked.asyncPollPut {r : Queue α × Async} (h : s.Linked)
    (hr : asyncPollPut k s i = some r) : (answerPut i r).Linked := by
  cases k with
  | queue => exact h.pollPut hr
  | queue2 =>
    simp only [Queue.asyncPollPut, pollPut2] at hr
    split at hr
    · obtain rfl := Option.some.inj hr
      exact h.leaves (Leaves.leavePut (.refl s none none) i (by simp))
    · exact h.serve _ rfl hr

/-- A record is written, and its task is not suspended by that. -/
theorem Leaves.modifyGet {f : Get α → Get α} (s : Queue α) (i : Id)
    (hf : (f (s.get i)).stage = .suspended → (s.get i).stage = .suspended) :
    Leaves s (s.modifyGet i f) none none := by
  refine ⟨fun j _ hj => ⟨?_, id⟩, fun _ _ hj => ⟨hj, id⟩⟩
  by_cases hji : j = i
  · subst hji
    exact hf (by simpa [Queue.modifyGet] using hj)
  · simpa [Queue.modifyGet, hji] using hj

theorem Leaves.modifyPut {f : Put α → Put α} (s : Queue α) (i : Id)
    (hf : (f (s.put i)).stage = .suspended → (s.put i).stage = .suspended) :
    Leaves s (s.modifyPut i f) none none := by
  refine ⟨fun _ _ hj => ⟨hj, id⟩, fun j _ hj => ⟨?_, id⟩⟩
  by_cases hji : j = i
  · subst hji
    exact hf (by simpa [Queue.modifyPut] using hj)
  · simpa [Queue.modifyPut, hji] using hj

theorem Linked.step {a : QueueOp α} (h : s.Linked) (ht : step k s a = some t) : t.Linked := by
  have hcases := step_cases ht
  cases a with
  | put i v =>
    obtain ⟨-, r, hr, rfl⟩ := hcases
    have hpolled : Leaves (s.operatorPut i v) ((s.operatorPut i v).emit (.polled i v)) none none :=
      .of_eq rfl rfl rfl rfl
    exact (h.leaves ((Leaves.modifyPut s i id).trans hpolled)).asyncPollPut hr
  | get i =>
    obtain ⟨-, r, hr, rfl⟩ := hcases
    rw [asyncPollGet_eq] at hr
    exact (h.leaves (Leaves.modifyGet s i id)).pollGet hr
  | runPut i =>
    obtain ⟨-, r, hr, rfl⟩ := hcases
    exact h.asyncPollPut hr
  | runGet i =>
    obtain ⟨-, r, hr, rfl⟩ := hcases
    rw [asyncPollGet_eq] at hr
    exact h.pollGet hr
  | read i =>
    obtain ⟨-, v, -, rfl⟩ := hcases
    have hidle := Leaves.modifyGet (f := fun x => { x with stage := .idle }) s i (by simp)
    exact h.leaves (hidle.trans (.of_eq rfl rfl rfl rfl))
  | cancelPut i =>
    obtain ⟨-, rfl⟩ := hcases
    exact h.leaves (Leaves.leavePut (.refl s none none) i (by simp))
  | cancelGet i =>
    obtain ⟨-, rfl⟩ := hcases
    exact h.leaves (Leaves.leaveGet (.refl s none none) i (by simp))

theorem Linked.resume (h : s.Linked) (i : Id ⊕ Id) : (s.resume i).Linked := by
  cases i with
  | inl i =>
    exact h.leaves (Leaves.modifyGet (f := fun x => { x with stage := x.stage.resume }) s i
      fun hs => absurd hs (Stage.resume_ne _))
  | inr i =>
    exact h.leaves (Leaves.modifyPut (f := fun x => { x with stage := x.stage.resume }) s i
      fun hs => absurd hs (Stage.resume_ne _))

theorem init_linked (n : Int) : (init n : Queue α).Linked := by
  constructor <;> simp [init]

/-- A `Get` that still finds nothing throws. -/
theorem Linked.repollGet (h : s.Linked) (hi : (s.get i).stage = .suspended)
    (hres : (s.get i).result = none) (hc : s.container = []) (hp : s.pendingPut = []) :
    Queue.asyncPollGet k (s.resumeGet i) i =
      some (s.resumeGet i, .thrown ErrorQueue.pendingGetError.error) := by
  have hmem : i ∈ s.pendingGet := h.get i hi
  rw [asyncPollGet_eq]
  simp [Queue.pollGet, resumeGet, Queue.modifyGet, hres, hc, hp, LinkedList.pushBack_of_mem hmem]

/-- A `Put` that still finds no room throws. -/
theorem Linked.repollPut (h : s.Linked) (hi : (s.put i).stage = .suspended)
    (hres : (s.put i).result = false) (hf : s.full) (hg : s.pendingGet = []) :
    Queue.asyncPollPut k (s.resumePut i) i =
      some (s.resumePut i, .thrown ErrorQueue.pendingPutError.error) := by
  have hmem : i ∈ s.pendingPut := h.put i hi
  have hstarve : (s.resumePut i).pendingGet ≠ [] → (s.resumePut i).container = [] := by
    simp [resumePut, Queue.modifyPut, hg]
  rw [asyncPollPut_eq hstarve]
  simp [Queue.pollPut, Queue.store, resumePut, Queue.modifyPut, hres, hf, hg, LinkedList.pushBack_of_mem hmem]

end Queue

/-! ### `Allocate` -/

namespace BufferPool

variable {s t : BufferPool} {i : Id} {m : MemId} {mem : Bool}

/-- `Task::resume` of the task that is in the `Allocate`. -/
def resume (s : BufferPool) (i : Id) : BufferPool :=
  s.modify i fun a => { a with stage := a.stage.resume }

/-- The suspended requests are in the list. -/
def Linked (s : BufferPool) : Prop := ∀ i, (s.aw i).stage = .suspended → i ∈ s.pendingRequests

theorem Linked.congr (h : s.Linked) (haw : t.aw = s.aw)
    (hp : t.pendingRequests = s.pendingRequests) : t.Linked := by
  unfold Linked
  rw [haw, hp]
  exact h

/-- One record is written, and its task is not suspended by that. -/
theorem Linked.modify {f : Allocate → Allocate} (h : s.Linked)
    (hf : (f (s.aw i)).stage = .suspended → (s.aw i).stage = .suspended) : (s.modify i f).Linked := by
  intro j hj
  by_cases hji : j = i
  · subst hji
    exact h j (hf (by simpa [BufferPool.modify] using hj))
  · exact h j (by simpa [BufferPool.modify, hji] using hj)

/-- A request that leaves the list is not suspended afterwards. -/
theorem Linked.unlink {f : Allocate → Allocate} (h : s.Linked)
    (hf : (f (s.aw i)).stage ≠ .suspended) :
    ({ s with pendingRequests := (LinkedList.erase s.pendingRequests i).1 }.modify i f).Linked := by
  intro j hj
  by_cases hji : j = i
  · subst hji
    exact absurd (by simpa [BufferPool.modify] using hj) hf
  · have hs := h j (by simpa [BufferPool.modify, hji] using hj)
    simpa [BufferPool.modify] using (List.mem_erase_of_ne hji).mpr hs

theorem Linked.release (h : s.Linked) (ht : s.release m = some t) : t.Linked := by
  unfold BufferPool.release at ht
  split at ht
  · obtain ⟨u, hu, rfl⟩ := Option.map_eq_some_iff.mp ht
    obtain ⟨haw, hp⟩ := firstRef_frame hu
    exact (h.congr haw hp).unlink (Stage.resume_ne _)
  · split at ht <;> obtain rfl := Option.some.inj ht <;> exact h

theorem Linked.unref (h : s.Linked) (ht : s.unref m = some t) : t.Linked := by
  unfold BufferPool.unref at ht
  dsimp only at ht
  have h' : Linked { s with refc := Function.update s.refc m (s.refc m - 1) } := h
  split at ht
  · exact h'.release ht
  · obtain rfl := Option.some.inj ht
    exact h'

theorem Linked.shrink (n : Nat) (h : s.Linked) (ht : s.shrink n = some t) : t.Linked := by
  induction n generalizing s with
  | zero =>
    obtain rfl := Option.some.inj ht
    exact h
  | succ n ih =>
    unfold BufferPool.shrink at ht
    split at ht
    · obtain rfl := Option.some.inj ht
      exact h
    · rename_i m rest _
      split at ht
      · obtain ⟨u, hu, ht⟩ := Option.bind_eq_some_iff.mp ht
        have h' : Linked { s with reserveBuffers := rest } := h
        exact ih (h'.release hu) ht
      · obtain rfl := Option.some.inj ht
        exact h

theorem Linked.grow (grants : Nat) (h : s.Linked) : (s.grow grants).Linked := by
  induction grants generalizing s with
  | zero => exact h
  | succ grants ih =>
    unfold BufferPool.grow
    split
    · exact ih h
    · exact h

theorem init_linked (reserve : Nat) (limit : UInt64) (grants : Nat) :
    (init reserve limit grants).Linked := Linked.grow grants fun i hi => by simp at hi

/-- An `Allocate` is finalized. -/
theorem Linked.leave (h : s.Linked) {st : Stage} (hst : st ≠ .suspended) :
    ((s.asyncFinalize i).modify i fun a => { a with stage := st }).Linked := by
  intro j hj
  by_cases hji : j = i
  · subst hji
    exact absurd (by simpa [BufferPool.modify] using hj) hst
  unfold asyncFinalize at hj ⊢
  split at hj
  · rename_i hpool
    rw [if_pos hpool]
    have hs := h j (by simpa [BufferPool.modify, hji] using hj)
    simpa [BufferPool.modify] using (List.mem_erase_of_ne hji).mpr hs
  · rename_i hpool
    rw [if_neg hpool]
    exact h j (by simpa [BufferPool.modify, hji] using hj)

theorem Linked.asyncPoll {r : BufferPool × Async} (h : s.Linked)
    (hr : s.asyncPoll i mem = some r) : (answer i r).Linked := by
  unfold BufferPool.asyncPoll at hr
  split at hr
  · obtain rfl := Option.some.inj hr
    exact h.leave (by simp)
  obtain ⟨⟨u, o⟩, hu, rfl⟩ := Option.map_eq_some_iff.mp hr
  obtain ⟨haw, hp⟩ := allocate_frame hu
  have h' : u.Linked := h.congr haw hp
  cases o with
  | some m => exact (h'.modify (f := fun a => { a with result := some m }) id).leave (by simp)
  | none =>
    dsimp only
    split
    · exact h'.leave (by simp)
    · rename_i l hl
      have hi : i ∉ u.pendingRequests := by
        intro hmem
        simp [LinkedList.pushBack_of_mem hmem] at hl
      obtain rfl : u.pendingRequests ++ [i] = l := by
        simpa [LinkedList.pushBack_of_not_mem hi] using hl
      intro j hj
      by_cases hji : j = i
      · simp [answer, BufferPool.modify, hji]
      · have hs : (u.aw j).stage = .suspended := by
          simpa [answer, BufferPool.modify, hji] using hj
        exact List.mem_append_left _ (h' j hs)

theorem Linked.operator (h : s.Linked) (ht : s.operator i = some t) : t.Linked := by
  have hpool := h.modify (f := fun a => { a with pool := true }) (i := i) id
  unfold BufferPool.operator at ht
  dsimp only at ht
  split at ht
  · obtain rfl := Option.some.inj ht
    exact hpool
  · exact (hpool.modify (f := fun a => { a with result := none }) (i := i) id).unref ht

theorem Linked.step {a : PoolOp} (h : s.Linked) (ht : s.step a = some t) : t.Linked := by
  have hcases := step_cases ht
  cases a with
  | allocate mem =>
    obtain ⟨r, hu⟩ := hcases
    obtain ⟨haw, hp⟩ := allocate_frame hu
    exact h.congr haw hp
  | copy m =>
    obtain ⟨-, rfl⟩ := hcases
    exact h
  | drop m => exact h.unref hcases.2
  | request i mem =>
    obtain ⟨-, u, r, hu, hr, rfl⟩ := hcases
    exact (h.operator hu).asyncPoll hr
  | run i mem =>
    obtain ⟨-, r, hr, rfl⟩ := hcases
    exact h.asyncPoll hr
  | cancel i =>
    obtain ⟨-, rfl⟩ := hcases
    exact h.leave (by simp)
  | take i =>
    obtain ⟨-, rfl⟩ := hcases
    exact h.modify (by simp)
  | reconfigure reserve limit grants =>
    obtain ⟨u, hu, rfl⟩ := Option.map_eq_some_iff.mp ht
    have h' : Linked { s with reserve := reserve, limit := limit } := h
    exact Linked.grow grants (h'.shrink _ hu)

theorem Linked.resume (h : s.Linked) (i : Id) : (s.resume i).Linked :=
  h.modify fun hs => absurd hs (Stage.resume_ne _)

/-- An `Allocate` for which there is still no buffer throws. -/
theorem Linked.repoll (h : s.Linked) (hi : (s.aw i).stage = .suspended)
    (hres : (s.aw i).result = none) (ha : (s.resume i).allocate mem = some (t, none)) :
    (s.resume i).asyncPoll i mem =
      some (t, .thrown ErrorAllocate.registerAllocateError.error) := by
  have hmem : i ∈ t.pendingRequests := by
    rw [(allocate_frame ha).2]
    exact h i hi
  have hnone : ((s.resume i).aw i).result = none := by simpa [BufferPool.resume, BufferPool.modify] using hres
  simp [BufferPool.asyncPoll, hnone, ha, LinkedList.pushBack_of_mem hmem]

end BufferPool

/-! ### `AsyncJoin` -/

open Jinx.Await (Joins ObjId TargetId Machine)

namespace Join

/-- The hook is the entry already, and its own caller. -/
def Looped (m : Machine) (j : ObjId) : Prop :=
  m.entry = .obj j ∧ (m.obj j).task = true ∧ (m.obj j).caller = .obj j

/-- What a second `add_hook` leaves as it is. -/
theorem addHook_eq_self {m : Machine} {j : ObjId} : m.addHook j = m ↔ Looped m j := by
  constructor
  · intro h
    have hentry : m.entry = .obj j := by
      rw [← h]
      rfl
    have hobj : (m.addHook j).obj j = { m.obj j with task := true, caller := .obj j } := by
      simp [Machine.addHook, hentry, Machine.setCaller]
    rw [h] at hobj
    exact ⟨hentry, by rw [hobj], by rw [hobj]⟩
  · rintro ⟨hentry, htask, hcaller⟩
    have hobj : (m.addHook j).obj = m.obj := by
      funext i
      by_cases hi : i = j
      · subst hi
        simp only [Machine.addHook, hentry, Machine.setCaller, Machine.set_obj_self]
        rw [← htask, ← hcaller]
      · simp [Machine.addHook, hentry, Machine.setCaller, Machine.set_obj_ne _ _ hi]
    have hrest : m.addHook j = { m with obj := (m.addHook j).obj } := by
      simp [Machine.addHook, hentry, Machine.setCaller, Machine.set]
    rw [hrest, hobj]

variable {s : Joins} {j : ObjId}

theorem repoll_machine (hdone : (s.join j).done = false) :
    ((s.resume j).asyncPoll j).machine = s.machine ↔
      Looped (s.machine (s.join j).target) j := by
  have hmachine : ((s.resume j).asyncPoll j).machine =
      Function.update s.machine (s.join j).target ((s.machine (s.join j).target).addHook j) := by
    simp [Joins.asyncPoll, Joins.resume, Joins.modify, Joins.addHook, Joins.setMachine, hdone]
  rw [hmachine, Function.update_eq_self_iff]
  exact addHook_eq_self

end Join

/-! ### All of them -/

/-- A task in an awaitable, with what the awaitable belongs to; `mem` says whether the provider of
    the pool has memory. -/
inductive Awaiting (α : Type*) where
  | get (k : QueueKind) (s : Queue α) (i : Id)
  | put (k : QueueKind) (s : Queue α) (i : Id)
  | allocate (s : BufferPool) (i : Id) (mem : Bool)
  | lock (s : Lock) (i : Id)
  | join (hook : ObjId → Bool) (s : Joins) (j : ObjId)

namespace Awaiting

variable {α : Type*}

/-- The state is reached in some run, the task is suspended, and what it waits for has not
    happened. -/
def Blocked : Awaiting α → Prop
  | .get k s i =>
    (∃ n as, exec (withInput (Queue.step k) Queue.resume) (Queue.init n) as = some s) ∧
      (s.get i).stage = .suspended ∧ (s.get i).result = none ∧ s.container = [] ∧ s.pendingPut = []
  | .put k s i =>
    (∃ n as, exec (withInput (Queue.step k) Queue.resume) (Queue.init n) as = some s) ∧
      (s.put i).stage = .suspended ∧ (s.put i).result = false ∧ s.full ∧ s.pendingGet = []
  | .allocate s i mem =>
    (∃ n l g as, exec (withInput BufferPool.step BufferPool.resume) (BufferPool.init n l g) as = some s) ∧
      (s.aw i).stage = .suspended ∧ (s.aw i).result = none ∧
      ∃ t, (s.resume i).allocate mem = some (t, none)
  | .lock s i =>
    (∃ as, exec (withInput Lock.step Lock.resume) Lock.init as = some s) ∧
      (s.aw i).stage = .suspended
  | .join hook s j =>
    (∃ p as, Joins.exec hook (Joins.init p) as = some s) ∧
      (s.join j).stage = .suspended ∧ (s.join j).done = false

/-- The task is resumed and the awaitable polled: it suspends again and leaves everything as it
    is. -/
def Harmless : Awaiting α → Prop
  | .get k s i => Queue.asyncPollGet k (s.resumeGet i) i = some (s.resumeGet i, .suspended)
  | .put k s i => Queue.asyncPollPut k (s.resumePut i) i = some (s.resumePut i, .suspended)
  | .allocate s i mem => (s.resume i).asyncPoll i mem = some (s.resume i, .suspended)
  | .lock s i => (s.resume i).asyncPoll i = some (s.resume i, .suspended)
  | .join _ s j =>
    ((s.resume j).asyncPoll j).machine = s.machine ∧
      (((s.resume j).asyncPoll j).join j).stage = .suspended

/-- The awaitable is an `AsyncJoin` whose hook is the entry of the target and its own caller. -/
def Looped : Awaiting α → Prop
  | .join _ s j => Join.Looped (s.machine (s.join j).target) j
  | _ => False

/-- Only an `AsyncJoin` is left alone by such a resume, and only where an earlier one has made a loop
    of its hook. -/
theorem repoll_harmless_iff (a : Awaiting α) (h : a.Blocked) : a.Harmless ↔ a.Looped := by
  cases a with
  | get k s i =>
    obtain ⟨⟨n, as, hrun⟩, hi, hres, hc, hp⟩ := h
    have hlinked : s.Linked := withInput_invariant (fun _ _ _ hs ht => hs.step ht)
      (fun _ i hs => hs.resume i) as _ s hrun (Queue.init_linked n)
    refine iff_of_false (fun hsafe => ?_) id
    have hthrown := hlinked.repollGet (k := k) hi hres hc hp
    have hboth := hthrown.symm.trans hsafe
    simp at hboth
  | put k s i =>
    obtain ⟨⟨n, as, hrun⟩, hi, hres, hf, hg⟩ := h
    have hlinked : s.Linked := withInput_invariant (fun _ _ _ hs ht => hs.step ht)
      (fun _ i hs => hs.resume i) as _ s hrun (Queue.init_linked n)
    refine iff_of_false (fun hsafe => ?_) id
    have hthrown := hlinked.repollPut (k := k) hi hres hf hg
    have hboth := hthrown.symm.trans hsafe
    simp at hboth
  | allocate s i mem =>
    obtain ⟨⟨n, l, g, as, hrun⟩, hi, hres, t, ht⟩ := h
    have hlinked : s.Linked := withInput_invariant (fun _ _ _ hs ht => hs.step ht)
      (fun _ i hs => hs.resume i) as _ s hrun (BufferPool.init_linked n l g)
    refine iff_of_false (fun hsafe => ?_) id
    have hthrown := hlinked.repoll hi hres ht
    have hboth := hthrown.symm.trans hsafe
    simp at hboth
  | lock s i =>
    obtain ⟨⟨as, hrun⟩, hi⟩ := h
    have hwaits : s.Waits := withInput_invariant (fun _ _ _ hs ht => hs.step ht)
      (fun _ i hs => hs.resume i) as _ s hrun Lock.init_waits
    refine iff_of_false (fun hsafe => ?_) id
    obtain ⟨t, ht⟩ := hwaits.repoll hi
    have hboth := ht.symm.trans hsafe
    simp at hboth
  | join hook s j =>
    obtain ⟨-, -, hdone⟩ := h
    refine (and_iff_left ?_).trans (Join.repoll_machine hdone)
    simp [Joins.asyncPoll, Joins.resume, Joins.modify, hdone]

/-- The joiner `9` of a task that has not run yet, resumed twice. -/
def joinedTwice : Joins :=
  (Joins.exec (· == 9) (Joins.init fun _ _ => false)
    [.target 0 (.spawn 0), .await 9 0, .resume 9, .run 9]).getD (Joins.init fun _ _ => false)

theorem repoll_harmless_join :
    (join (α := Nat) (· == 9) joinedTwice 9).Harmless :=
  (repoll_harmless_iff (.join (· == 9) joinedTwice 9)
    ⟨⟨fun _ _ => false, [.target 0 (.spawn 0), .await 9 0, .resume 9, .run 9], rfl⟩, rfl, rfl⟩).mpr
    ⟨rfl, rfl, rfl⟩

/-- A `Get` in an empty queue, a `Put` in a full one, an `Allocate` in a pool without memory, the
    second `AsyncLock`, and an `AsyncJoin` that is resumed for the first time. -/
theorem repoll_not_harmless :
    (∃ s, (get (α := Nat) .queue s 0).Blocked ∧ ¬ (get (α := Nat) .queue s 0).Harmless) ∧
    (∃ s, (put (α := Nat) .queue s 1).Blocked ∧ ¬ (put (α := Nat) .queue s 1).Harmless) ∧
    (∃ s, (allocate (α := Nat) s 0 false).Blocked ∧ ¬ (allocate (α := Nat) s 0 false).Harmless) ∧
    (∃ s, (lock (α := Nat) s 1).Blocked ∧ ¬ (lock (α := Nat) s 1).Harmless) ∧
    ∃ s, (join (α := Nat) (· == 9) s 9).Blocked ∧ ¬ (join (α := Nat) (· == 9) s 9).Harmless := by
  refine ⟨⟨_, ⟨⟨1, [.inl (.get 0)], rfl⟩, rfl, rfl, rfl, rfl⟩, fun h => ?_⟩,
    ⟨_, ⟨⟨1, [.inl (.put 0 10), .inl (.put 1 20)], rfl⟩, rfl, rfl, rfl, rfl⟩, fun h => ?_⟩,
    ⟨_, ⟨⟨0, 0, 0, [.inl (.request 0 false)], rfl⟩, rfl, rfl, _, rfl⟩, fun h => ?_⟩,
    ⟨_, ⟨⟨[.inl (.acquire 0), .inl (.acquire 1)], rfl⟩, rfl⟩, fun h => ?_⟩,
    ⟨_, ⟨⟨fun _ _ => false, [.target 0 (.spawn 0), .await 9 0], rfl⟩, rfl, rfl⟩, fun h => ?_⟩⟩
  · exact absurd (congrArg (Option.map Prod.snd) h) (by decide)
  · exact absurd (congrArg (Option.map Prod.snd) h) (by decide)
  · exact absurd (congrArg (Option.map Prod.snd) h) (by decide)
  · exact absurd (congrArg (Option.map Prod.snd) h) (by decide)
  · have hcaller := congrArg (fun m : TargetId → Machine => ((m 0).obj 9).caller) h.1
    exact absurd hcaller (by decide)

end Awaiting

end Jinx.Sync
