import Jinx.Sync.Spurious

/-! What a queue keeps whatever happens to the tasks in it, and whether a `Put` waits while there is
    room.

    A task may be resumed by someone else while it waits, so that a `Get` or a `Put` which is in its list
    is polled again (`Queue.resume`). The lists, the values of the waiting `Put`s and the bound on the
    container do not depend on that. -/

namespace Jinx.Sync

theorem Get.Loose.resumed {α : Type*} {q : Prop} {x : Get α} (h : x.Loose q) :
    Get.Loose q { x with stage := x.stage.resume } where
  waiting hq := ⟨.inr (h.resume hq), (h.waiting hq).2⟩
  suspended hs := absurd hs (Stage.resume_ne _)
  scheduled hs := by
    obtain hx | hx := (Stage.resume_eq_scheduled _).mp hs
    · exact .inl (h.suspended hx)
    · exact h.scheduled hx

theorem Put.Loose.resumed {α : Type*} {q : Prop} {x : Put α} (h : x.Loose q) :
    Put.Loose q { x with stage := x.stage.resume } where
  waiting hq := ⟨.inr (h.resume hq), (h.waiting hq).2⟩
  suspended hs := absurd hs (Stage.resume_ne _)
  scheduled hs := by
    obtain hx | hx := (Stage.resume_eq_scheduled _).mp hs
    · exact .inl (h.suspended hx)
    · exact h.scheduled hx

namespace Queue

variable {α : Type*} {s t : Queue α} {k : QueueKind} {i j g p : Id} {gs ps : List Id} {v : α}
  {c rest : List α} {w : List (QueueEvent α)} {d : List (Id × α)} {m : Int}

theorem init_loose (n : Int) : (init n : Queue α).Loose := (init_rep n).loose

/-- A `Get` that is neither awaited nor woken any more leaves its list. -/
theorem Loose.leaveGet (h : s.Loose) {x : Get α} (hx : x.stage = .idle ∨ x.stage = .returned)
    (hc : s.pendingGet.erase i ≠ [] → c = []) :
    Loose { s with
      container := c, pendingGet := s.pendingGet.erase i, get := Function.update s.get i x
      log := w, done := d } := by
  refine ⟨?_, h.put, h.getNodup.erase i, h.putNodup, fun hne => ⟨hc hne, (h.starving ?_).2⟩⟩
  · refine (Function.forall_update_iff s.get fun j x => x.Loose (j ∈ s.pendingGet.erase i)).mpr
      ⟨⟨?_, ?_, ?_⟩, fun j hj => (h.get j).congr ?_⟩
    · simp [h.getNodup.mem_erase_iff]
    · intro hs
      simp [hs] at hx
    · intro hs
      simp [hs] at hx
    · simp [h.getNodup.mem_erase_iff, hj]
  · intro hnil
    simp [hnil] at hne

/-- A `Put` that is not awaited any more leaves its list. -/
theorem Loose.leavePut (h : s.Loose) {x : Put α} (hx : x.stage = .idle)
    (hc : s.pendingGet ≠ [] → c = []) :
    Loose { s with
      container := c, pendingPut := s.pendingPut.erase i, put := Function.update s.put i x
      log := w, done := d } := by
  refine ⟨h.get, ?_, h.getNodup, h.putNodup.erase i, fun hne => ⟨hc hne, ?_⟩⟩
  · refine (Function.forall_update_iff s.put fun j x => x.Loose (j ∈ s.pendingPut.erase i)).mpr
      ⟨⟨?_, ?_, ?_⟩, fun j hj => (h.put j).congr ?_⟩
    · simp [h.putNodup.mem_erase_iff]
    · simp [hx]
    · simp [hx]
    · simp [h.putNodup.mem_erase_iff, hj]
  · simp [(h.starving hne).2]

/-- The `Get` that came last is served. -/
theorem Loose.serveGet (h : s.Loose) (hg : s.pendingGet = gs ++ [g]) :
    Loose { s with
      pendingGet := gs, get := Function.update s.get g ⟨some v, .scheduled⟩, log := w } := by
  have hnd := hg ▸ h.getNodup
  have hgn : g ∉ gs := by
    simp only [List.nodup_append] at hnd
    intro hmem
    exact hnd.2.2 g hmem g (by simp) rfl
  refine ⟨?_, h.put, hnd.sublist (List.sublist_append_left gs [g]), h.putNodup,
    fun _ => h.starving (by simp [hg])⟩
  refine (Function.forall_update_iff s.get fun j x => x.Loose (j ∈ gs)).mpr ⟨?_, fun j hj => ?_⟩
  · exact ⟨by simp [hgn], by simp, by simp⟩
  · exact (h.get j).congr (by simp [hg, hj])

/-- The `Put` that came last is served. -/
theorem Loose.servePut (h : s.Loose) (hp : s.pendingPut = ps ++ [p]) :
    Loose { s with
      pendingPut := ps, log := w
      put := Function.update s.put p { s.put p with result := true, stage := .scheduled } } := by
  have hnd := hp ▸ h.putNodup
  have hpn : p ∉ ps := by
    simp only [List.nodup_append] at hnd
    intro hmem
    exact hnd.2.2 p hmem p (by simp) rfl
  refine ⟨h.get, ?_, h.getNodup, hnd.sublist (List.sublist_append_left ps [p]), fun hne => ?_⟩
  · refine (Function.forall_update_iff s.put fun j x => x.Loose (j ∈ ps)).mpr ⟨?_, fun j hj => ?_⟩
    · exact ⟨by simp [hpn], by simp, by simp⟩
    · exact (h.put j).congr (by simp [hp, hj])
  · have hnil := (h.starving hne).2
    simp [hp] at hnil

theorem Loose.wait (h : s.Loose) (hi : (s.put i).stage = .idle) (hg : s.pendingGet = []) :
    (s.afterWait i v).Loose := by
  have hmem : i ∉ s.pendingPut := h.put_not_mem hi
  refine ⟨h.get, ?_, h.getNodup, ?_, fun hne => absurd hg hne⟩
  · refine (Function.forall_update_iff s.put fun j x => x.Loose (j ∈ s.pendingPut ++ [i])).mpr
      ⟨⟨by simp, by simp, by simp⟩, fun j hj => (h.put j).congr ?_⟩
    simp [hj]
  · exact List.nodup_append.mpr ⟨h.putNodup, by simp, by grind⟩

theorem Loose.starve (h : s.Loose) (hi : (s.get i).stage = .idle) (hc : s.container = [])
    (hp : s.pendingPut = []) : (s.afterStarve i).Loose := by
  have hmem : i ∉ s.pendingGet := h.get_not_mem (.inl hi)
  refine ⟨?_, h.put, ?_, h.putNodup, fun _ => ⟨hc, hp⟩⟩
  · refine (Function.forall_update_iff s.get fun j x => x.Loose (j ∈ s.pendingGet ++ [i])).mpr
      ⟨⟨by simp, by simp, by simp⟩, fun j hj => (h.get j).congr ?_⟩
    simp [hj]
  · exact List.nodup_append.mpr ⟨h.getNodup, by simp, by grind⟩

theorem Loose.step_put (h : s.Loose) (ht : step k s (.put i v) = some t) : t.Loose := by
  have hi := step_stage ht
  have hmem : i ∉ s.pendingPut := h.put_not_mem hi
  rcases put_cases h ht with ⟨gs, g, hg, rfl⟩ | ⟨hg, -, rfl⟩ | ⟨hg, -, rfl⟩
  · have hserve := (h.serveGet (v := v) (w := s.log) hg).leavePut (i := i) (c := s.container)
      (x := ⟨none, true, .idle⟩) (w := s.log ++ [.polled i v, .handed g v]) (d := s.done ++ [(i, v)])
      rfl fun _ => (h.starving (by simp [hg])).1
    simpa [afterHandover, List.erase_of_not_mem hmem] using hserve
  · exact h.wait hi hg
  · have hleave := h.leavePut (i := i) (c := s.container ++ [v]) (x := ⟨none, true, .idle⟩)
      (w := s.log ++ [.polled i v]) (d := s.done ++ [(i, v)]) rfl fun hne => absurd hg hne
    simpa [afterStore, List.erase_of_not_mem hmem] using hleave

theorem Loose.step_get (h : s.Loose) (ht : step k s (.get i) = some t) : t.Loose := by
  have hi := step_stage ht
  have hmem : i ∉ s.pendingGet := h.get_not_mem (.inl hi)
  rcases get_cases h ht with ⟨v, rest, hc, rfl⟩ | ⟨ps, p, v, hc, hp, -, rfl⟩ | ⟨hc, hp, rfl⟩
  · have hleave := h.leaveGet (i := i) (c := rest) (x := ⟨some v, .returned⟩)
      (w := s.log ++ [.handed i v]) (d := s.done) (.inr rfl) fun hne => by
        have hnil := (h.starving fun hnil => hne (by simp [hnil])).1
        simp [hc] at hnil
    simpa [afterTake, List.erase_of_not_mem hmem] using hleave
  · have hserve := (h.servePut (w := s.log) hp).leaveGet (i := i) (c := s.container)
      (x := ⟨some v, .returned⟩) (w := s.log ++ [.handed i v]) (d := s.done ++ [(p, v)]) (.inr rfl)
      fun _ => hc
    simpa [afterMeet, List.erase_of_not_mem hmem] using hserve
  · exact h.starve hi hc hp

/-- What a woken or resumed `Put` does: it has given its value away, or it is still in the list and either
    finds no room or stores its value past those that wait. -/
theorem runPut_cases (h : s.Loose) (ht : step k s (.runPut i) = some t) :
    (i ∉ s.pendingPut ∧ t = { s with put := Function.update s.put i ⟨none, true, .idle⟩ }) ∨
    (i ∈ s.pendingPut ∧ t = { s with
      pendingPut := s.pendingPut.erase i
      put := Function.update s.put i ⟨none, false, .idle⟩ }) ∨
    (∃ v, i ∈ s.pendingPut ∧ ¬ s.full ∧ t = { s with
      container := s.container ++ [v], pendingPut := s.pendingPut.erase i
      put := Function.update s.put i ⟨none, true, .idle⟩, done := s.done ++ [(i, v)] }) := by
  have hi := step_stage ht
  rw [step, if_pos hi, asyncPollPut_eq fun hne => (h.starving hne).1] at ht
  by_cases hmem : i ∈ s.pendingPut
  · right
    obtain ⟨-, hsome, hres⟩ := (h.put i).waiting hmem
    have hg : s.pendingGet = [] := by
      by_contra hne
      simp [(h.starving hne).2] at hmem
    obtain ⟨v, hv⟩ := Option.isSome_iff_exists.mp hsome
    by_cases hf : s.full
    · left
      refine ⟨hmem, Option.some.inj (ht.symm.trans ?_)⟩
      simp [pollPut, hres, hg, store, hf, LinkedList.pushBack_of_mem hmem, answerPut, finalizePut,
        modifyPut]
    · right
      refine ⟨v, hmem, hf, Option.some.inj (ht.symm.trans ?_)⟩
      simp [pollPut, hres, hg, store, hf, hv, answerPut, finalizePut, modifyPut, emplacePut]
  · left
    have hres : (s.put i).result = true := ((h.put i).scheduled hi).resolve_left hmem
    refine ⟨hmem, Option.some.inj (ht.symm.trans ?_)⟩
    simp [pollPut, hres, answerPut, finalizePut, modifyPut, List.erase_of_not_mem hmem]

/-- A woken `Get` has its value, and one that is still in the list finds nothing. -/
theorem runGet_cases (h : s.Loose) (ht : step k s (.runGet i) = some t) :
    (i ∉ s.pendingGet ∧
      t = { s with get := Function.update s.get i { s.get i with stage := .returned } }) ∨
    (i ∈ s.pendingGet ∧ t = { s with
      pendingGet := s.pendingGet.erase i
      get := Function.update s.get i { s.get i with stage := .idle } }) := by
  have hi := step_stage ht
  rw [step, if_pos hi, asyncPollGet_eq] at ht
  by_cases hmem : i ∈ s.pendingGet
  · right
    have hres := ((h.get i).waiting hmem).2
    obtain ⟨hc, hp⟩ := h.starving (List.ne_nil_of_mem hmem)
    refine ⟨hmem, Option.some.inj (ht.symm.trans ?_)⟩
    simp [pollGet, hres, hc, hp, LinkedList.pushBack_of_mem hmem, answerGet, finalizeGet, modifyGet]
  · left
    have hres : (s.get i).result.isSome := ((h.get i).scheduled hi).resolve_left hmem
    refine ⟨hmem, Option.some.inj (ht.symm.trans ?_)⟩
    simp [pollGet, hres, answerGet, finalizeGet, modifyGet, List.erase_of_not_mem hmem]

theorem Loose.step {a : QueueOp α} (h : s.Loose) (ht : step k s a = some t) : t.Loose := by
  have hcases := step_cases ht
  cases a with
  | put i v => exact h.step_put ht
  | get i => exact h.step_get ht
  | runPut i =>
    rcases runPut_cases h ht with ⟨hmem, rfl⟩ | ⟨-, rfl⟩ | ⟨v, hmem, -, rfl⟩
    · have hleave := h.leavePut (i := i) (c := s.container) (x := ⟨none, true, .idle⟩)
        (w := s.log) (d := s.done) rfl fun hne => (h.starving hne).1
      simpa [List.erase_of_not_mem hmem] using hleave
    · exact h.leavePut rfl fun hne => (h.starving hne).1
    · refine h.leavePut rfl fun hne => ?_
      simp [(h.starving hne).2] at hmem
  | runGet i =>
    rcases runGet_cases h ht with ⟨hmem, rfl⟩ | ⟨-, rfl⟩
    · have hleave := h.leaveGet (i := i) (c := s.container)
        (x := { s.get i with stage := .returned }) (w := s.log) (d := s.done) (.inr rfl) fun hne =>
          (h.starving fun hnil => hne (by simp [hnil])).1
      simpa [List.erase_of_not_mem hmem] using hleave
    · exact h.leaveGet (.inl rfl) fun hne => (h.starving fun hnil => hne (by simp [hnil])).1
  | read i =>
    obtain ⟨hi, v, -, rfl⟩ := hcases
    have hmem : i ∉ s.pendingGet := h.get_not_mem (.inr hi)
    have hleave := h.leaveGet (i := i) (c := s.container) (x := { s.get i with stage := .idle })
      (w := s.log ++ [.read i v]) (d := s.done) (.inl rfl) fun hne =>
        (h.starving fun hnil => hne (by simp [hnil])).1
    simpa [modifyGet, emit, List.erase_of_not_mem hmem] using hleave
  | cancelPut i =>
    rw [step_cancelPut hcases.1] at ht
    obtain rfl := Option.some.inj ht
    exact h.leavePut rfl fun hne => (h.starving hne).1
  | cancelGet i =>
    rw [step_cancelGet hcases.1] at ht
    obtain rfl := Option.some.inj ht
    exact h.leaveGet (.inl rfl) fun hne => (h.starving fun hnil => hne (by simp [hnil])).1

theorem Loose.resume (h : s.Loose) (i : Id ⊕ Id) : (s.resume i).Loose := by
  cases i with
  | inl i =>
    refine ⟨?_, h.put, h.getNodup, h.putNodup, h.starving⟩
    exact (Function.forall_update_iff s.get fun j x => x.Loose (j ∈ s.pendingGet)).mpr
      ⟨(h.get i).resumed, fun j _ => h.get j⟩
  | inr i =>
    refine ⟨h.get, ?_, h.getNodup, h.putNodup, h.starving⟩
    exact (Function.forall_update_iff s.put fun j x => x.Loose (j ∈ s.pendingPut)).mpr
      ⟨(h.put i).resumed, fun j _ => h.put j⟩

/-! ### The bound on the container -/

theorem full_iff (hm : 0 < s.maxSize) : s.full = true ↔ s.maxSize ≤ s.container.length := by
  simp [QueueBase.full, hm]

/-- The queue was made for `m` values and holds no more. -/
structure Within (m : Int) (s : Queue α) : Prop where
  maxSize : s.maxSize = m
  length : (s.container.length : Int) ≤ m

/-- A value more, where the container is not full. -/
theorem Within.store (h : s.Within m) (hm : 0 < m) (hf : ¬ s.full) (v : α) :
    ((s.container ++ [v]).length : Int) ≤ m := by
  rw [full_iff (h.maxSize ▸ hm), h.maxSize] at hf
  simp only [List.length_append, List.length_singleton, Nat.cast_add, Nat.cast_one]
  omega

theorem Within.step {a : QueueOp α} (h : s.Within m) (hm : 0 < m) (hl : s.Loose)
    (ht : Queue.step k s a = some t) : t.Within m := by
  have hcases := step_cases ht
  cases a with
  | put i v =>
    rcases put_cases hl ht with ⟨gs, g, hg, rfl⟩ | ⟨hg, -, rfl⟩ | ⟨hg, hf, rfl⟩
    · exact ⟨h.maxSize, h.length⟩
    · exact ⟨h.maxSize, h.length⟩
    · exact ⟨h.maxSize, h.store hm hf v⟩
  | get i =>
    rcases get_cases hl ht with ⟨v, rest, hc, rfl⟩ | ⟨ps, p, v, hc, hp, -, rfl⟩ | ⟨hc, hp, rfl⟩
    · have hlen := h.length
      rw [hc, List.length_cons] at hlen
      exact ⟨h.maxSize, by simp only [afterTake]; omega⟩
    · exact ⟨h.maxSize, h.length⟩
    · exact ⟨h.maxSize, h.length⟩
  | runPut i =>
    rcases runPut_cases hl ht with ⟨-, rfl⟩ | ⟨-, rfl⟩ | ⟨v, -, hf, rfl⟩
    · exact ⟨h.maxSize, h.length⟩
    · exact ⟨h.maxSize, h.length⟩
    · exact ⟨h.maxSize, h.store hm hf v⟩
  | runGet i => rcases runGet_cases hl ht with ⟨-, rfl⟩ | ⟨-, rfl⟩ <;> exact ⟨h.maxSize, h.length⟩
  | read i =>
    obtain ⟨-, v, -, rfl⟩ := hcases
    exact ⟨h.maxSize, h.length⟩
  | cancelPut i =>
    obtain ⟨-, rfl⟩ := hcases
    exact ⟨h.maxSize, h.length⟩
  | cancelGet i =>
    obtain ⟨-, rfl⟩ := hcases
    exact ⟨h.maxSize, h.length⟩

theorem Within.resume (h : s.Within m) (i : Id ⊕ Id) : (s.resume i).Within m := by
  cases i <;> exact ⟨h.maxSize, h.length⟩

/-- What holds of a queue for `m` values. -/
structure Sound (m : Int) (s : Queue α) : Prop where
  bounded : (s.container.length : Int) ≤ m
  starving : s.pendingGet ≠ [] → s.container = [] ∧ s.pendingPut = []
  getNodup : s.pendingGet.Nodup
  putNodup : s.pendingPut.Nodup
  /-- one that was finalized, or not awaited yet, is in no list -/
  get : ∀ i ∈ s.pendingGet, (s.get i).stage = .suspended ∨ (s.get i).stage = .scheduled
  put : ∀ i ∈ s.pendingPut, (s.put i).stage = .suspended ∨ (s.put i).stage = .scheduled
  holds : ∀ i ∈ s.pendingPut, (s.put i).value.isSome

theorem Within.sound (h : s.Within m) (hl : s.Loose) : s.Sound m where
  bounded := h.length
  starving := hl.starving
  getNodup := hl.getNodup
  putNodup := hl.putNodup
  get i hi := ((hl.get i).waiting hi).1
  put i hi := ((hl.put i).waiting hi).1
  holds i hi := ((hl.put i).waiting hi).2.1

/-- In every run of both queues with resumes that nobody has asked for. -/
theorem representation_kept (k : QueueKind) (hm : 0 < m) (as : List (QueueOp α ⊕ (Id ⊕ Id)))
    (hrun : Runs.exec (Runs.withInput (step k) resume) (init m) as = some s) : s.Sound m := by
  have hinv : s.Within m ∧ s.Loose := Runs.withInput_invariant (I := fun s => s.Within m ∧ s.Loose)
    (fun s a t hs ht => ⟨hs.1.step hm hs.2 ht, hs.2.step ht⟩)
    (fun s i hs => ⟨hs.1.resume i, hs.2.resume i⟩) as _ s hrun
    ⟨⟨rfl, by simp only [init, List.length_nil]; omega⟩, init_loose m⟩
  exact hinv.1.sound hinv.2

/-- Two `Put`s wait; one of them is resumed and throws, the other one is served. -/
theorem representation_kept_resumed : ∃ t : Queue Nat,
    Runs.exec (Runs.withInput (step .queue) resume) (init 1)
      [.inl (.put 0 10), .inl (.put 1 20), .inl (.put 2 30), .inr (.inr 1), .inl (.runPut 1),
        .inl (.get 0), .inl (.get 1)] = some t ∧ t.Sound 1 :=
  ⟨_, rfl, representation_kept .queue (by decide)
    [.inl (.put 0 10), .inl (.put 1 20), .inl (.put 2 30), .inr (.inr 1), .inl (.runPut 1),
      .inl (.get 0), .inl (.get 1)] rfl⟩

/-! ### A `Put` that waits while there is room -/

/-- No `Get` takes a value from the container while a `Put` waits. -/
def KeepsFull (s : Queue α) : QueueOp α → Prop
  | .get _ => s.container ≠ [] → s.pendingPut = []
  | _ => True

instance [DecidableEq α] (s : Queue α) : DecidablePred s.KeepsFull
  | .get _ => inferInstanceAs (Decidable (s.container ≠ [] → s.pendingPut = []))
  | .put _ _ | .runPut _ | .runGet _ | .read _ | .cancelPut _ | .cancelGet _ => .isTrue trivial

/-- A `Put` waits only where the container is full. -/
def FullIfBlocked (m : Int) (s : Queue α) : Prop :=
  s.pendingPut ≠ [] → (s.container.length : Int) = m

/-- The invariant of a run in which no `Get` makes room past a `Put`. -/
structure Blocking (m : Int) (s : Queue α) : Prop where
  rep : s.Rep
  within : s.Within m
  full : s.FullIfBlocked m

theorem Blocking.step_put (h : s.Blocking m) (hm : 0 < m) (ht : step k s (.put i v) = some t) :
    t.FullIfBlocked m := by
  rcases put_cases h.rep.loose ht with ⟨gs, g, hg, rfl⟩ | ⟨-, hf, rfl⟩ | ⟨-, hf, rfl⟩
  · exact h.full
  · intro _
    rw [full_iff (h.within.maxSize ▸ hm), h.within.maxSize] at hf
    exact Int.le_antisymm h.within.length hf
  · -- there is room, so nobody waits
    intro hne
    rw [full_iff (h.within.maxSize ▸ hm), h.within.maxSize, h.full hne] at hf
    exact absurd (Int.le_refl m) hf

theorem Blocking.step_get (h : s.Blocking m) (hm : 0 < m) (hC : s.KeepsFull (.get i))
    (ht : step k s (.get i) = some t) : t.FullIfBlocked m := by
  rcases get_cases h.rep.loose ht with ⟨v, rest, hc, rfl⟩ | ⟨ps, p, v, hc, hp, -, rfl⟩ |
    ⟨hc, hp, rfl⟩
  · exact fun hne => absurd (hC (by simp [hc])) hne
  · -- a container for some values is not both full and empty
    have hfull := h.full (by simp [hp])
    simp only [hc, List.length_nil, Nat.cast_zero] at hfull
    omega
  · exact fun hne => absurd hp hne

theorem Blocking.step {a : QueueOp α} (h : s.Blocking m) (hm : 0 < m) (hC : s.KeepsFull a)
    (ht : Queue.step k s a = some t) : t.Blocking m := by
  refine ⟨h.rep.step ht, h.within.step hm h.rep.loose ht, ?_⟩
  have hi := step_stage ht
  cases a with
  | put i v => exact h.step_put hm ht
  | get i => exact h.step_get hm hC ht
  | runPut i =>
    rw [step_runPut h.rep hi] at ht
    obtain rfl := Option.some.inj ht
    exact h.full
  | runGet i =>
    rw [step_runGet h.rep hi] at ht
    obtain rfl := Option.some.inj ht
    exact h.full
  | read i =>
    obtain ⟨v, hv⟩ := Option.isSome_iff_exists.mp ((h.rep.get i).served (.inr hi))
    rw [step_read hi hv] at ht
    obtain rfl := Option.some.inj ht
    exact h.full
  | cancelPut i =>
    rw [step_cancelPut hi] at ht
    obtain rfl := Option.some.inj ht
    exact fun hne => h.full fun hnil => hne (by simp [hnil])
  | cancelGet i =>
    rw [step_cancelGet hi] at ht
    obtain rfl := Option.some.inj ht
    exact h.full

/-- A `Get` that takes from the container leaves room that the `Put`s behind it do not get. -/
theorem Blocking.break {a : QueueOp α} (h : s.Blocking m) (hC : ¬ s.KeepsFull a)
    (ht : Queue.step k s a = some t) : ¬ t.FullIfBlocked m := by
  cases a with
  | get i =>
    simp only [KeepsFull, Classical.not_imp] at hC
    obtain ⟨hne, hp⟩ := hC
    rcases get_cases h.rep.loose ht with ⟨v, rest, hc, rfl⟩ | ⟨ps, p, v, hc, -, -, rfl⟩ |
      ⟨hc, -, rfl⟩
    · intro hfull
      have hbefore := h.full hp
      have hafter := hfull hp
      simp only [hc, List.length_cons, Nat.cast_add, Nat.cast_one] at hbefore
      simp only [afterTake] at hafter
      omega
    · exact absurd hc hne
    · exact absurd hc hne
  | put i v | runPut i | runGet i | read i | cancelPut i | cancelGet i => exact absurd trivial hC

/-- In both queues and in every run: whenever a `Put` waits the container is full, if and only if no `Get`
    takes a value from the container while a `Put` waits. -/
theorem blocked_only_when_full_iff (k : QueueKind) (hm : 0 < m) (as : List (QueueOp α))
    (hrun : exec k (init m) as = some t) :
    Runs.Always (step k) (FullIfBlocked m) (init m) as ↔
      Runs.Meets (step k) KeepsFull (init m) as :=
  Runs.always_iff_meets (I := Blocking m) (fun s a t hs hC ht => hs.step hm hC ht) (fun s hs => hs.full)
    (fun s a t hs hC ht => hs.break hC ht) as (init m) t hrun
    ⟨init_rep m, ⟨rfl, by simp only [init, List.length_nil]; omega⟩, fun hne => absurd rfl hne⟩

/-- The `Put` that waits is cancelled before the `Get` comes. -/
theorem blocked_only_when_full_cancelled :
    Runs.Always (step .queue) (FullIfBlocked 1) (init 1 : Queue Nat)
      [.put 0 10, .put 1 20, .cancelPut 1, .get 0] :=
  (blocked_only_when_full_iff .queue (by decide) _ rfl).mpr (by decide)

/-- A queue for one value is full, a `Put` waits, and a `Get` empties the container. -/
theorem blocked_while_empty :
    (∃ t : Queue Nat, exec .queue (init 1) [.put 0 10, .put 1 20, .get 0] = some t ∧
      t.pendingPut = [1] ∧ t.container = []) ∧
    (∃ t : Queue Nat, exec .queue2 (init 1) [.put 0 10, .put 1 20, .get 0] = some t ∧
      t.pendingPut = [1] ∧ t.container = []) :=
  ⟨⟨_, rfl, rfl, rfl⟩, ⟨_, rfl, rfl, rfl⟩⟩

end Queue

end Jinx.Sync
