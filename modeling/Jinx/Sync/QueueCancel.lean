import Jinx.Lib.Count
import Jinx.Sync.Queue

/-! Where the values are, and what cancellation does to them.

    A value is handed to a `Get` by the task of a `Put` (or by the poll of the `Get` itself) and
    read by the caller of the `Get`. In between, for a `Get` that waited, the caller's task is only
    scheduled. `async_finalize` of such a `Get` drops the value. Values that are equal cannot be
    told apart, so places are counted. -/

namespace Jinx.Sync

variable {α : Type*}

/-- The `Get` has the value `v` for its caller. -/
def Get.Holds (x : Get α) (v : α) : Prop :=
  (x.stage = .scheduled ∨ x.stage = .returned) ∧ x.result = some v

namespace Queue

variable {s t : Queue α} {k : QueueKind} {i g p : Id} {gs ps : List Id} {v w : α} {rest : List α}

/-- The `Get`s that have the value `v` for their caller. -/
def holders (s : Queue α) (v : α) : Set Id := {i | (s.get i).Holds v}

/-- Every value whose `Put` has completed is in the container, in a `Get` whose caller can still
    read it, or was read, and in one place only: there are as many of it in these places together as
    there are completed `Put`s of it. -/
def Conserved [DecidableEq α] (s : Queue α) : Prop :=
  ∀ v, s.completed.count v = s.container.count v + (s.holders v).ncard + s.read.count v

/-- The label does not cancel a task that has been handed a value and has not run yet. -/
def Gentle (s : Queue α) : QueueOp α → Prop
  | .cancelGet i => (s.get i).stage ≠ .scheduled
  | _ => True

instance (s : Queue α) : DecidablePred s.Gentle
  | .cancelGet i => inferInstanceAs (Decidable ((s.get i).stage ≠ .scheduled))
  | .put _ _ | .get _ | .runPut _ | .runGet _ | .read _ | .cancelPut _ => .isTrue trivial

structure Accounted [DecidableEq α] (s : Queue α) : Prop where
  rep : s.Rep
  finite : ∀ v, (s.holders v).Finite
  conserved : s.Conserved

/-! ### Holders -/

theorem Get.not_holds_of_stage {x : Get α} (h : x.stage = .idle ∨ x.stage = .suspended) :
    ¬ x.Holds v := by
  rintro ⟨hs, -⟩
  rcases h with h | h <;> simp [h] at hs

theorem Get.holds_iff {x : Get α} (h : x.stage = .scheduled ∨ x.stage = .returned)
    (hw : x.result = some w) : x.Holds v ↔ w = v := by
  simp [Get.Holds, h, hw]

/-- A `Get` that had nothing is given `w`. -/
theorem holders_gain [DecidableEq α] (hfin : (s.holders v).Finite) (hg : ∀ v, ¬ (s.get g).Holds v)
    {x : Get α} (hx : x.stage = .scheduled ∨ x.stage = .returned) (hw : x.result = some w) :
    {j | (Function.update s.get g x j).Holds v}.ncard =
      (s.holders v).ncard + if w = v then 1 else 0 := by
  by_cases hv : w = v
  · rw [if_pos hv]
    exact Count.ncard_update_gain (Get.Holds · v) hfin (hg v) ((Get.holds_iff hx hw).mpr hv)
  · rw [if_neg hv, Nat.add_zero]
    refine Count.ncard_update_same (Get.Holds · v) ?_
    simp [Get.holds_iff hx hw, hv, hg v]

/-- A `Get` that had `w` is finalized or read. -/
theorem holders_lose [DecidableEq α] (hfin : (s.holders v).Finite)
    (hg : (s.get g).stage = .scheduled ∨ (s.get g).stage = .returned)
    (hw : (s.get g).result = some w) {x : Get α} (hx : x.stage = .idle) :
    {j | (Function.update s.get g x j).Holds v}.ncard + (if w = v then 1 else 0) =
      (s.holders v).ncard := by
  have hno : ¬ x.Holds v := Get.not_holds_of_stage (.inl hx)
  by_cases hv : w = v
  · rw [if_pos hv]
    exact Count.ncard_update_lose (Get.Holds · v) hfin ((Get.holds_iff hg hw).mpr hv) hno
  · rw [if_neg hv, Nat.add_zero]
    refine Count.ncard_update_same (Get.Holds · v) ?_
    simp [Get.holds_iff hg hw, hv, hno]

/-- A `Get` that changes nothing about what it has for its caller. -/
theorem holders_same {x : Get α} (hx : x.Holds v ↔ (s.get g).Holds v) :
    {j | (Function.update s.get g x j).Holds v}.ncard = (s.holders v).ncard :=
  Count.ncard_update_same (Get.Holds · v) hx

theorem holders_finite (hfin : ∀ v, (s.holders v).Finite) (g : Id) (x : Get α) (v : α) :
    {j | (Function.update s.get g x j).Holds v}.Finite :=
  Count.finite_update (Get.Holds · v) (hfin v) g x

/-! ### Every step keeps the account -/

variable [DecidableEq α]

theorem init_accounted (n : Int) : (init n : Queue α).Accounted := by
  have hempty : ∀ v, (init n : Queue α).holders v = ∅ := fun v => by
    ext i
    simp [holders, init, Get.Holds]
  refine ⟨init_rep n, fun v => ?_, fun v => ?_⟩
  · simp [hempty]
  · rw [hempty v, Set.ncard_empty]
    rfl

theorem Accounted.put (h : s.Accounted) (ht : step k s (.put i v) = some t) : t.Accounted := by
  have hrep := h.rep.step ht
  rcases put_cases h.rep.loose ht with ⟨gs, g, hg, rfl⟩ | ⟨-, -, rfl⟩ | ⟨-, -, rfl⟩
  · have hgs : (s.get g).stage = .suspended := (h.rep.get g).queued.mp (by simp [hg])
    have hno : ∀ w, ¬ (s.get g).Holds w := fun w => Get.not_holds_of_stage (.inr hgs)
    refine ⟨hrep, fun w => holders_finite h.finite g _ w, fun w => ?_⟩
    have hcons := h.conserved w
    have hgain : ((s.afterHandover i v gs g).holders w).ncard =
        (s.holders w).ncard + if v = w then 1 else 0 :=
      holders_gain (h.finite w) hno (.inl rfl) rfl
    rw [hgain]
    simp only [afterHandover, completed, read, List.filterMap_append, List.count_append] at hcons ⊢
    simp [List.count_singleton]
    omega
  · refine ⟨hrep, h.finite, fun w => ?_⟩
    simpa [afterWait, completed, read, holders] using h.conserved w
  · refine ⟨hrep, h.finite, fun w => ?_⟩
    have hcons := h.conserved w
    simp only [afterStore, completed, read, holders, List.filterMap_append,
      List.count_append] at hcons ⊢
    simp [List.count_singleton]
    omega

theorem Accounted.get (h : s.Accounted) (ht : step k s (.get i) = some t) : t.Accounted := by
  have hrep := h.rep.step ht
  have hno : ∀ w, ¬ (s.get i).Holds w := fun w => Get.not_holds_of_stage (.inl (step_stage ht))
  rcases get_cases h.rep.loose ht with ⟨v, rest, hc, rfl⟩ | ⟨ps, p, v, -, -, -, rfl⟩ | ⟨-, -, rfl⟩
  · refine ⟨hrep, fun w => holders_finite h.finite i _ w, fun w => ?_⟩
    have hcons := h.conserved w
    have hgain : ((s.afterTake i v rest).holders w).ncard =
        (s.holders w).ncard + if v = w then 1 else 0 :=
      holders_gain (h.finite w) hno (.inr rfl) rfl
    rw [hgain]
    simp only [afterTake, completed, read, hc, List.filterMap_append, List.count_append,
      List.count_cons] at hcons ⊢
    simp
    simp at hcons
    omega
  · refine ⟨hrep, fun w => holders_finite h.finite i _ w, fun w => ?_⟩
    have hcons := h.conserved w
    have hgain : ((s.afterMeet i v ps p).holders w).ncard =
        (s.holders w).ncard + if v = w then 1 else 0 :=
      holders_gain (h.finite w) hno (.inr rfl) rfl
    rw [hgain]
    simp only [afterMeet, completed, read, List.filterMap_append, List.count_append] at hcons ⊢
    simp [List.count_singleton]
    omega
  · refine ⟨hrep, fun w => holders_finite h.finite i _ w, fun w => ?_⟩
    have hsame : ((s.afterStarve i).holders w).ncard = (s.holders w).ncard :=
      holders_same (iff_of_false (Get.not_holds_of_stage (.inr rfl)) (hno w))
    rw [hsame]
    exact h.conserved w

theorem Accounted.read (h : s.Accounted) (ht : step k s (.read i) = some t) : t.Accounted := by
  have hi := step_stage ht
  have hrep := h.rep.step ht
  obtain ⟨v, hv⟩ := Option.isSome_iff_exists.mp ((h.rep.get i).served (.inr hi))
  rw [step_read hi hv] at ht
  obtain rfl := Option.some.inj ht
  refine ⟨hrep, fun w => holders_finite h.finite i _ w, fun w => ?_⟩
  have hcons := h.conserved w
  have hlose := holders_lose (x := ⟨some v, .idle⟩) (h.finite w) (.inr hi) hv rfl
  simp only [completed, Queue.read, holders, List.filterMap_append, List.count_append]
    at hcons hlose ⊢
  simp [List.count_singleton]
  omega

/-- A `Get` that leaves without a value. -/
theorem Accounted.cancelGet (h : s.Accounted) (hi : (s.get i).stage = .suspended)
    (ht : step k s (.cancelGet i) = some t) : t.Accounted := by
  have hrep := h.rep.step ht
  rw [step_cancelGet (.inl hi)] at ht
  obtain rfl := Option.some.inj ht
  refine ⟨hrep, fun w => holders_finite h.finite i _ w, fun w => ?_⟩
  have hno : ¬ (s.get i).Holds w := Get.not_holds_of_stage (.inr hi)
  have hsame := holders_same (x := ⟨(s.get i).result, .idle⟩)
    (iff_of_false (Get.not_holds_of_stage (.inl rfl)) hno)
  have hcons := h.conserved w
  simp only [completed, Queue.read, holders] at hcons hsame ⊢
  rw [hsame]
  exact hcons

theorem Accounted.step {a : QueueOp α} (h : s.Accounted) (hC : s.Gentle a)
    (ht : step k s a = some t) : t.Accounted := by
  have hi := step_stage ht
  have hrep := h.rep.step ht
  cases a with
  | put i v => exact h.put ht
  | get i => exact h.get ht
  | runPut i =>
    rw [step_runPut h.rep hi] at ht
    obtain rfl := Option.some.inj ht
    exact ⟨hrep, h.finite, h.conserved⟩
  | runGet i =>
    rw [step_runGet h.rep hi] at ht
    obtain rfl := Option.some.inj ht
    refine ⟨hrep, fun w => holders_finite h.finite i _ w, fun w => ?_⟩
    have hsame := holders_same (s := s) (g := i) (x := { s.get i with stage := .returned }) (v := w)
      (by simp [Get.Holds, hi])
    have hcons := h.conserved w
    simp only [completed, Queue.read, holders] at hcons hsame ⊢
    rw [hsame]
    exact hcons
  | read i => exact h.read ht
  | cancelPut i =>
    rw [step_cancelPut hi] at ht
    obtain rfl := Option.some.inj ht
    exact ⟨hrep, h.finite, h.conserved⟩
  | cancelGet i => exact h.cancelGet (hi.resolve_right hC) ht

/-- The value of a `Get` that is cancelled between the hand-off and its run is nowhere any more. -/
theorem Accounted.lost {a : QueueOp α} (h : s.Accounted) (hC : ¬ s.Gentle a)
    (ht : Queue.step k s a = some t) : ¬ t.Conserved := by
  cases a with
  | put i v | get i | runPut i | runGet i | read i | cancelPut i => exact absurd trivial hC
  | cancelGet i =>
    have hi : (s.get i).stage = .scheduled := Classical.not_not.mp hC
    obtain ⟨v, hv⟩ := Option.isSome_iff_exists.mp ((h.rep.get i).served (.inl hi))
    rw [step_cancelGet (.inr hi)] at ht
    obtain rfl := Option.some.inj ht
    intro hcons'
    have hcons' := hcons' v
    have hcons := h.conserved v
    have hlose := holders_lose (x := ⟨(s.get i).result, .idle⟩) (h.finite v) (.inl hi) hv rfl
    simp only [completed, Queue.read, holders, if_true] at hcons hcons' hlose
    omega

theorem Accounted.always_iff (h : s.Accounted) (as : List (QueueOp α))
    (hrun : exec k s as = some t) :
    Runs.Always (Queue.step k) Conserved s as ↔ Runs.Meets (Queue.step k) Gentle s as :=
  Runs.always_iff_meets (I := Accounted) (fun _ _ _ h hC ht => h.step hC ht)
    (fun _ h => h.conserved) (fun _ _ _ h hC ht => h.lost hC ht) as s t hrun h

/-- No value is lost or duplicated in a run if and only if nobody who was handed a value is cancelled
    before it runs. -/
theorem values_conserved_iff (k : QueueKind) (maxSize : Int) (as : List (QueueOp α)) (t : Queue α)
    (hrun : exec k (init maxSize) as = some t) :
    Runs.Always (Queue.step k) Conserved (init maxSize) as ↔
      Runs.Meets (Queue.step k) Gentle (init maxSize) as :=
  (init_accounted maxSize).always_iff as hrun

/-- A `Get` and a `Put` are cancelled while they wait, a `Put` after it was served. -/
theorem values_conserved_cancel :
    Runs.Always (Queue.step .queue) Conserved (init 1)
      [.get 0, .get 1, .cancelGet 0, .put 0 (10 : Nat), .runGet 1, .read 1, .put 1 20, .put 2 30,
        .put 3 40, .cancelPut 2, .get 2, .get 3, .cancelPut 3] :=
  (values_conserved_iff .queue 1 _ _ rfl).mpr (by decide)

/-- The value 10 is handed to a `Get` that waits, and its task is cancelled before it runs. -/
theorem handed_value_lost :
    (exec .queue (init 1) [.get 0, .put 0 (10 : Nat), .cancelGet 0]).isSome ∧
    ¬ Runs.Always (Queue.step .queue) Conserved (init 1) [.get 0, .put 0 (10 : Nat), .cancelGet 0] := by
  refine ⟨rfl, fun hall => ?_⟩
  have hmeets := ((init_accounted 1).always_iff _ rfl).mp hall
  revert hmeets
  decide

end Queue

end Jinx.Sync
