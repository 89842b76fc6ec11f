import Jinx.Sync.Queue

/-! The order of the values.

    What has been polled and not yet handed out stands in line: first the container, then the
    `Put`s that wait. A value leaves the queue in its turn as long as it is taken from the head of
    that line and new ones go to its end. Two things break the line: both queues take the `Put`
    that came last, and a `Put` that finds room goes into the container past those that wait. -/

namespace Jinx.Sync

variable {α : Type*} {s t : Queue α} {k : QueueKind} {i g p : Id} {gs ps : List Id} {v : α}
  {rest : List α}

/-- The label cancels nothing. -/
def QueueOp.Plain : QueueOp α → Prop
  | .cancelPut _ => False
  | .cancelGet _ => False
  | _ => True

instance : DecidablePred (QueueOp.Plain (α := α))
  | .cancelPut _ | .cancelGet _ => .isFalse id
  | .put _ _ | .get _ | .runPut _ | .runGet _ | .read _ => .isTrue trivial

namespace Queue

/-- The label does not jump the line: no `Put` goes into the container while another one waits, and
    no `Get` takes from the waiting `Put`s while there is more than one. -/
def InOrder (s : Queue α) : QueueOp α → Prop
  | .put _ _ => s.pendingPut ≠ [] → s.full
  | .get _ => s.container = [] → s.pendingPut.length ≤ 1
  | _ => True

instance [DecidableEq α] (s : Queue α) : DecidablePred s.InOrder
  | .put _ _ => inferInstanceAs (Decidable (s.pendingPut ≠ [] → s.full))
  | .get _ => inferInstanceAs (Decidable (s.container = [] → s.pendingPut.length ≤ 1))
  | .runPut _ | .runGet _ | .read _ | .cancelPut _ | .cancelGet _ => .isTrue trivial

/-- The values of the `Put`s that wait, in the order of their list. -/
def waiting (s : Queue α) : List α := s.pendingPut.filterMap fun i => (s.put i).value

/-- What was polled has been handed out or stands in line. -/
structure Lined (s : Queue α) : Prop where
  rep : s.Rep
  line : s.polled = s.handed ++ s.container ++ s.waiting

/-! ### What the steps do to the line -/

@[simp] theorem afterHandover_polled :
    (s.afterHandover i v gs g).polled = s.polled ++ [v] := by
  simp [afterHandover, polled]

@[simp] theorem afterHandover_handed :
    (s.afterHandover i v gs g).handed = s.handed ++ [v] := by
  simp [afterHandover, handed]

@[simp] theorem afterWait_polled : (s.afterWait i v).polled = s.polled ++ [v] := by
  simp [afterWait, polled]

@[simp] theorem afterWait_handed : (s.afterWait i v).handed = s.handed := by
  simp [afterWait, handed]

@[simp] theorem afterStore_polled : (s.afterStore i v).polled = s.polled ++ [v] := by
  simp [afterStore, polled]

@[simp] theorem afterStore_handed : (s.afterStore i v).handed = s.handed := by
  simp [afterStore, handed]

@[simp] theorem afterTake_polled : (s.afterTake i v rest).polled = s.polled := by
  simp [afterTake, polled]

@[simp] theorem afterTake_handed : (s.afterTake i v rest).handed = s.handed ++ [v] := by
  simp [afterTake, handed]

@[simp] theorem afterMeet_polled : (s.afterMeet i v ps p).polled = s.polled := by
  simp [afterMeet, polled]

@[simp] theorem afterMeet_handed : (s.afterMeet i v ps p).handed = s.handed ++ [v] := by
  simp [afterMeet, handed]

/-- A `Put` that is not in the list does not count. -/
theorem filterMap_update {l : List Id} (hi : i ∉ l) (x : Put α) :
    (l.filterMap fun j => (Function.update s.put i x j).value) =
      l.filterMap fun j => (s.put j).value := by
  refine List.filterMap_congr fun j hj => ?_
  rw [Function.update_of_ne]
  rintro rfl
  exact hi hj

theorem afterWait_waiting (hi : i ∉ s.pendingPut) :
    (s.afterWait i v).waiting = s.waiting ++ [v] := by
  simp [afterWait, waiting, List.filterMap_append, filterMap_update hi]

theorem Lined.put (h : s.Lined) (hC : s.InOrder (.put i v))
    (ht : step k s (.put i v) = some t) : t.Lined := by
  have hi := step_stage ht
  have hmem : i ∉ s.pendingPut := h.rep.put_not_mem (by simp [hi])
  refine ⟨h.rep.step ht, ?_⟩
  rcases put_cases h.rep.loose ht with ⟨gs, g, hg, rfl⟩ | ⟨hg, -, rfl⟩ | ⟨hg, hf, rfl⟩
  · -- a `Get` waits, so the line is empty
    obtain ⟨hc, hp⟩ := h.rep.starving (by simp [hg])
    rw [afterHandover_polled, afterHandover_handed, h.line]
    simp [afterHandover, waiting, hc, hp]
  · rw [afterWait_polled, afterWait_handed, afterWait_waiting hmem, h.line]
    simp [afterWait]
  · -- nobody waits, so the end of the container is the end of the line
    have hp : s.pendingPut = [] := by
      by_contra hne
      exact hf (hC hne)
    rw [afterStore_polled, afterStore_handed, h.line]
    simp [afterStore, waiting, hp]

theorem Lined.get (h : s.Lined) (hC : s.InOrder (.get i)) (ht : step k s (.get i) = some t) :
    t.Lined := by
  refine ⟨h.rep.step ht, ?_⟩
  rcases get_cases h.rep.loose ht with ⟨v, rest, hc, rfl⟩ | ⟨ps, p, v, hc, hp, hv, rfl⟩ | ⟨hc, hp, rfl⟩
  · rw [afterTake_polled, afterTake_handed, h.line, hc]
    simp [afterTake, waiting]
  · -- the `Put` that is taken is the only one
    obtain rfl : ps = [] := by
      have hlen := hC hc
      rw [hp, List.length_append, List.length_singleton] at hlen
      exact List.length_eq_zero_iff.mp (by omega)
    rw [afterMeet_polled, afterMeet_handed, h.line]
    simp [afterMeet, waiting, hc, hp, hv]
  · simpa [afterStarve, polled, handed, waiting] using h.line

theorem Lined.step {a : QueueOp α} (h : s.Lined) (hC : a.Plain ∧ s.InOrder a)
    (ht : step k s a = some t) : t.Lined := by
  have hi := step_stage ht
  cases a with
  | put i v => exact h.put hC.2 ht
  | get i => exact h.get hC.2 ht
  | runPut i =>
    refine ⟨h.rep.step ht, ?_⟩
    rw [step_runPut h.rep hi] at ht
    obtain rfl := Option.some.inj ht
    have hmem : i ∉ s.pendingPut := h.rep.put_not_mem (by simp [hi])
    simpa [polled, handed, waiting, filterMap_update hmem] using h.line
  | runGet i =>
    refine ⟨h.rep.step ht, ?_⟩
    rw [step_runGet h.rep hi] at ht
    obtain rfl := Option.some.inj ht
    exact h.line
  | read i =>
    refine ⟨h.rep.step ht, ?_⟩
    obtain ⟨v, hv⟩ := Option.isSome_iff_exists.mp ((h.rep.get i).served (.inr hi))
    rw [step_read hi hv] at ht
    obtain rfl := Option.some.inj ht
    simpa [polled, handed, waiting] using h.line
  | cancelPut i => exact hC.1.elim
  | cancelGet i => exact hC.1.elim

theorem init_lined (n : Int) : (init n : Queue α).Lined := ⟨init_rep n, rfl⟩

theorem Lined.prefix (h : s.Lined) : s.handed <+: s.polled := by
  rw [h.line, List.append_assoc]
  exact List.prefix_append _ _

/-- In both queues, whatever their size: as long as nobody jumps the line, the values are handed out
    in the order in which their `Put`s were first polled. -/
theorem values_in_order (k : QueueKind) (maxSize : Int) (as : List (QueueOp α))
    (hmeets : Runs.Meets (step k) (fun s a => a.Plain ∧ s.InOrder a) (init maxSize) as) :
    Runs.Always (step k) (fun s => s.handed <+: s.polled) (init maxSize) as :=
  Runs.always_of_meets (I := Lined) (fun _ _ _ h hC ht => h.step hC ht) (fun _ h => h.prefix)
    as (init maxSize) (init_lined maxSize) hmeets

/-- A queue with room for one value: a `Put` waits for the `Get` that makes room, another `Get` comes
    before the next `Put`. -/
theorem values_in_order_waiting :
    Runs.Always (step .queue) (fun s => s.handed <+: s.polled) (init 1)
      [.put 0 10, .put 1 20, .get 0, .get 1, .runPut 1, .put 0 30, .get 2, .read 1] ∧
    Runs.Always (step .queue2) (fun s => s.handed <+: s.polled) (init 1)
      [.put 0 10, .put 1 20, .get 0, .get 1, .runPut 1, .put 0 30, .get 2, .read 1] :=
  ⟨values_in_order .queue 1 _ (by decide), values_in_order .queue2 1 _ (by decide)⟩

/-- In a queue with room for one value, a `Put` that comes when a `Get` has made room overtakes the
    one that waits; and of two that wait the later one is served first. -/
theorem later_value_first :
    (∃ t : Queue Nat, exec .queue (init 1)
      [.put 0 10, .put 1 20, .get 0, .put 2 30, .get 1] = some t ∧ ¬ t.handed <+: t.polled) ∧
    (∃ t : Queue Nat, exec .queue2 (init 1)
      [.put 0 10, .put 1 20, .put 2 30, .get 0, .get 1] = some t ∧ ¬ t.handed <+: t.polled) :=
  ⟨⟨_, rfl, by decide⟩, ⟨_, rfl, by decide⟩⟩

end Queue

end Jinx.Sync
