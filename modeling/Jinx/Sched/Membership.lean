import Jinx.Sched.Queues

/-! Every attached task is in the list of the queue that its `_task_queue` names, and in no other.

    `erase` takes a node out of its neighbours whatever list it is called on. So the lists stay
    apart as long as a queue pushes and pops only tasks that are in it or in no queue, and `FreeFor`
    says that. What a member function that is on the stack has still to do is `Safe` for the lists
    already when it is put there: until then tasks can only leave queues or be scheduled. -/

namespace Jinx.Sched.Queues

variable {s s' u : Queues} {L L' M : QueueId → List TaskId} {q r : QueueId} {t : TaskId} {c : Call}

/-- The tasks `L q` are linked in `_tasks_all` of `q`, and their `_task_queue` names it. -/
structure Membership (s : Queues) (L : QueueId → List TaskId) : Prop where
  linked : s.nodes.Rep L
  named : ∀ t q, (s.member t).taskQueue = some q ↔ t ∈ L q

/-- The task is in `q` or in no queue. -/
def FreeFor (s : Queues) (q : QueueId) (t : TaskId) : Prop :=
  (s.member t).taskQueue = none ∨ (s.member t).taskQueue = some q

instance (s : Queues) (q : QueueId) (t : TaskId) : Decidable (s.FreeFor q t) :=
  inferInstanceAs (Decidable (_ ∨ _))

/-- No task is attached to a second queue, a branch is cancelled only where `cancel` does not take it
    out of the parent's list, and a task exits in the queue that it is in. -/
def Orderly (s : Queues) : QueueOp → Prop
  | .spawn t => s.FreeFor .loop t
  | .taskCreate _ t => s.FreeFor .loop t
  | .branchCreate w t => s.FreeFor (.wait w) t
  | .cancel t => ∀ q ∈ (s.member t).taskQueue,
      q = .loop ∨ (s.member t).state = .ready ∨ s.runningTask q = some t
  | .finished st => st = .exited → ∀ r ∈ s.runs.head?, s.FreeFor r.queue r.task
  | _ => True

instance Orderly.decidable (s : Queues) : ∀ op, Decidable (s.Orderly op)
  | .spawn t => inferInstanceAs (Decidable (s.FreeFor .loop t))
  | .taskCreate _ t => inferInstanceAs (Decidable (s.FreeFor .loop t))
  | .branchCreate w t => inferInstanceAs (Decidable (s.FreeFor (.wait w) t))
  | .cancel t => inferInstanceAs (Decidable (∀ q ∈ (s.member t).taskQueue,
      q = .loop ∨ (s.member t).state = .ready ∨ s.runningTask q = some t))
  | .finished st => inferInstanceAs
      (Decidable (st = .exited → ∀ r ∈ s.runs.head?, s.FreeFor r.queue r.task))
  | .tick | .init _ | .resume _ | .exit | .start _ | .call | .await _ | .finalize | .reorder _
  | .polled => .isTrue trivial

/-- One step of the lists: nothing, a task that comes, or one that leaves. -/
inductive Moves (L : QueueId → List TaskId) : (QueueId → List TaskId) → Prop
  | same : Moves L L
  | added (q : QueueId) (t : TaskId) : Moves L (Function.update L q (t :: L q))
  | removed (q : QueueId) (t : TaskId) (ht : t ∈ L q) : Moves L (Function.update L q ((L q).erase t))

/-- A task that leaves a queue leaves it as it was otherwise, and all other queues too. -/
theorem Moves.of_removed (h : Moves L L') (ht : t ∈ L q) (hgone : t ∉ L' q) :
    L' q = (L q).erase t ∧ ∀ r, r ≠ q → L' r = L r := by
  cases h with
  | same => exact absurd ht hgone
  | added r u =>
    refine absurd ?_ hgone
    by_cases hr : q = r
    · subst hr
      simp [ht]
    · simpa [hr] using ht
  | removed r u hu =>
    by_cases hr : q = r
    · subst hr
      have htu : t = u := by
        by_contra hne
        exact hgone (by simpa [List.mem_erase_of_ne hne] using ht)
      subst htu
      exact ⟨by simp, fun x hx => Function.update_of_ne hx _ _⟩
    · exact absurd (by simpa [hr] using ht) hgone

/-! ### Push and pop -/

namespace Membership

theorem frame (h : s.Membership L) (hn : s'.nodes = s.nodes)
    (hq : ∀ t, (s'.member t).taskQueue = (s.member t).taskQueue) : s'.Membership L where
  linked := hn ▸ h.linked
  named t q := by rw [hq t, h.named]

theorem not_mem (h : s.Membership L) (hnone : (s.member t).taskQueue = none) (q : QueueId) :
    t ∉ L q := by
  intro ht
  have hq := (h.named t q).mpr ht
  rw [hnone] at hq
  cases hq

theorem freeFor (h : s.Membership L) (ht : t ∈ L q) : s.FreeFor q t := .inr ((h.named t q).mpr ht)

theorem modify {f : Member → Member} (h : s.Membership L) (t : TaskId)
    (hf : ∀ x, (f x).taskQueue = x.taskQueue) : (s.modify t f).Membership L := by
  refine h.frame rfl fun u => ?_
  by_cases hu : u = t
  · subst hu
    simp [Queues.modify, hf]
  · simp [Queues.modify, hu]

theorem push {x : Queues × ResultGeneric} (h : s.Membership L) (hfree : s.FreeFor q t)
    (hx : s.push q t = some x) : ∃ L', x.1.Membership L' ∧ Moves L L' := by
  obtain ⟨⟨nodes, result⟩, hpush, rfl⟩ := Option.map_eq_some_iff.mp hx
  rcases hfree with hnone | hsome
  · obtain ⟨nodes', hpush', hrep⟩ := h.linked.pushFront (h.not_mem hnone) q
    obtain ⟨rfl, -⟩ : nodes' = nodes ∧ _ := by simpa using hpush'.symm.trans hpush
    refine ⟨_, ⟨hrep, fun u r => ?_⟩, .added q t⟩
    by_cases hu : u = t
    · subst hu
      by_cases hr : r = q
      · subst hr
        simp [Queues.modify]
      · simpa [Queues.modify, hr, Ne.symm hr] using h.not_mem hnone r
    · by_cases hr : r = q
      · subst hr
        simp [Queues.modify, hu, h.named]
      · simp [Queues.modify, hu, hr, h.named]
  · have hpush' := h.linked.pushFront_failed ((h.named t q).mp hsome) q
    obtain ⟨rfl, -⟩ : s.nodes = nodes ∧ _ := by simpa using hpush'.symm.trans hpush
    refine ⟨L, h.frame rfl fun u => ?_, .same⟩
    by_cases hu : u = t
    · subst hu
      simp [Queues.modify, hsome]
    · simp [Queues.modify, hu]

theorem pop {x : Queues × ResultGeneric} (h : s.Membership L) (hfree : s.FreeFor q t)
    (hx : s.pop q t = some x) : ∃ L', x.1.Membership L' ∧ Moves L L' := by
  obtain ⟨⟨nodes, result⟩, hpop, rfl⟩ := Option.map_eq_some_iff.mp hx
  rcases hfree with hnone | hsome
  · have hpop' := h.linked.erase_failed (h.not_mem hnone) q
    obtain ⟨rfl, rfl⟩ : s.nodes = nodes ∧ _ := by simpa using hpop'.symm.trans hpop
    exact ⟨L, h.frame rfl fun _ => rfl, .same⟩
  · have ht := (h.named t q).mp hsome
    obtain ⟨nodes', hpop', hrep⟩ := h.linked.erase ht
    obtain ⟨rfl, rfl⟩ : nodes' = nodes ∧ _ := by simpa using hpop'.symm.trans hpop
    have hnodup := (h.linked.holds q).nodup
    refine ⟨_, ⟨hrep, fun u r => ?_⟩, .removed q t ht⟩
    by_cases hu : u = t
    · subst hu
      by_cases hr : r = q
      · subst hr
        simp [Queues.modify, hnodup.not_mem_erase]
      · have hur : u ∉ L r := fun hc => hr (h.linked.disjoint r q u hc ht)
        simp [Queues.modify, hr, hur]
    · by_cases hr : r = q
      · subst hr
        simp [Queues.modify, hu, h.named, List.mem_erase_of_ne hu]
      · simp [Queues.modify, hu, hr, h.named]

/-- What comes after a task that is in `q` or in no queue. -/
theorem next (h : s.Membership L) (hfree : s.FreeFor q t) :
    s.nodes.next t = .null ∨ s.nodes.next t = .fin q ∨
      ∃ u, s.nodes.next t = .node u ∧ s.FreeFor q u := by
  rcases hfree with hnone | hsome
  · exact .inl (h.linked.free t (h.not_mem hnone)).2
  · rcases (h.linked.holds q).chain.next ((h.named t q).mp hsome) with hn | ⟨u, hu, hn⟩
    · exact .inr (.inl hn)
    · exact .inr (.inr ⟨u, hn, h.freeFor hu⟩)

theorem head (h : s.Membership L) (q : QueueId) :
    s.nodes.head q = .fin q ∨ ∃ u, s.nodes.head q = .node u ∧ s.FreeFor q u := by
  rcases (h.linked.holds q).chain.start with ⟨hc, -⟩ | ⟨u, l, hc, hl⟩
  · exact .inl hc
  · exact .inr ⟨u, hc, h.freeFor (hl ▸ List.mem_cons_self)⟩

end Membership

/-! ### What is on the stack -/

/-- The call touches no list but that of the queue the task is in. -/
def Safe (s : Queues) : Call → Prop
  | .spawn _ _ => False
  | .cancel q t =>
    (s.member t).state = .ready ∨ s.runningTask q = some t ∨ q = .loop ∧ s.FreeFor .loop t
  | .cancelTask q t => (s.member t).state = .ready ∨ s.runningTask q = some t ∨ s.FreeFor q t
  | .unwind q t => (s.member t).state = .ready ∨ s.FreeFor q t
  | .cancelAll q (.node t) => s.FreeFor q t
  | .popAll q (.node t) => s.FreeFor q t
  | _ => True

/-- Tasks leave queues or become ready, and nothing else. -/
structure Settles (s s' : Queues) : Prop where
  taskQueue : ∀ t, (s'.member t).taskQueue = (s.member t).taskQueue ∨ (s'.member t).taskQueue = none
  ready : ∀ t, (s.member t).state = .ready → (s'.member t).state = .ready
  running : s'.runningTask = s.runningTask

theorem Settles.refl (s : Queues) : Settles s s := ⟨fun _ => .inl rfl, fun _ => id, rfl⟩

theorem Settles.of_eq (hm : s'.member = s.member) (hr : s'.runningTask = s.runningTask) :
    Settles s s' := ⟨fun _ => .inl (by rw [hm]), fun _ => by rw [hm]; exact id, hr⟩

theorem Settles.trans (h : Settles s s') (h' : Settles s' u) : Settles s u where
  taskQueue t := by
    rcases h'.taskQueue t with ht | ht
    · rw [ht]
      exact h.taskQueue t
    · exact .inr ht
  ready t ht := h'.ready t (h.ready t ht)
  running := h'.running.trans h.running

theorem Settles.modify {f : Member → Member} (s : Queues) (t : TaskId)
    (hq : (f (s.member t)).taskQueue = (s.member t).taskQueue)
    (hr : (s.member t).state = .ready → (f (s.member t)).state = .ready) :
    Settles s (s.modify t f) where
  taskQueue u := by
    refine .inl ?_
    by_cases hu : u = t
    · subst hu
      simpa [Queues.modify] using hq
    · simp [Queues.modify, hu]
  ready u hready := by
    by_cases hu : u = t
    · subst hu
      simpa [Queues.modify] using hr hready
    · simpa [Queues.modify, hu] using hready
  running := rfl

theorem Settles.freeFor (h : Settles s s') (hfree : s.FreeFor q t) : s'.FreeFor q t := by
  rcases h.taskQueue t with ht | ht
  · rw [FreeFor, ht]
    exact hfree
  · exact .inl ht

theorem Safe.mono (h : Settles s s') (hc : s.Safe c) : s'.Safe c := by
  cases c with
  | spawn q t => exact hc
  | cancel q t =>
    exact hc.imp (h.ready t) (Or.imp (fun hrun => h.running ▸ hrun) (And.imp id h.freeFor))
  | cancelTask q t => exact hc.imp (h.ready t) (Or.imp (fun hrun => h.running ▸ hrun) h.freeFor)
  | unwind q t => exact hc.imp (h.ready t) h.freeFor
  | cancelAll q p =>
    cases p with
    | node t => exact h.freeFor hc
    | _ => trivial
  | popAll q p =>
    cases p with
    | node t => exact h.freeFor hc
    | _ => trivial
  | _ => trivial

/-- What a call does to the lists, and what it leaves on the stack. -/
structure Performs (s : Queues) (L : QueueId → List TaskId) (s' : Queues) : Prop where
  lists : ∃ L', s'.Membership L' ∧ Moves L L'
  settles : Settles s s'
  calls : ∀ c ∈ s'.calls, c ∈ s.calls ∨ s'.Safe c

theorem Performs.same (h : s.Membership L) : Performs s L s :=
  ⟨⟨L, h, .same⟩, .refl s, fun _ => .inl⟩

/-- Another call is put on the stack. -/
theorem Performs.call (h : Performs s L s') (hc : s'.Safe c) : Performs s L (s'.call c) := by
  obtain ⟨L', hm, hmoves⟩ := h.lists
  have hs : Settles s' (s'.call c) := .of_eq rfl rfl
  refine ⟨⟨L', hm.frame rfl fun _ => rfl, hmoves⟩, h.settles.trans hs, fun d hd => ?_⟩
  rcases List.mem_cons.mp hd with rfl | hd
  · exact .inr (hc.mono hs)
  · exact (h.calls d hd).imp id (Safe.mono hs)

/-- A change that is about no queue. -/
theorem Performs.frame (h : s.Membership L) (hn : s'.nodes = s.nodes)
    (hq : ∀ t, (s'.member t).taskQueue = (s.member t).taskQueue)
    (hr : ∀ t, (s.member t).state = .ready → (s'.member t).state = .ready)
    (hrun : s'.runningTask = s.runningTask) (hcalls : s'.calls = s.calls) : Performs s L s' :=
  ⟨⟨L, h.frame hn hq, .same⟩, ⟨fun t => .inl (hq t), hr, hrun⟩, fun _ hc => .inl (hcalls ▸ hc)⟩

theorem pop_frame {x : Queues × ResultGeneric} (hx : s.pop q t = some x) :
    Settles s x.1 ∧ x.1.calls = s.calls := by
  obtain ⟨⟨nodes, result⟩, -, rfl⟩ := Option.map_eq_some_iff.mp hx
  cases result with
  | failed => exact ⟨.of_eq rfl rfl, rfl⟩
  | successful =>
    refine ⟨⟨fun u => ?_, fun u hu => ?_, rfl⟩, rfl⟩
    · by_cases hut : u = t
      · subst hut
        simp [Queues.modify]
      · simp [Queues.modify, hut]
    · by_cases hut : u = t
      · subst hut
        simpa [Queues.modify] using hu
      · simpa [Queues.modify, hut] using hu

theorem Performs.pop {x : Queues × ResultGeneric} (h : s.Membership L) (hfree : s.FreeFor q t)
    (hx : s.pop q t = some x) : Performs s L x.1 :=
  ⟨h.pop hfree hx, (pop_frame hx).1, fun _ hc => .inl ((pop_frame hx).2 ▸ hc)⟩

theorem Performs.trans (hs : Performs s L s') (hu : Performs s' L u) : Performs s L u where
  lists := hu.lists
  settles := hs.settles.trans hu.settles
  calls c hc := by
    rcases hu.calls c hc with hc | hc
    · exact (hs.calls c hc).imp id (Safe.mono hu.settles)
    · exact .inr hc

/-! ### One call -/

namespace Membership

theorem resume (h : s.Membership L) (t : TaskId) : Performs s L (s.resume t) := by
  rw [Queues.resume]
  split
  · exact .same h
  · exact (Performs.same h).call trivial

theorem scheduleTask (h : s.Membership L) (q : QueueId) (t : TaskId) :
    Performs s L (s.scheduleTask q t).1 ∧ (s.scheduleTask q t).1.Membership L := by
  rw [Queues.scheduleTask]
  split_ifs
  · exact ⟨.same h, h⟩
  · exact ⟨.same h, h⟩
  · have hm := h.modify t (f := fun x => { x with state := .ready }) fun _ => rfl
    have hs := Settles.modify (f := fun x => { x with state := .ready }) s t rfl fun _ => rfl
    exact ⟨⟨⟨L, hm.frame rfl fun _ => rfl, .same⟩, hs.trans (.of_eq rfl rfl), fun _ => .inl⟩,
      hm.frame rfl fun _ => rfl⟩

theorem schedule (h : s.Membership L) (q : QueueId) (t : TaskId) : Performs s L (s.schedule t q) := by
  obtain ⟨hs, hm⟩ := h.scheduleTask q t
  rcases hx : s.scheduleTask q t with ⟨x, result⟩
  rw [hx] at hs hm
  cases result with
  | failed => simpa only [Queues.schedule, hx] using hs
  | successful =>
    cases q with
    | loop => simpa only [Queues.schedule, hx] using hs
    | wait w =>
      simp only [Queues.schedule, hx]
      split
      · exact hs
      · exact hs.trans (hm.resume _)

/-- A branch is left to the parent only where its `cancel` will not pop it. -/
theorem cancel (h : s.Membership L) (hc : s.Safe (.cancel q t)) (hs : s.cancel t q = some s') :
    Performs s L s' := by
  cases q with
  | loop =>
    obtain rfl := Option.some.inj hs
    exact (Performs.same h).call (hc.imp id (Or.imp id And.right))
  | wait w =>
    by_cases hrun : s.runningTask (.wait w) = some t
    · obtain rfl : s = s' := by simpa [Queues.cancel, hrun] using hs
      exact .same h
    · obtain ⟨p, -, rfl⟩ : ∃ p, s.parent w = some p ∧ s.call (.cancel p t) = s' := by
        simpa [Queues.cancel, hrun] using hs
      have hready : (s.member t).state = .ready := by simpa [Safe, hrun] using hc
      exact (Performs.same h).call (.inl hready)

theorem cancelTask (h : s.Membership L) (hc : s.Safe (.cancelTask q t)) :
    Performs s L (s.cancelTask q t) := by
  rw [Queues.cancelTask]
  split_ifs with hrun
  · exact .same h
  · exact (Performs.same h).call (hc.imp id (Or.resolve_left · hrun))

theorem unwind (h : s.Membership L) (hc : s.Safe (.unwind q t)) (hs : s.unwind q t = some s') :
    Performs s L s' := by
  rw [Queues.unwind] at hs
  split at hs
  · rename_i f frames hframes
    obtain rfl := Option.some.inj hs
    have hm := Settles.modify (f := fun x => { x with frames := frames }) s t rfl id
    have hmoved : Performs s L (s.modify t fun x => { x with frames := frames }) :=
      ⟨⟨L, h.modify t fun _ => rfl, .same⟩, hm, fun _ => .inl⟩
    exact (hmoved.call (hc.mono hm)).call trivial
  · split_ifs at hs with hready
    · obtain rfl := Option.some.inj hs
      exact .same h
    · obtain ⟨x, hpop, rfl⟩ := Option.map_eq_some_iff.mp hs
      have hm := Settles.modify (f := fun x => { x with state := .exited }) s t rfl
        fun hc => absurd hc hready
      have hkeep := h.modify t (f := fun x => { x with state := .exited }) fun _ => rfl
      have hmoved : Performs s L (s.modify t fun x => { x with state := .exited }) :=
        ⟨⟨L, hkeep, .same⟩, hm, fun _ => .inl⟩
      exact hmoved.trans (.pop hkeep (hm.freeFor (hc.resolve_left hready)) hpop)

theorem exit (h : s.Membership L) (hs : s.exit q = some s') : Performs s L s' := by
  rw [Queues.exit] at hs
  split_ifs at hs
  obtain rfl := Option.some.inj hs
  refine (Performs.same h).call ?_
  rcases h.head q with hhead | ⟨u, hhead, hu⟩ <;> rw [hhead]
  · trivial
  · exact hu

theorem cancelAll {p : Link TaskId QueueId} (h : s.Membership L) (hc : s.Safe (.cancelAll q p))
    (hs : s.cancelAll q p = some s') : Performs s L s' := by
  cases p with
  | null => cases hs
  | node t =>
    obtain rfl := Option.some.inj hs
    have hnext : s.Safe (.cancelAll q (s.nodes.next t)) := by
      rcases h.next hc with hn | hn | ⟨u, hn, hu⟩ <;> rw [hn]
      · trivial
      · trivial
      · exact hu
    exact ((Performs.same h).call hnext).call (.inr (.inr hc))
  | fin r =>
    rw [Queues.cancelAll] at hs
    split_ifs at hs
    obtain rfl := Option.some.inj hs
    refine Performs.call (.frame h rfl (fun _ => rfl) (fun _ => id) rfl rfl) ?_
    rcases h.head q with hhead | ⟨u, hhead, hu⟩
    · rw [hhead]
      trivial
    · rw [hhead]
      exact hu

theorem popAll {p : Link TaskId QueueId} (h : s.Membership L) (hc : s.Safe (.popAll q p))
    (hs : s.popAll q p = some s') : Performs s L s' := by
  cases p with
  | null => cases hs
  | node t =>
    obtain ⟨x, hpop, rfl⟩ := Option.map_eq_some_iff.mp hs
    have hnext : s.Safe (.popAll q (s.nodes.next t)) := by
      rcases h.next hc with hn | hn | ⟨u, hn, hu⟩ <;> rw [hn]
      · trivial
      · trivial
      · exact hu
    exact (Performs.pop h hc hpop).call (hnext.mono (pop_frame hpop).1)
  | fin r =>
    rw [Queues.popAll] at hs
    split_ifs at hs
    obtain rfl := Option.some.inj hs
    exact .same h

theorem perform (h : s.Membership L) (hc : s.Safe c) (hs : s.perform c = some s') :
    Performs s L s' := by
  cases c with
  | spawn q t => exact hc.elim
  | schedule q t =>
    obtain rfl := Option.some.inj hs
    exact h.schedule q t
  | cancel q t => exact h.cancel hc hs
  | cancelTask q t =>
    obtain rfl := Option.some.inj hs
    exact h.cancelTask hc
  | unwind q t => exact h.unwind hc hs
  | finalize f =>
    obtain rfl := Option.some.inj hs
    cases f with
    | plain => exact .same h
    | wait w =>
      have hend := (Performs.same h).call (c := .finalized w) trivial
      exact hend.call trivial
  | finalized w =>
    obtain rfl := Option.some.inj hs
    exact .frame h rfl (fun _ => rfl) (fun _ => id) rfl rfl
  | exit q => exact h.exit hs
  | cancelAll q p => exact h.cancelAll hc hs
  | popAll q p => exact h.popAll hc hs

end Membership

/-! ### One step -/

/-- Every call on the stack is safe; `spawn` may push, and then it is the only one. -/
def Pending (s : Queues) : Prop :=
  (∃ q t, s.calls = [.spawn q t] ∧ s.FreeFor .loop t) ∨ ∀ c ∈ s.calls, s.Safe c

theorem Pending.of_nil (h : s.calls = []) : s.Pending := .inr (by simp [h])

theorem Pending.of_single (h : s.calls = [c]) (hc : s.Safe c) : s.Pending := .inr (by simpa [h])

/-- What a step leads to. -/
structure Leads (L : QueueId → List TaskId) (s : Queues) : Prop where
  lists : ∃ L', s.Membership L' ∧ Moves L L'
  pending : s.Pending

/-- A step of user code that no queue notices. -/
theorem Leads.frame (h : s.Membership L) (hn : s'.nodes = s.nodes)
    (hq : ∀ t, (s'.member t).taskQueue = (s.member t).taskQueue) (hp : s'.Pending) : Leads L s' :=
  ⟨⟨L, h.frame hn hq, .same⟩, hp⟩

theorem modify_taskQueue {f : Member → Member} (s : Queues) (t u : TaskId)
    (hf : (f (s.member t)).taskQueue = (s.member t).taskQueue) :
    ((s.modify t f).member u).taskQueue = (s.member u).taskQueue := by
  by_cases hu : u = t
  · subst hu
    simpa [Queues.modify] using hf
  · simp [Queues.modify, hu]

namespace Membership

theorem spawnTask (h : s.Membership L) (hfree : s.FreeFor q t) (hcalls : s.calls = [])
    (hs : s.spawnTask q t = some s') : Leads L s' := by
  obtain ⟨⟨x, result⟩, hpush, rfl⟩ := Option.map_eq_some_iff.mp hs
  have hx : x.calls = [] := by
    obtain ⟨y, -, hy⟩ := Option.map_eq_some_iff.mp hpush
    obtain ⟨rfl, -⟩ := Prod.mk.inj hy
    exact hcalls
  obtain ⟨L', hm, hmoves⟩ := h.push hfree hpush
  cases result with
  | failed => exact ⟨⟨L', hm, hmoves⟩, .of_nil hx⟩
  | successful =>
    refine ⟨⟨L', hm.frame rfl fun _ => rfl, hmoves⟩, ?_⟩
    exact .of_single (c := .schedule q t) (by simp [Queues.call, hx]) trivial

theorem finished {r : ActiveRun} {runs : List ActiveRun} {st : ControlState} (h : s.Membership L)
    (hfree : st = .exited → s.FreeFor r.queue r.task) (hcalls : s.calls = [])
    (hs : s.finished r runs st = some s') : Leads L s' := by
  let m : Queues := { s with
    runningTask := Function.update s.runningTask r.queue none, runs := runs }
  let n : Queues := m.modify r.task fun x => { x with state := st }
  have hqueue : ∀ t, (n.member t).taskQueue = (s.member t).taskQueue := fun t =>
    modify_taskQueue m r.task t rfl
  have hn : n.Membership L := h.frame rfl hqueue
  by_cases hexit : st = .exited
  · have hpop : ∃ x, n.pop r.queue r.task = some (x, .successful) ∧ x = s' := by
      simp only [Queues.finished, if_pos hexit] at hs
      split at hs
      · rename_i x hx
        exact ⟨x, hx, Option.some.inj hs⟩
      · cases hs
    obtain ⟨x, hx, rfl⟩ := hpop
    have hfree' : n.FreeFor r.queue r.task := by
      rw [FreeFor, hqueue]
      exact hfree hexit
    obtain ⟨L', hm, hmoves⟩ := hn.pop hfree' hx
    exact ⟨⟨L', hm, hmoves⟩, .of_nil ((pop_frame hx).2.trans hcalls)⟩
  · simp only [Queues.finished, if_neg hexit] at hs
    split_ifs at hs
    · obtain rfl := Option.some.inj hs
      exact .frame h rfl hqueue (.of_nil hcalls)
    · obtain rfl := Option.some.inj hs
      exact .frame h rfl hqueue (.of_nil hcalls)

theorem afterYield (h : s.Membership L) (hcalls : s.calls = []) (r : ActiveRun)
    (runs : List ActiveRun) : Leads L (s.afterYield r runs) := by
  rw [Queues.afterYield]
  split
  · exact .frame h rfl (fun _ => rfl) (.of_nil hcalls)
  · refine .frame h rfl (fun _ => rfl) ?_
    exact .of_single (c := .schedule r.queue r.task) (by simp [Queues.call, hcalls]) trivial

theorem bodyStep {r : ActiveRun} {runs : List ActiveRun} {op : QueueOp} (h : s.Membership L)
    (hruns : s.runs = r :: runs) (ho : s.Orderly op) (hcalls : s.calls = [])
    (hs : s.bodyStep r runs op = some s') : Leads L s' := by
  cases op with
  | call =>
    simp only [Queues.bodyStep] at hs
    split at hs
    · cases hs
    · obtain rfl := Option.some.inj hs
      exact .frame h rfl (fun t => modify_taskQueue s r.task t rfl) (.of_nil hcalls)
  | await w =>
    simp only [Queues.bodyStep] at hs
    split at hs
    · cases hs
    · obtain rfl := Option.some.inj hs
      refine .frame h rfl (fun t => ?_) (.of_nil hcalls)
      exact modify_taskQueue { s with owner := Function.update s.owner w (some r.task) } r.task t rfl
  | finalize =>
    simp only [Queues.bodyStep] at hs
    split at hs
    · cases hs
    · rename_i f frames hframes
      obtain rfl := Option.some.inj hs
      refine .frame h rfl (fun t =>
        modify_taskQueue (f := fun x => { x with frames := frames }) s r.task t rfl) ?_
      exact .of_single (c := .finalize f) (by simp [Queues.call, Queues.modify, hcalls]) trivial
  | reorder frames =>
    simp only [Queues.bodyStep, Option.ite_none_right_eq_some, Option.some.injEq] at hs
    obtain ⟨-, rfl⟩ := hs
    exact .frame h rfl (fun t => modify_taskQueue s r.task t rfl) (.of_nil hcalls)
  | finished st =>
    simp only [Queues.bodyStep, Option.ite_none_right_eq_some] at hs
    exact h.finished (fun hexit => ho hexit r (by simp [hruns])) hcalls hs.2
  | _ => cases hs

theorem runStep {op : QueueOp} (h : s.Membership L) (ho : s.Orderly op) (hcalls : s.calls = [])
    (hs : s.runStep op = some s') : Leads L s' := by
  rw [Queues.runStep] at hs
  split at hs
  · cases hs
  · rename_i r runs hruns
    split_ifs at hs
    · obtain rfl := Option.some.inj hs
      exact h.afterYield hcalls r runs
    · exact h.bodyStep hruns ho hcalls hs

theorem userStep {op : QueueOp} (h : s.Membership L) (ho : s.Orderly op) (hcalls : s.calls = [])
    (hs : s.userStep op = some s') : Leads L s' := by
  cases op with
  | init t =>
    simp only [Queues.userStep, Option.ite_none_right_eq_some, Option.some.injEq] at hs
    obtain ⟨hnone, rfl⟩ := hs
    exact .frame h rfl (fun u => modify_taskQueue s t u hnone.symm) (.of_nil hcalls)
  | spawn t =>
    obtain rfl := Option.some.inj hs
    exact .frame h rfl (fun _ => rfl) (.inl ⟨.loop, t, by simp [Queues.call, hcalls], ho⟩)
  | taskCreate o t =>
    obtain ⟨q, -, rfl⟩ := Option.map_eq_some_iff.mp hs
    exact .frame h rfl (fun _ => rfl) (.inl ⟨q, t, by simp [Queues.call, hcalls], ho⟩)
  | branchCreate w t => exact h.spawnTask ho hcalls hs
  | cancel t =>
    simp only [Queues.userStep] at hs
    split at hs
    · obtain rfl := Option.some.inj hs
      exact .frame h rfl (fun _ => rfl) (.of_nil hcalls)
    · rename_i q hq
      obtain rfl := Option.some.inj hs
      refine .frame h rfl (fun _ => rfl) (.of_single (c := .cancel q t) (by simp [Queues.call, hcalls]) ?_)
      rcases ho q hq with rfl | hready | hrun
      · exact .inr (.inr ⟨rfl, .inr hq⟩)
      · exact .inl hready
      · exact .inr (.inl hrun)
  | exit =>
    obtain rfl := Option.some.inj hs
    refine .frame h rfl (fun _ => rfl) ?_
    exact .of_single (c := .exit .loop) (by simp [Queues.call, hcalls]) trivial
  | start q =>
    simp only [Queues.userStep, Option.ite_none_right_eq_some, Queues.start] at hs
    obtain ⟨-, hs⟩ := hs
    split at hs
    · cases hs
    · obtain rfl := Option.some.inj hs
      exact .frame h rfl (fun _ => rfl) (.of_nil hcalls)
  | _ => exact h.runStep ho hcalls hs

/-- `spawn` goes up to the `Loop`, and pushes there. -/
theorem spawn (h : s.Membership L) (hfree : s.FreeFor .loop t) (hcalls : s.calls = [])
    (hs : s.spawn t q = some s') : Leads L s' := by
  cases q with
  | loop => exact h.spawnTask hfree hcalls hs
  | wait w =>
    obtain ⟨p, -, rfl⟩ := Option.map_eq_some_iff.mp hs
    exact .frame h rfl (fun _ => rfl) (.inl ⟨p, t, by simp [Queues.call, hcalls], hfree⟩)

theorem tick (h : s.Membership L) (hp : s.Pending) (hs : s.step .tick = some s') : Leads L s' := by
  simp only [step] at hs
  split at hs
  · cases hs
  rename_i c calls hc
  let m : Queues := { s with calls := calls }
  have hm : m.Membership L := h.frame rfl fun _ => rfl
  rcases hp with ⟨q, t, hcalls, hfree⟩ | hsafe
  · obtain ⟨rfl, rfl⟩ : .spawn q t = c ∧ [] = calls := by simpa using hcalls.symm.trans hc
    exact hm.spawn hfree rfl hs
  · have hmono : Settles s m := .of_eq rfl rfl
    have hall : ∀ d ∈ c :: calls, m.Safe d := fun d hd => (hsafe d (hc ▸ hd)).mono hmono
    have hperf : Performs m L s' := hm.perform (hall c List.mem_cons_self) hs
    refine ⟨hperf.lists, .inr fun d hd => ?_⟩
    rcases hperf.calls d hd with hd | hd
    · exact (hall d (List.mem_cons_of_mem c hd)).mono hperf.settles
    · exact hd

/-- While a finalizer has control, or no member function is on the stack. -/
theorem step_resume (h : s.Membership L) (hp : s.Pending) (hs : s.step (.resume t) = some s') :
    Leads L s' := by
  have hperf := h.resume t
  simp only [step] at hs
  split at hs
  · rename_i hcalls
    obtain rfl := Option.some.inj hs
    refine ⟨hperf.lists, .inr fun d hd => ?_⟩
    exact (hperf.calls d hd).resolve_left (by simp [hcalls])
  · rename_i calls hcalls
    obtain rfl := Option.some.inj hs
    have hsafe : ∀ d ∈ s.calls, s.Safe d := by
      rcases hp with ⟨q, u, hspawn, -⟩ | hsafe
      · simp [hcalls] at hspawn
      · exact hsafe
    refine ⟨hperf.lists, .inr fun d hd => ?_⟩
    rcases hperf.calls d hd with hd | hd
    · exact (hsafe d hd).mono hperf.settles
    · exact hd
  · cases hs

theorem step {op : QueueOp} (h : s.Membership L) (hp : s.Pending) (ho : s.Orderly op)
    (hs : s.step op = some s') : Leads L s' := by
  cases op with
  | tick => exact h.tick hp hs
  | resume t => exact h.step_resume hp hs
  | _ =>
    simp only [Queues.step] at hs
    split at hs
    · exact h.userStep ho ‹_› hs
    · cases hs

end Membership

/-! ### Whole runs -/

theorem init_membership : init.Membership fun _ => [] where
  linked := Nodes.rep_empty
  named t q := by simp [init]

theorem init_pending : init.Pending := .of_nil rfl

/-- In an orderly run every attached task is in the list of the queue that its `_task_queue` names,
    and in no other, every queue counts its tasks, and a task that leaves a queue leaves the lists of
    the others alone. -/
theorem membership (as : List QueueOp) (h : Runs.Meets Queues.step Orderly init as) :
    Runs.Always Queues.step (fun s => ∃ L, s.Membership L) init as ∧
    ∀ bs op cs s s' L L', as = bs ++ op :: cs → exec init bs = some s → Queues.step s op = some s' →
      s.Membership L → s'.Membership L' → ∀ q t, t ∈ L q → t ∉ L' q →
        L' q = (L q).erase t ∧ ∀ r, r ≠ q → L' r = L r := by
  let I : Queues → Prop := fun s => (∃ L, s.Membership L) ∧ s.Pending
  have hI : I init := ⟨⟨_, init_membership⟩, init_pending⟩
  have hstep : ∀ s op s', I s → s.Orderly op → Queues.step s op = some s' → I s' := by
    rintro s op s' ⟨⟨L, hm⟩, hp⟩ ho hs
    obtain ⟨⟨L', hm', -⟩, hp'⟩ := hm.step hp ho hs
    exact ⟨⟨L', hm'⟩, hp'⟩
  refine ⟨Runs.always_of_meets hstep (fun _ hs => hs.1) as init hI h, ?_⟩
  rintro bs op cs s s' L L' rfl hbs hs hm hm' q t ht hgone
  obtain ⟨hmeets, ho⟩ := Runs.meets_split h hbs
  obtain ⟨-, hp⟩ := Runs.exec_invariant hstep bs init s hbs hmeets hI
  obtain ⟨⟨M, hM, hmoves⟩, -⟩ := hm.step hp ho hs
  obtain rfl : L' = M := hm'.linked.unique hM.linked
  exact hmoves.of_removed ht hgone

/-- A branch is cancelled while it is in the ready list of its `Wait`, and exits there; a second one
    is attached when the `Wait` is finalized. -/
theorem membership_nested :
    let as : List QueueOp := [.spawn 1, .tick, .tick, .start .loop, .branchCreate 1 3, .tick,
      .branchCreate 1 2, .tick, .await 1, .cancel 2, .tick, .tick, .tick, .tick, .tick, .tick,
      .start (.wait 1), .finished .exited, .finalize, .tick, .tick, .tick, .tick, .tick, .tick, .tick,
      .tick, .tick, .tick, .tick, .finalize, .tick, .finished .exited]
    Runs.Always Queues.step (fun s => ∃ L, s.Membership L) init as ∧
    ∀ bs op cs s s' L L', as = bs ++ op :: cs → exec init bs = some s → Queues.step s op = some s' →
      s.Membership L → s'.Membership L' → ∀ q t, t ∈ L q → t ∉ L' q →
        L' q = (L q).erase t ∧ ∀ r, r ≠ q → L' r = L r :=
  membership _ (by decide)

/-- A suspended branch is cancelled by another task: `cancel` of the `Loop` takes it out of the list
    of its `Wait`. The `Loop` then counts no task, and its list is the end of the other. -/
theorem membership_cancelled_branch :
    ∃ s, exec init [.spawn 1, .tick, .tick, .start .loop, .branchCreate 1 2, .tick, .await 1,
        .start (.wait 1), .finished .suspended, .finished .suspended, .cancel 2, .tick, .tick, .tick,
        .tick, .tick, .tick] = some s ∧
      (s.member 1).taskQueue = some .loop ∧ s.nodes.size .loop = 0 ∧
      (s.member 2).taskQueue = none ∧ s.nodes.size (.wait 1) = 1 ∧ ¬ ∃ L, s.Membership L := by
  refine ⟨_, rfl, rfl, rfl, rfl, rfl, ?_⟩
  rintro ⟨L, h⟩
  exact (h.linked.holds .loop).chain.start_ne_fin (r := .wait 1) (by simp) rfl

end Jinx.Sched.Queues
