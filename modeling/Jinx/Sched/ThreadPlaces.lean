import Jinx.Sched.Threads

/-! Where a task is, while any number of threads call `schedule`.

    At any time a task is at one place (`Spot`): nowhere, with the caller that has made it ready, in the
    ready list, with the loop, or with a caller that is about to put `Exited` back. The state word is
    `Ready` at all of them but nowhere, and where the loop holds a task that has yielded. Here is what the
    accesses of `schedule` do to that. -/

namespace Jinx.Sched.Threads
open LinkedListThreadSafe

variable {κ : Type*} [DecidableEq κ] {r r' : LinkedListThreadSafe (Option κ) TaskId} {l l' : List TaskId}
  {c c' : Option κ} {t u : TaskId} {b : Bool}

/-- A place inside `push` of the task. -/
def forPush (t : TaskId) : Place TaskId → Prop
  | .push v | .link v _ | .pushExchange v _ => v = t
  | .pushed | .grow _ => True
  | _ => False

/-- A place inside `pop`. -/
def inPop : Place TaskId → Prop
  | .pop | .follow _ | .popExchange .. | .popped _ | .shrink .. => True
  | _ => False

omit [DecidableEq κ] in
theorem forPush_pushing {p : Place TaskId} (h : forPush t p) (hp : p.pushing = some u) : u = t := by
  cases p with
  | push v | link v _ | pushExchange v _ => exact (Option.some.inj hp).symm.trans h
  | _ => cases hp

/-- What an access inside `push` does: the list is the same, or it has got the task. -/
theorem push_access (h : Popping r l) (hp : forPush t (r.place c))
    (hstep : r.step (.access c b) = some r') :
    (∀ c', c' ≠ c → r'.place c' = r.place c') ∧ (forPush t (r'.place c) ∨ r'.place c = .idle) ∧
    ((Popping r' l ∧ (r'.place c).pushing = (r.place c).pushing) ∨
      ((r.place c).pushing = some t ∧ Popping r' (t :: l) ∧ (r'.place c).pushing = none)) := by
  obtain ⟨l', hnext⟩ := h.step (a := .access c b) trivial trivial hstep
  have hout := access_outcome hstep
  refine ⟨fun c' hne => outcome_place hout hne, ?_⟩
  cases hout with
  | relink v hpushing _ =>
    rw [goTo_place_self]
    exact ⟨.inl (forPush_pushing hp hpushing), .inl ⟨h.same hnext rfl, hpushing.symm⟩⟩
  | link v oldHead ht =>
    rw [ht] at hp
    rw [goTo_place_self, ht]
    exact ⟨.inl hp, .inl ⟨h.same hnext rfl, rfl⟩⟩
  | pushed v ht =>
    rw [ht] at hp
    obtain rfl : v = t := hp
    have hl : some (v :: l) = some l' := (contents_append h.contents ..).symm.trans hnext.contents
    rw [goTo_place_self, ht]
    exact ⟨.inl trivial, .inr ⟨rfl, Option.some.inj hl ▸ hnext, rfl⟩⟩
  | refollow hpopping _ =>
    cases ht : r.place c <;> rw [ht] at hp hpopping <;> first | exact hp.elim | cases hpopping
  | follow oldHead ht => exact (ht ▸ hp).elim
  | popped newHead ht _ => exact (ht ▸ hp).elim
  | count n p hcounts =>
    rw [goTo_place_self]
    cases ht : r.place c with
    | pushed =>
      obtain ⟨-, rfl⟩ : r.size = n ∧ Place.grow r.size = p := by simpa [ht, Place.counts] using hcounts
      exact ⟨.inl trivial, .inl ⟨h.same hnext rfl, rfl⟩⟩
    | grow m =>
      obtain ⟨-, rfl⟩ : m + 1 = n ∧ Place.idle = p := by simpa [ht, Place.counts] using hcounts
      exact ⟨.inr rfl, .inl ⟨h.same hnext rfl, rfl⟩⟩
    | _ => rw [ht] at hp hcounts; first | exact hp.elim | cases hcounts

/-- What an access inside `pop` does: nothing to the list before the exchange and after it. -/
theorem pop_access (h : Popping r l) (hp : inPop (r.place c)) (hstep : r.step (.access c b) = some r') :
    (∀ c', c' ≠ c → r'.place c' = r.place c') ∧
    ((Popping r' l ∧
        (r'.place c = .idle ∨ inPop (r'.place c) ∧ answer (r'.place c) = answer (r.place c))) ∨
      ∃ t l', l = t :: l' ∧ Popping r' l' ∧ answer (r.place c) = none ∧
        r'.place c = .popped (some t)) := by
  obtain ⟨l', hnext⟩ := h.step (a := .access c b) trivial trivial hstep
  have hout := access_outcome hstep
  refine ⟨fun c' hne => outcome_place hout hne, ?_⟩
  cases hout with
  | relink v hpushing _ =>
    cases ht : r.place c <;> rw [ht] at hp hpushing <;> first | exact hp.elim | cases hpushing
  | link v oldHead ht => exact (ht ▸ hp).elim
  | pushed v ht => exact (ht ▸ hp).elim
  | refollow hpopping _ =>
    refine .inl ⟨h.same hnext rfl, .inr ?_⟩
    rw [goTo_place_self]
    refine ⟨trivial, ?_⟩
    cases ht : r.place c <;> rw [ht] at hpopping <;> first | rfl | cases hpopping
  | follow oldHead ht =>
    refine .inl ⟨h.same hnext rfl, .inr ?_⟩
    rw [goTo_place_self, ht]
    exact ⟨trivial, rfl⟩
  | popped newHead ht _ =>
    rw [goTo_place_self, ht]
    have hpop : (StackOp.pop r.head).apply l = some l' :=
      (contents_append h.contents ..).symm.trans hnext.contents
    rw [StackOp.apply, if_pos h.links.head?_eq] at hpop
    obtain rfl := Option.some.inj hpop
    have hhead := h.links.head?_eq
    cases l with
    | nil =>
      refine .inl ⟨hnext, .inr ⟨trivial, ?_⟩⟩
      rw [← hhead]
      rfl
    | cons t l =>
      refine .inr ⟨t, l, rfl, hnext, rfl, ?_⟩
      rw [← hhead]
      rfl
  | count n p hcounts =>
    refine .inl ⟨h.same hnext rfl, ?_⟩
    rw [goTo_place_self]
    cases ht : r.place c with
    | popped oldHead =>
      cases oldHead with
      | none =>
        obtain ⟨-, rfl⟩ : r.size = n ∧ Place.idle = p := by simpa [ht, Place.counts] using hcounts
        exact .inl rfl
      | some v =>
        obtain ⟨-, rfl⟩ : r.size = n ∧ Place.shrink v r.size = p := by
          simpa [ht, Place.counts] using hcounts
        exact .inr ⟨trivial, rfl⟩
    | shrink v m =>
      obtain ⟨-, rfl⟩ : m - 1 = n ∧ Place.idle = p := by simpa [ht, Place.counts] using hcounts
      exact .inl rfl
    | _ => rw [ht] at hp hcounts; first | exact hp.elim | cases hcounts

/-- Where a task is. -/
inductive Spot (κ : Type*) where
  | listed
  | hand (c : Option κ)
  | restoring (c : Option κ)
  | loop
  deriving DecidableEq

/-- The place of a thread in the list, as its call has it. -/
def Fits : Option Scheduling → Place TaskId → Prop
  | some (.push t), p => forPush t p
  | _, p => p = .idle

/-- The loop has taken the task out and has not run it yet. -/
def fresh (s : Threads κ) : Bool :=
  match s.loop with
  | .popping _ => (answer (s.ready.place none)).isSome
  | .passing _ => true
  | _ => false

/-- The wake-up that is on its way. -/
def due (s : Threads κ) (t : TaskId) : Option (Spot κ) → List Error
  | some .listed => [s.error t]
  | some (.hand c) =>
    match s.calls c with
    | some (.setError _ e) => [e]
    | _ => [s.error t]
  | some .loop => if s.fresh then [s.error t] else []
  | _ => []

/-- The state word. -/
def StateAt (s : Threads κ) (t : TaskId) : Option (Spot κ) → Prop
  | none => s.state t ≠ .ready
  | some _ => s.state t = if s.yielded = some t then .yield else .ready

/-- The thread of the loop is in one thing at a time. -/
def OwnPlace (s : Threads κ) : Prop :=
  match s.loop with
  | .popping _ => s.calls none = none ∧ inPop (s.ready.place none)
  | .passing _ => Fits (s.calls none) (s.ready.place none)
  | _ => s.calls none = none ∧ s.ready.place none = .idle

structure Inv (s : Threads κ) (l : List TaskId) (spot : TaskId → Option (Spot κ)) : Prop where
  popping : Popping s.ready l
  listed : ∀ t, t ∈ l ↔ spot t = some .listed
  hand : ∀ c t, s.holding c = some t ↔ spot t = some (.hand c)
  restoring : ∀ c t, s.calls c = some (.restore t) ↔ spot t = some (.restoring c)
  loop : ∀ t, s.inHand = some t ↔ spot t = some .loop
  state : ∀ t, s.StateAt t (spot t)
  caller : ∀ k, Fits (s.calls (some k)) (s.ready.place (some k))
  own : s.OwnPlace
  log : ∀ t, scheduledWith s.log t = takenWith s.log t ++ s.due t (spot t)

variable {s s' : Threads κ} {spot spot' : TaskId → Option (Spot κ)} {p : Scheduling} {x : Option (Spot κ)}

omit [DecidableEq κ] in
theorem yielded_inHand (h : s.yielded = some t) : s.inHand = some t := by
  unfold yielded at h
  unfold inHand
  cases hloop : s.loop with
  | popping y =>
    rw [hloop] at h
    cases hans : answer (s.ready.place none) with
    | none => simpa [hans] using h
    | some u => simp [hans] at h
  | running u again =>
    rw [hloop] at h
    cases again with
    | true => exact h
    | false => cases h
  | yieldPoll u => rw [hloop] at h; exact h
  | outside => rw [hloop] at h; cases h
  | passing u => rw [hloop] at h; cases h

omit [DecidableEq κ] in
theorem stateAt_congr (hstate : s'.state t = s.state t)
    (hyielded : s'.yielded = some t ↔ s.yielded = some t) : s'.StateAt t x ↔ s.StateAt t x := by
  cases x with
  | none => rw [StateAt, StateAt, hstate]
  | some y => simp only [StateAt, hstate, hyielded]

omit [DecidableEq κ] in
/-- What is due depends on the error word, and on the loop or the call that has the task. -/
theorem due_congr (herror : s'.error t = s.error t) (hfresh : x = some .loop → s'.fresh = s.fresh)
    (hcalls : ∀ c, x = some (.hand c) → s'.calls c = s.calls c) : s'.due t x = s.due t x := by
  cases x with
  | none => rfl
  | some y =>
    cases y with
    | listed => simp only [due, herror]
    | restoring c => rfl
    | loop => simp only [due, herror, hfresh rfl]
    | hand c => simp only [due, herror, hcalls c rfl]

/-- The spots of a task that a call may change. -/
def Within (c : Option κ) (x : Option (Spot κ)) : Prop :=
  x = none ∨ x = some .listed ∨ x = some (.hand c) ∨ x = some (.restoring c)

/-- While a thread is in `schedule`, the loop is where it was. -/
def Beside (s : Threads κ) (c : Option κ) : Prop := c = none → ∃ u, s.loop = .passing u

omit [DecidableEq κ] in
theorem Beside.loop_eq (hc : s.Beside c) (hloop : s'.loop = s.loop)
    (hplace : ∀ c', c' ≠ c → s'.ready.place c' = s.ready.place c') :
    s'.inHand = s.inHand ∧ s'.yielded = s.yielded ∧ s'.fresh = s.fresh := by
  cases c with
  | none =>
    obtain ⟨u, hu⟩ := hc rfl
    simp only [inHand, yielded, fresh, hloop, hu, and_self]
  | some k =>
    have hnone : s'.ready.place none = s.ready.place none := hplace none (by simp)
    simp only [inHand, yielded, fresh, hloop, hnone, and_self]

/-- One access of `schedule` for the task `t`, which goes to the spot `x` or stays. -/
structure Moves (s s' : Threads κ) (l l' : List TaskId) (spot : TaskId → Option (Spot κ)) (c : Option κ)
    (t : TaskId) (x : Option (Spot κ)) : Prop where
  loop : s'.loop = s.loop
  calls : ∀ c', c' ≠ c → s'.calls c' = s.calls c'
  place : ∀ c', c' ≠ c → s'.ready.place c' = s.ready.place c'
  fits : Fits (s'.calls c) (s'.ready.place c)
  popping : Popping s'.ready l'
  within : x = spot t ∨ Within c x ∧ Within c (spot t)
  -- the task of the call
  listed : t ∈ l' ↔ x = some .listed
  hand : s'.holding c = some t ↔ x = some (.hand c)
  restoring : s'.calls c = some (.restore t) ↔ x = some (.restoring c)
  state : StateAt { s with state := s'.state } t x
  log : scheduledWith s'.log t = takenWith s'.log t ++ s'.due t x
  -- the other tasks
  listed_ne : ∀ u, u ≠ t → (u ∈ l' ↔ u ∈ l)
  hand_ne : ∀ u, u ≠ t → s'.holding c ≠ some u ∧ s.holding c ≠ some u
  restoring_ne : ∀ u, u ≠ t → s'.calls c ≠ some (.restore u) ∧ s.calls c ≠ some (.restore u)
  state_ne : ∀ u, u ≠ t → s'.state u = s.state u ∧ s'.error u = s.error u
  log_ne : ∀ u, u ≠ t → scheduledWith s'.log u = scheduledWith s.log u ∧
    takenWith s'.log u = takenWith s.log u

omit [DecidableEq κ] in
theorem Inv.move (h : Inv s l spot) (hc : s.Beside c) (hm : Moves s s' l l' spot c t x) :
    Inv s' l' (Function.update spot t x) := by
  obtain ⟨hinHand, hyielded, hfresh⟩ := hc.loop_eq hm.loop hm.place
  have hheld : ∀ c', c' ≠ c → s'.holding c' = s.holding c' := fun c' hne => by
    simp only [holding, hm.calls c' hne, hm.place c' hne]
  have hat : ∀ u, u ≠ t → Function.update spot t x u = spot u := fun u hne => Function.update_of_ne hne ..
  have hself : Function.update spot t x t = x := Function.update_self ..
  -- the spots that are not the call's stay as they are, for every task
  have hother : ∀ y, y ≠ .listed → y ≠ .hand c → y ≠ .restoring c →
      (x = some y ↔ spot t = some y) := by
    intro y hy₁ hy₂ hy₃
    rcases hm.within with rfl | ⟨hx, ht⟩
    · exact Iff.rfl
    · refine iff_of_false (fun hxy => ?_) fun hty => ?_
      · simp [Within, hxy, hy₁, hy₂, hy₃] at hx
      · simp [Within, hty, hy₁, hy₂, hy₃] at ht
  refine ⟨hm.popping, fun u => ?_, fun c' u => ?_, fun c' u => ?_, fun u => ?_, fun u => ?_,
    fun k => ?_, ?_, fun u => ?_⟩
  · rcases eq_or_ne u t with rfl | hne
    · rw [hself]
      exact hm.listed
    · rw [hat u hne, hm.listed_ne u hne]
      exact h.listed u
  · rcases eq_or_ne c' c with rfl | hc'
    · rcases eq_or_ne u t with rfl | hne
      · rw [hself]
        exact hm.hand
      · rw [hat u hne, ← h.hand]
        exact iff_of_false (hm.hand_ne u hne).1 (hm.hand_ne u hne).2
    · rw [hheld c' hc', h.hand]
      rcases eq_or_ne u t with rfl | hne
      · rw [hself]
        exact (hother (.hand c') (by simp) (by simpa using hc') (by simp)).symm
      · rw [hat u hne]
  · rcases eq_or_ne c' c with rfl | hc'
    · rcases eq_or_ne u t with rfl | hne
      · rw [hself]
        exact hm.restoring
      · rw [hat u hne, ← h.restoring]
        exact iff_of_false (hm.restoring_ne u hne).1 (hm.restoring_ne u hne).2
    · rw [hm.calls c' hc', h.restoring]
      rcases eq_or_ne u t with rfl | hne
      · rw [hself]
        exact (hother (.restoring c') (by simp) (by simp) (by simpa using hc')).symm
      · rw [hat u hne]
  · rw [hinHand, h.loop]
    rcases eq_or_ne u t with rfl | hne
    · rw [hself]
      exact (hother .loop (by simp) (by simp) (by simp)).symm
    · rw [hat u hne]
  · rcases eq_or_ne u t with rfl | hne
    · rw [hself]
      exact (stateAt_congr (by rfl) (by rw [hyielded]; exact Iff.rfl)).mpr hm.state
    · rw [hat u hne, stateAt_congr (hm.state_ne u hne).1 (by rw [hyielded])]
      exact h.state u
  · rcases eq_or_ne (some k) c with rfl | hne
    · exact hm.fits
    · rw [hm.calls _ hne, hm.place _ hne]
      exact h.caller k
  · have hown := h.own
    cases c with
    | none =>
      obtain ⟨v, hv⟩ := hc rfl
      simp only [OwnPlace, hm.loop, hv]
      exact hm.fits
    | some k =>
      simpa only [OwnPlace, hm.loop, hm.calls none (by simp), hm.place none (by simp)] using hown
  · rcases eq_or_ne u t with rfl | hne
    · rw [hself]
      exact hm.log
    · have hcalls : ∀ c', spot u = some (.hand c') → s'.calls c' = s.calls c' := by
        intro c' hspot
        refine hm.calls c' ?_
        rintro rfl
        exact (hm.hand_ne u hne).2 ((h.hand c' u).mpr hspot)
      rw [hat u hne, (hm.log_ne u hne).1, (hm.log_ne u hne).2, h.log u,
        due_congr (hm.state_ne u hne).2 (fun _ => hfresh) hcalls]

/-- A call that is in `push` or has not got there: what it says about its own task and the others. -/
theorem holding_setCall (q : Option Scheduling) (hq : ∀ u, q ≠ some (.push u)) :
    (s.setCall c q).holding c = match q with
      | some (.setError u _) => some u
      | _ => none := by
  simp only [holding, setCall, Function.update_self]
  cases q with
  | none => rfl
  | some q =>
    cases q with
    | push u => exact absurd rfl (hq u)
    | _ => rfl

theorem setCall_calls_self (q : Option Scheduling) : (s.setCall c q).calls c = q :=
    Function.update_self ..

theorem setCall_calls_ne (q : Option Scheduling) (hne : c' ≠ c) : (s.setCall c q).calls c' = s.calls c' :=
  Function.update_of_ne hne ..

omit [DecidableEq κ] in
theorem Inv.fits (h : Inv s l spot) (hc : s.Beside c) : Fits (s.calls c) (s.ready.place c) := by
  cases c with
  | some k => exact h.caller k
  | none =>
    obtain ⟨u, hu⟩ := hc rfl
    simpa only [OwnPlace, hu] using h.own

/-- The accesses outside `push`: the list is the same. -/
theorem Inv.setCall {q : Option Scheduling} {w : ControlState} {g : List Wake} (h : Inv s l spot)
    (hc : s.Beside c) (hp : s.calls c = some p)
    (hold : p = .restore t ∨ ∃ e, p = .exchange t e)
    (hnew : q = none ∧ x ≠ some (.hand c) ∧ x ≠ some (.restoring c) ∨
      q = some (.restore t) ∧ x = some (.restoring c) ∨
      ∃ e, q = some (.setError t e) ∧ x = some (.hand c))
    (hwithin : x = spot t ∨ Within c x ∧ Within c (spot t))
    (hlisted : x = some .listed ↔ spot t = some .listed)
    (hstate : StateAt { s with state := Function.update s.state t w } t x)
    (hother : ∀ u, u ≠ t →
      scheduledWith g u = scheduledWith s.log u ∧ takenWith g u = takenWith s.log u)
    (hlog : scheduledWith g t = takenWith g t ++
      due ({ s with state := Function.update s.state t w, log := g }.setCall c q) t x) :
    Inv ({ s with state := Function.update s.state t w, log := g }.setCall c q) l
      (Function.update spot t x) := by
  have hidle : s.ready.place c = .idle := by
    have hfits := h.fits hc
    rw [hp] at hfits
    rcases hold with rfl | ⟨e, rfl⟩ <;> exact hfits
  have hq : ∀ u, q ≠ some (.push u) := by
    rintro u rfl
    obtain ⟨hq, -⟩ | ⟨hq, -⟩ | ⟨e, hq, -⟩ := hnew <;> cases hq
  have hnone : s.holding c = none := by
    rcases hold with rfl | ⟨e, rfl⟩ <;> simp only [holding, hp]
  refine h.move hc ⟨rfl, fun _ hne => setCall_calls_ne q hne, fun _ _ => rfl, ?_, h.popping, hwithin,
    ?_, ?_, ?_, hstate, hlog, fun _ _ => Iff.rfl, fun u hne => ?_, fun u hne => ?_,
    fun u hne => ⟨Function.update_of_ne hne .., rfl⟩, hother⟩
  · rw [setCall_calls_self]
    cases q with
    | none => exact hidle
    | some q =>
      cases q with
      | push u => exact absurd rfl (hq u)
      | _ => exact hidle
  · rw [h.listed, hlisted]
  · rw [holding_setCall q hq]
    obtain ⟨rfl, hx, -⟩ | ⟨rfl, rfl⟩ | ⟨e, rfl, rfl⟩ := hnew
    · exact iff_of_false (by simp) hx
    · exact iff_of_false (by simp) (by simp)
    · exact iff_of_true rfl rfl
  · rw [setCall_calls_self]
    obtain ⟨rfl, -, hx⟩ | ⟨rfl, rfl⟩ | ⟨e, rfl, rfl⟩ := hnew
    · exact iff_of_false (by simp) hx
    · exact iff_of_true rfl rfl
    · exact iff_of_false (by simp) (by simp)
  · rw [hnone, holding_setCall q hq]
    obtain ⟨rfl, -⟩ | ⟨rfl, -⟩ | ⟨e, rfl, -⟩ := hnew
    · simp
    · simp
    · exact ⟨fun hu => hne (Option.some.inj hu).symm, by simp⟩
  · rw [setCall_calls_self, hp]
    constructor
    · obtain ⟨rfl, -⟩ | ⟨rfl, -⟩ | ⟨e, rfl, -⟩ := hnew
      · simp
      · simpa using hne.symm
      · simp
    · rcases hold with rfl | ⟨e, rfl⟩
      · simpa using hne.symm
      · simp

omit [DecidableEq κ] in
theorem Inv.spot_of_state (h : Inv s l spot) (ht : s.state t ≠ .ready) (hy : s.yielded ≠ some t) :
    spot t = none := by
  have hstate := h.state t
  cases hspot : spot t with
  | none => rfl
  | some y =>
    rw [hspot, StateAt, if_neg hy] at hstate
    exact absurd hstate ht

omit [DecidableEq κ] in
theorem due_none (h : Inv s l spot) (hspot : spot t = none) :
    scheduledWith s.log t = takenWith s.log t := by
  rw [h.log t, hspot]
  exact List.append_nil _

theorem scheduledWith_append (lg : List Wake) (t u : TaskId) (e : Error) :
    scheduledWith (lg ++ [.scheduled t e]) u = scheduledWith lg u ++ (if t = u then [e] else []) := by
  rw [scheduledWith, List.filterMap_append]
  rcases eq_or_ne t u with rfl | hne
  · simp [scheduledWith]
  · simp [scheduledWith, hne]

theorem takenWith_append (lg : List Wake) (t u : TaskId) (e : Error) :
    takenWith (lg ++ [.taken t e]) u = takenWith lg u ++ (if t = u then [e] else []) := by
  rw [takenWith, List.filterMap_append]
  rcases eq_or_ne t u with rfl | hne
  · simp [takenWith]
  · simp [takenWith, hne]

theorem takenWith_scheduled (lg : List Wake) (t u : TaskId) (e : Error) :
    takenWith (lg ++ [.scheduled t e]) u = takenWith lg u := by
  rw [takenWith, List.filterMap_append]
  exact List.append_nil _

theorem scheduledWith_taken (lg : List Wake) (t u : TaskId) (e : Error) :
    scheduledWith (lg ++ [.taken t e]) u = scheduledWith lg u := by
  rw [scheduledWith, List.filterMap_append]
  exact List.append_nil _

/-- The exchange of the state word. -/
theorem Inv.exchange {e : Error} (h : Inv s l spot) (hc : s.Beside c)
    (hp : s.calls c = some (.exchange t e)) (horderly : s.yielded ≠ some t)
    (hstep : s.schedule c b (.exchange t e) = some s') :
    ∃ x, Inv s' l (Function.update spot t x) := by
  have hnotHand : ∀ y, spot t = some y → y ≠ .hand c ∧ y ≠ .restoring c := by
    rintro y hy
    constructor
    · rintro rfl
      have hheld := (h.hand c t).mpr hy
      simp [holding, hp] at hheld
    · rintro rfl
      have hcall := (h.restoring c t).mpr hy
      simp [hp] at hcall
  simp only [schedule] at hstep
  split at hstep
  case isTrue hready =>
    obtain rfl := Option.some.inj hstep
    have hsame : Function.update s.state t .ready = s.state := by rw [← hready, Function.update_eq_self]
    refine ⟨spot t, h.setCall hc hp (.inr ⟨e, rfl⟩) (.inl ⟨rfl, ?_, ?_⟩) (.inl rfl) Iff.rfl ?_
      (fun _ _ => ⟨rfl, rfl⟩) ?_⟩
    · exact fun hy => (hnotHand _ hy).1 rfl
    · exact fun hy => (hnotHand _ hy).2 rfl
    · rw [hsame]
      exact h.state t
    · refine (h.log t).trans (congrArg _ (due_congr (by rfl) (fun _ => by rfl) fun c' hspot => ?_).symm)
      exact setCall_calls_ne _ fun hcc => (hnotHand _ hspot).1 (hcc ▸ rfl)
  case isFalse hready =>
    have hspot := h.spot_of_state hready horderly
    split at hstep
    case isTrue hexited =>
      obtain rfl := Option.some.inj hstep
      refine ⟨some (.restoring c), h.setCall hc hp (.inr ⟨e, rfl⟩) (.inr (.inl ⟨rfl, rfl⟩))
        (.inr ⟨.inr (.inr (.inr rfl)), .inl hspot⟩) (by simp [hspot]) ?_ (fun _ _ => ⟨rfl, rfl⟩) ?_⟩
      · exact (Function.update_self ..).trans (if_neg horderly).symm
      · exact (due_none h hspot).trans (List.append_nil _).symm
    case isFalse hexited =>
      obtain rfl := Option.some.inj hstep
      refine ⟨some (.hand c), h.setCall hc hp (.inr ⟨e, rfl⟩) (.inr (.inr ⟨e, rfl, rfl⟩))
        (.inr ⟨.inr (.inr (.inl rfl)), .inl hspot⟩) (by simp [hspot]) ?_ (fun u hne => ?_) ?_⟩
      · exact (Function.update_self ..).trans (if_neg horderly).symm
      · rw [scheduledWith_append, takenWith_scheduled, if_neg hne.symm, List.append_nil]
        exact ⟨rfl, rfl⟩
      · rw [scheduledWith_append, takenWith_scheduled, if_pos rfl, due_none h hspot]
        simp only [due, setCall_calls_self]

theorem Inv.restore (h : Inv s l spot) (hc : s.Beside c) (hp : s.calls c = some (.restore t)) :
    Inv ({ s with state := Function.update s.state t .exited }.setCall c none) l
      (Function.update spot t none) := by
  have hspot := (h.restoring c t).mp hp
  refine h.setCall (g := s.log) hc hp (.inl rfl) (.inl ⟨rfl, by simp, by simp⟩)
    (.inr ⟨.inl rfl, .inr (.inr (.inr hspot))⟩) (by simp [hspot]) ?_ (fun _ _ => ⟨rfl, rfl⟩) ?_
  · show Function.update s.state t .exited t ≠ .ready
    rw [Function.update_self]
    decide
  · rw [h.log t, hspot]
    rfl

omit [DecidableEq κ] in
/-- A node that some thread is pushing is the task of its call. -/
theorem Inv.pushing_hand (h : Inv s l spot) (hpushing : (s.ready.place c').pushing = some t) :
    spot t = some (.hand c') := by
  refine (h.hand c' t).mp ?_
  have hfits : Fits (s.calls c') (s.ready.place c') := by
    cases c' with
    | some k => exact h.caller k
    | none =>
      have hown := h.own
      unfold OwnPlace at hown
      cases hloop : s.loop with
      | passing u => simpa only [hloop] using hown
      | popping y =>
        simp only [hloop] at hown
        cases hplace : s.ready.place none <;> rw [hplace] at hown hpushing <;>
          first | exact hown.2.elim | cases hpushing
      | _ =>
        simp only [hloop] at hown
        rw [hown.2] at hpushing
        cases hpushing
  cases hcall : s.calls c' with
  | none =>
    rw [hcall] at hfits
    rw [show s.ready.place c' = .idle from hfits] at hpushing
    cases hpushing
  | some q =>
    rw [hcall] at hfits
    cases q with
    | push u => rw [holding, hcall]; exact hpushing
    | _ =>
      rw [show s.ready.place c' = .idle from hfits] at hpushing
      cases hpushing

/-- `set_error`, and `push` begins. -/
theorem Inv.setError {e : Error} (h : Inv s l spot) (hc : s.Beside c)
    (hp : s.calls c = some (.setError t e))
    (hstep : s.schedule c b (.setError t e) = some s') : ∃ x, Inv s' l (Function.update spot t x) := by
  have hspot : spot t = some (.hand c) := by
    refine (h.hand c t).mp ?_
    rw [holding, hp]
  obtain ⟨r, hr, rfl⟩ := Option.map_eq_some_iff.mp hstep
  obtain ⟨hidle, hr'⟩ := Option.ite_none_right_eq_some.mp hr
  obtain rfl := Option.some.inj hr'
  have hfree : t ∉ l := by
    rw [h.listed, hspot]
    simp
  have hunique : ∀ c', (s.ready.place c').pushing ≠ some t := by
    intro c' hpushing
    have hsame : some (Spot.hand c') = some (.hand c) := (h.pushing_hand hpushing).symm.trans hspot
    obtain rfl : c' = c := Spot.hand.inj (Option.some.inj hsame)
    rw [hidle] at hpushing
    cases hpushing
  have hpopping := h.popping.leave (t := c) (h.popping.toInv.push hfree hunique) rfl
  refine ⟨spot t, h.move hc ⟨rfl, fun _ hne => setCall_calls_ne _ hne, fun _ hne => goTo_place_ne hne,
    ?_, hpopping, .inl rfl, h.listed t, ?_, ?_, h.state t, ?_, fun _ _ => Iff.rfl, fun u hne => ?_,
    fun u hne => ?_, fun u hne => ⟨rfl, Function.update_of_ne hne ..⟩, fun _ _ => ⟨rfl, rfl⟩⟩⟩
  · rw [setCall_calls_self]
    exact (congrArg (forPush t) goTo_place_self).mpr rfl
  · rw [hspot, holding, setCall_calls_self]
    exact iff_of_true (congrArg Place.pushing goTo_place_self) rfl
  · rw [setCall_calls_self, hspot]
    exact iff_of_false (by simp) (by simp)
  · rw [hspot]
    refine (h.log t).trans ?_
    rw [hspot]
    have herror : Function.update s.error t e t = e := Function.update_self ..
    simp only [due, hp, setCall_calls_self]
    exact congrArg (takenWith s.log t ++ [·]) herror.symm
  · rw [holding, setCall_calls_self, holding, hp]
    refine ⟨fun hu => hne ?_, fun hu => hne (Option.some.inj hu).symm⟩
    have htu : some t = some u := (congrArg Place.pushing goTo_place_self).symm.trans hu
    exact (Option.some.inj htu).symm
  · rw [setCall_calls_self, hp]
    exact ⟨by simp, by simp⟩

/-- An access inside `push`, where `q` is the call after it. -/
theorem Inv.pushing {q : Option Scheduling} (h : Inv s l spot) (hc : s.Beside c)
    (hp : s.calls c = some (.push t))
    (hstep : s.ready.step (.access c b) = some r)
    (hq : q = none ∧ r.place c = .idle ∨ q = some (.push t) ∧ r.place c ≠ .idle) :
    ∃ l' x, Inv ({ s with ready := r }.setCall c q) l' (Function.update spot t x) := by
  have hfits : forPush t (s.ready.place c) := by
    have hfits := h.fits hc
    rwa [hp] at hfits
  obtain ⟨hplace, hgoes, heffect⟩ := push_access h.popping hfits hstep
  have hheld : s.holding c = (s.ready.place c).pushing := by rw [holding, hp]
  have hheld' : ({ s with ready := r }.setCall c q).holding c = (r.place c).pushing := by
    rw [holding, setCall_calls_self]
    obtain ⟨rfl, hidle⟩ | ⟨rfl, -⟩ := hq
    · exact (congrArg Place.pushing hidle).symm
    · rfl
  have hfits' : Fits q (r.place c) := by
    obtain ⟨rfl, hidle⟩ | ⟨rfl, hne⟩ := hq
    · exact hidle
    · exact hgoes.resolve_right hne
  have hnot : ∀ u, q ≠ some (.restore u) := by
    rintro u rfl
    obtain ⟨hq, -⟩ | ⟨hq, -⟩ := hq <;> cases hq
  have hnotRestoring : spot t ≠ some (.restoring c) := fun hspot => by
    have hcall := (h.restoring c t).mpr hspot
    rw [hp] at hcall
    cases hcall
  have hpushing' : ∀ u, (r.place c).pushing = some u → u = t := by
    intro u hu
    rcases hgoes with hgoes | hidle
    · exact forPush_pushing hgoes hu
    · rw [hidle] at hu
      cases hu
  -- the task is in the list now, or it is where it was
  rcases heffect with ⟨hpopping, hsame⟩ | ⟨hbefore, hpopping, hafter⟩
  · refine ⟨l, spot t, h.move hc ⟨rfl, fun _ hne => setCall_calls_ne _ hne, hplace, ?_, hpopping,
      .inl rfl, h.listed t, ?_, ?_, h.state t, ?_, fun _ _ => Iff.rfl, fun u hne => ?_, fun u hne => ?_,
      fun u _ => ⟨rfl, rfl⟩, fun _ _ => ⟨rfl, rfl⟩⟩⟩
    · rw [setCall_calls_self]
      exact hfits'
    · rw [hheld', hsame, ← hheld]
      exact h.hand c t
    · rw [setCall_calls_self]
      exact iff_of_false (hnot t) hnotRestoring
    · refine (h.log t).trans ?_
      congr 1
      cases hspot : spot t with
      | none => rfl
      | some y =>
        cases y with
        | listed => rfl
        | restoring c' => rfl
        | loop =>
          have hfresh : ({ s with ready := r }.setCall c q).fresh = s.fresh := by
            obtain ⟨-, -, hfresh⟩ := hc.loop_eq (Eq.refl ({ s with ready := r }.setCall c q).loop) hplace
            exact hfresh
          simp only [due, hfresh]
          rfl
        | hand c' =>
          rcases eq_or_ne c' c with rfl | hne
          · obtain ⟨rfl, hidle⟩ | ⟨rfl, -⟩ := hq
            · simp only [due, hp, setCall_calls_self]
              rfl
            · simp only [due, hp, setCall_calls_self]
              rfl
          · simp only [due, setCall_calls_ne _ hne]
            rfl
    · rw [hheld', hheld]
      exact ⟨fun hu => hne (hpushing' u hu), fun hu => hne (forPush_pushing hfits hu)⟩
    · rw [setCall_calls_self, hp]
      exact ⟨hnot u, by simp⟩
  · have hspot : spot t = some (.hand c) := (h.hand c t).mp (hheld.trans hbefore)
    refine ⟨t :: l, some .listed, h.move hc ⟨rfl, fun _ hne => setCall_calls_ne _ hne, hplace, ?_,
      hpopping, .inr ⟨.inr (.inl rfl), .inr (.inr (.inl hspot))⟩, iff_of_true List.mem_cons_self rfl,
      ?_, ?_, ?_, ?_, fun u hne => ?_, fun u hne => ?_, fun u hne => ?_, fun u _ => ⟨rfl, rfl⟩,
        fun _ _ => ⟨rfl, rfl⟩⟩⟩
    · rw [setCall_calls_self]
      exact hfits'
    · rw [hheld', hafter]
      exact iff_of_false (by simp) (by simp)
    · rw [setCall_calls_self]
      exact iff_of_false (hnot t) (by simp)
    · have hstate := h.state t
      rw [hspot] at hstate
      exact hstate
    · refine (h.log t).trans ?_
      rw [hspot]
      simp only [due, hp]
      rfl
    · rw [List.mem_cons, or_iff_right hne]
    · rw [hheld', hafter, hheld, hbefore]
      exact ⟨by simp, fun hu => hne (Option.some.inj hu).symm⟩
    · rw [setCall_calls_self, hp]
      exact ⟨hnot u, by simp⟩

/-- Every access of `schedule`. -/
theorem Inv.schedule (h : Inv s l spot) (hc : s.Beside c) (hp : s.calls c = some p)
    (horderly : ∀ t e, p = .exchange t e → s.yielded ≠ some t) (hstep : s.schedule c b p = some s') :
    ∃ l' spot', Inv s' l' spot' := by
  cases p with
  | exchange t e =>
    obtain ⟨x, hnext⟩ := h.exchange hc hp (horderly t e rfl) hstep
    exact ⟨l, _, hnext⟩
  | restore t =>
    obtain rfl := Option.some.inj hstep
    exact ⟨l, _, h.restore hc hp⟩
  | setError t e =>
    obtain ⟨x, hnext⟩ := h.setError hc hp hstep
    exact ⟨l, _, hnext⟩
  | push t =>
    obtain ⟨r, hr, hs⟩ := Option.map_eq_some_iff.mp hstep
    split at hs
    case isTrue hidle =>
      subst hs
      obtain ⟨l', x, hnext⟩ := h.pushing hc hp hr (.inl ⟨rfl, hidle⟩)
      exact ⟨l', _, hnext⟩
    case isFalse hidle =>
      subst hs
      obtain ⟨l', x, hnext⟩ := h.pushing hc hp hr (.inr ⟨rfl, hidle⟩)
      have hsame : { s with ready := r }.setCall c (some (.push t)) = { s with ready := r } := by
        rw [← hp]
        exact congrArg (fun f => ({ s with ready := r, calls := f } : Threads κ))
          (Function.update_eq_self c s.calls)
      rw [hsame] at hnext
      exact ⟨l', _, hnext⟩

end Jinx.Sched.Threads
