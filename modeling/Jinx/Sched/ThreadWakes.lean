import Jinx.Sched.ThreadPlaces

/-! Every wake-up is one run, whichever thread makes it.

    The accesses of the thread of the loop move a task from the ready list to the loop and back to
    nowhere; with those of `schedule` this makes the invariant of every run, and a wake-up that is on its
    way is read off the place of its task. -/

namespace Jinx.Sched.Threads
open LinkedListThreadSafe

variable {κ : Type*} [DecidableEq κ] {r : LinkedListThreadSafe (Option κ) TaskId} {l l' : List TaskId}
  {c : Option κ} {t u : TaskId} {b : Bool} {s s' : Threads κ} {spot spot' : TaskId → Option (Spot κ)}

/-- One access of the thread of the loop, outside `schedule`. -/
structure LoopMoves (s s' : Threads κ) (l' : List TaskId) (spot spot' : TaskId → Option (Spot κ)) :
    Prop where
  calls : ∀ k, s'.calls (some k) = s.calls (some k)
  place : ∀ k, s'.ready.place (some k) = s.ready.place (some k)
  quiet : ∀ q, s.calls none = some q ∨ s'.calls none = some q → ∃ t e, q = .exchange t e
  own : s'.OwnPlace
  popping : Popping s'.ready l'
  listed : ∀ t, t ∈ l' ↔ spot' t = some .listed
  loop : ∀ t, s'.inHand = some t ↔ spot' t = some .loop
  other : ∀ t y, y ≠ .listed → y ≠ .loop → (spot' t = some y ↔ spot t = some y)
  state : ∀ t, s'.StateAt t (spot' t)
  log : ∀ t, scheduledWith s'.log t = takenWith s'.log t ++ s'.due t (spot' t)

omit [DecidableEq κ] in
theorem holding_quiet (h : ∀ q, s.calls c = some q → ∃ t e, q = .exchange t e) (u : TaskId) :
    s.holding c ≠ some u ∧ s.calls c ≠ some (.restore u) := by
  rw [holding]
  cases hcall : s.calls c with
  | none => exact ⟨by simp, by simp⟩
  | some q =>
    obtain ⟨t, e, rfl⟩ := h q hcall
    exact ⟨by simp, by simp⟩

omit [DecidableEq κ] in
/-- The thread of the loop is in no call. -/
theorem quiet_of_none (h : s.calls none = none) (h' : s'.calls none = none) (q : Scheduling)
    (hq : s.calls none = some q ∨ s'.calls none = some q) : ∃ t e, q = .exchange t e := by
  rw [h, h', or_self] at hq
  cases hq

omit [DecidableEq κ] in
theorem Inv.loopMove (h : Inv s l spot) (hm : LoopMoves s s' l' spot spot') : Inv s' l' spot' := by
  have hquiet : ∀ u, s.holding none ≠ some u ∧ s.calls none ≠ some (.restore u) :=
    holding_quiet fun q hq => hm.quiet q (.inl hq)
  have hquiet' : ∀ u, s'.holding none ≠ some u ∧ s'.calls none ≠ some (.restore u) :=
    holding_quiet fun q hq => hm.quiet q (.inr hq)
  refine ⟨hm.popping, hm.listed, fun c u => ?_, fun c u => ?_, hm.loop, hm.state, fun k => ?_, hm.own,
    hm.log⟩
  · rw [hm.other u (.hand c) (by simp) (by simp), ← h.hand]
    cases c with
    | none => exact iff_of_false (hquiet' u).1 (hquiet u).1
    | some k => simp only [holding, hm.calls k, hm.place k]
  · rw [hm.other u (.restoring c) (by simp) (by simp), ← h.restoring]
    cases c with
    | none => exact iff_of_false (hquiet' u).2 (hquiet u).2
    | some k => rw [hm.calls k]
  · rw [hm.calls k, hm.place k]
    exact h.caller k

omit [DecidableEq κ] in
/-- Where the task is with the loop before and after, and `_state` and the log are the same. -/
theorem LoopMoves.of_same (h : Inv s l spot) (hcalls : ∀ k, s'.calls (some k) = s.calls (some k))
    (hplace : ∀ k, s'.ready.place (some k) = s.ready.place (some k))
    (hquiet : ∀ q, s.calls none = some q ∨ s'.calls none = some q → ∃ t e, q = .exchange t e)
    (hown : s'.OwnPlace) (hpopping : Popping s'.ready l) (hinHand : s'.inHand = s.inHand)
    (hyielded : s'.yielded = s.yielded) (hfresh : s'.fresh = s.fresh) (hstate : s'.state = s.state)
    (herror : s'.error = s.error) (hlog : s'.log = s.log) : LoopMoves s s' l spot spot := by
  refine ⟨hcalls, hplace, hquiet, hown, hpopping, h.listed, fun t => ?_, fun t y _ _ => Iff.rfl,
    fun t => ?_, fun t => ?_⟩
  · rw [hinHand]
    exact h.loop t
  · exact (stateAt_congr (congrFun hstate t) (by rw [hyielded])).mpr (h.state t)
  · have hcalls : ∀ c, spot t = some (.hand c) → s'.calls c = s.calls c := by
      intro c hspot
      cases c with
      | some k => exact hcalls k
      | none =>
        have hheld := (h.hand none t).mpr hspot
        exact absurd hheld (holding_quiet (fun q hq => hquiet q (.inl hq)) t).1
    rw [hlog, h.log t, due_congr (congrFun herror t) (fun _ => hfresh) hcalls]

omit [DecidableEq κ] in
/-- `task->run()` is called for the task that was taken out. -/
theorem Inv.start (h : Inv s l spot) (hu : s.inHand = some u) (hfresh : s.fresh = true)
    (hyielded : s.yielded = none) (hcalls : s.calls none = none) (hplace : ∀ k, r.place
    (some k) = s.ready.place (some k))
    (hidle : r.place none = .idle) (hpopping : Popping r l) :
    Inv ({ s with ready := r }.start u) l spot := by
  have hspot := (h.loop u).mp hu
  refine h.loopMove ⟨fun _ => rfl, hplace, quiet_of_none hcalls hcalls, ⟨hcalls, hidle⟩, hpopping,
    h.listed, fun t => ?_, fun _ _ _ _ => Iff.rfl, fun t => ?_, fun t => ?_⟩
  · rw [← h.loop, hu]
    exact Iff.rfl
  · exact (stateAt_congr (by rfl) (by rw [hyielded]; exact Iff.rfl)).mpr (h.state t)
  · show scheduledWith (s.log ++ [.taken u (s.error u)]) t =
      takenWith (s.log ++ [.taken u (s.error u)]) t ++ _
    rw [scheduledWith_taken, takenWith_append, h.log t, List.append_assoc]
    congr 1
    rcases eq_or_ne u t with rfl | hne
    · rw [hspot, if_pos rfl]
      simp only [due, hfresh, if_pos]
      rfl
    · rw [if_neg hne, List.nil_append]
      refine (due_congr (by rfl) (fun hspot' => ?_) fun _ _ => by rfl).symm
      have htu : some u = some t := hu.symm.trans ((h.loop t).mpr hspot')
      exact absurd (Option.some.inj htu) hne

/-- `_tasks_ready.pop()` is called. -/
theorem Inv.pop {y : Option TaskId} (h : Inv s l spot)
    (hloop : s.loop = .outside ∧ y = none ∨ ∃ t, s.loop = .yieldPoll t ∧ y = some t)
    (hstep : s.pop y = some s') : Inv s' l spot := by
  obtain ⟨r, hr, rfl⟩ := Option.map_eq_some_iff.mp hstep
  obtain ⟨-, hr'⟩ := Option.ite_none_right_eq_some.mp hr
  obtain rfl := Option.some.inj hr'
  have hown : s.calls none = none ∧ s.ready.place none = .idle := by
    have hown := h.own
    unfold OwnPlace at hown
    rcases hloop with ⟨hl, -⟩ | ⟨t, hl, -⟩ <;> simpa only [hl] using hown
  have hpop : (s.ready.goTo none .pop).place none = .pop :=
    goTo_place_self
  have hpopping : Popping (s.ready.goTo none .pop) l := by
    refine h.popping.goTo (h.popping.toInv.leave rfl) (fun _ => .inr fun c => ?_)
      (fun _ hv => by cases hv)
      fun _ _ hv => by cases hv
    cases c with
    | none => rw [hown.2]; rfl
    | some k =>
      have hfits := h.caller k
      cases hplace : s.ready.place (some k) <;> first | rfl | skip
      all_goals
        rw [hplace] at hfits
        cases hcall : s.calls (some k) with
        | none => rw [hcall] at hfits; cases hfits
        | some q => rw [hcall] at hfits; cases q <;> cases hfits
  refine h.loopMove (.of_same h (fun _ => rfl) (fun _ => goTo_place_ne (by simp))
    (quiet_of_none hown.1 hown.1) ?_ hpopping ?_ ?_ ?_ rfl rfl rfl)
  · exact ⟨hown.1, hpop ▸ trivial⟩
  · simp only [inHand]
    rcases hloop with ⟨hl, rfl⟩ | ⟨t, hl, rfl⟩ <;> simp [hl, answer]
  · simp only [yielded]
    rcases hloop with ⟨hl, rfl⟩ | ⟨t, hl, rfl⟩ <;> simp [hl, answer]
  · simp only [fresh]
    rcases hloop with ⟨hl, rfl⟩ | ⟨t, hl, rfl⟩ <;> simp [hl, answer]

/-- `pop` has returned. -/
theorem Inv.popped {y : Option TaskId} (h : Inv s l spot) (hloop : s.loop = .popping y)
    (hcalls : s.calls none = none) (hplace : ∀ k, r.place (some k) = s.ready.place (some k))
    (hidle : r.place none = .idle) (hpopping : Popping r l) :
    Inv ({ s with ready := r }.popped y (answer (s.ready.place none))) l spot := by
  have hinHand : s.inHand = (answer (s.ready.place none)).or y := by simp only [inHand, hloop]
  have hyielded : s.yielded = if (answer (s.ready.place none)).isSome then none else y := by
    simp only [yielded, hloop]
  have hfresh : s.fresh = (answer (s.ready.place none)).isSome := by simp only [fresh, hloop]
  have hquiet := quiet_of_none hcalls hcalls
  cases hans : answer (s.ready.place none) with
  | none =>
    rw [hans] at hinHand hyielded hfresh
    cases y with
    | none =>
      exact h.loopMove (.of_same h (fun _ => rfl) hplace hquiet ⟨hcalls, hidle⟩ hpopping hinHand.symm
        hyielded.symm hfresh.symm rfl rfl rfl)
    | some t =>
      exact h.loopMove (.of_same h (fun _ => rfl) hplace hquiet ⟨hcalls, hidle⟩ hpopping hinHand.symm
        hyielded.symm hfresh.symm rfl rfl rfl)
  | some u =>
    rw [hans] at hinHand hyielded hfresh
    cases y with
    | none => exact h.start hinHand hfresh hyielded hcalls hplace hidle hpopping
    | some t =>
      refine h.loopMove (.of_same h (fun k => setCall_calls_ne _ (by simp)) hplace
        (fun q hq => ?_) ?_ hpopping
        hinHand.symm hyielded.symm hfresh.symm rfl rfl rfl)
      · rcases hq with hq | hq
        · rw [hcalls] at hq
          cases hq
        · have hq' : some (Scheduling.exchange t {}) = some q := (setCall_calls_self _).symm.trans hq
          exact ⟨t, {}, (Option.some.inj hq').symm⟩
      · show Fits (Function.update s.calls none (some (.exchange t {})) none) (r.place none)
        rw [Function.update_self]
        exact hidle

omit [DecidableEq κ] in
/-- The exchange of `pop` takes a task out. What has yielded is let go. -/
theorem Inv.takeOut {y : Option TaskId} (h : Inv s (t :: l) spot) (hloop : s.loop = .popping y)
    (hcalls : s.calls none = none) (hplace : ∀ k, r.place (some k) = s.ready.place (some k))
    (hbefore : answer (s.ready.place none) = none) (hafter : r.place none = .popped (some t))
    (hpopping : Popping r l) :
    Inv { s with ready := r } l
      fun u => if u = t then some .loop else if s.inHand = some u then none else spot u := by
  have hinHand : s.inHand = y := by simp only [inHand, hloop, hbefore, Option.none_or]
  have hyielded : s.yielded = y := by
    simp only [yielded, hloop, hbefore, Option.isSome_none]
    rfl
  have hfresh : s.fresh = false := by simp only [fresh, hloop, hbefore, Option.isSome_none]
  have hinHand' : ({ s with ready := r } : Threads κ).inHand = some t := by
    simp only [inHand, hloop, hafter, answer, Option.some_or]
  have hyielded' : ({ s with ready := r } : Threads κ).yielded = none := by
    simp only [yielded, hloop, hafter, answer, Option.isSome_some, if_pos]
  have hfresh' : ({ s with ready := r } : Threads κ).fresh = true := by
    simp only [fresh, hloop, hafter, answer, Option.isSome_some]
  have ht : t ∉ l := (List.nodup_cons.mp h.popping.nodup).1
  have hlisted : spot t = some .listed := (h.listed t).mp List.mem_cons_self
  have hstate_t : s.state t = .ready := by
    have hstate := h.state t
    rw [hlisted, StateAt, hyielded, ← hinHand] at hstate
    rwa [if_neg] at hstate
    intro hin
    rw [(h.loop t).mp hin] at hlisted
    cases hlisted
  have hheld : ∀ u, s.inHand = some u → spot u = some .loop := fun u hu => (h.loop u).mp hu
  refine h.loopMove ⟨fun _ => rfl, hplace, quiet_of_none hcalls hcalls, ?_, hpopping, fun u => ?_,
    fun u => ?_, fun u z hz hz' => ?_, fun u => ?_, fun u => ?_⟩
  · simp only [OwnPlace, hloop, hafter]
    exact ⟨hcalls, trivial⟩
  · rcases eq_or_ne u t with rfl | hne
    · rw [if_pos rfl]
      exact iff_of_false ht (by simp)
    · rw [if_neg hne]
      split
      case isTrue hu =>
        refine iff_of_false (fun hmem => ?_) (by simp)
        have hlist := (h.listed u).mp (List.mem_cons_of_mem t hmem)
        rw [hheld u hu] at hlist
        cases hlist
      case isFalse =>
        rw [← h.listed, List.mem_cons, or_iff_right hne]
  · rw [hinHand']
    rcases eq_or_ne u t with rfl | hne
    · rw [if_pos rfl]
      exact iff_of_true rfl rfl
    · rw [if_neg hne]
      split
      case isTrue => exact iff_of_false (by simpa using hne.symm) (by simp)
      case isFalse hu =>
        exact iff_of_false (by simpa using hne.symm) fun hspot => hu ((h.loop u).mpr hspot)
  · rcases eq_or_ne u t with rfl | hne
    · rw [if_pos rfl, hlisted]
      exact iff_of_false (by simpa using hz'.symm) (by simpa using hz.symm)
    · rw [if_neg hne]
      split
      case isTrue hu =>
        rw [hheld u hu]
        exact iff_of_false (by simp) (by simpa using hz'.symm)
      case isFalse => exact Iff.rfl
  · rcases eq_or_ne u t with rfl | hne
    · rw [if_pos rfl, StateAt, hyielded']
      exact hstate_t
    · rw [if_neg hne]
      have hu := h.state u
      split
      case isTrue hin =>
        rw [hheld u hin, StateAt, hyielded, ← hinHand, if_pos hin] at hu
        show s.state u ≠ .ready
        rw [hu]
        decide
      case isFalse hin =>
        refine (stateAt_congr (by rfl) ?_).mpr hu
        rw [hyielded', hyielded, ← hinHand]
        exact iff_of_false (by simp) hin
  · rcases eq_or_ne u t with rfl | hne
    · rw [if_pos rfl]
      refine (h.log u).trans ?_
      rw [hlisted]
      simp only [due, hfresh', if_pos]
    · rw [if_neg hne]
      refine (h.log u).trans ?_
      congr 1
      split
      case isTrue hin =>
        rw [hheld u hin]
        simp only [due, hfresh]
        rfl
      case isFalse hin =>
        exact (due_congr (by rfl) (fun hspot => absurd ((h.loop u).mpr hspot) hin) fun _ _ => by rfl).symm

omit [DecidableEq κ] in
/-- While a task runs, no other one is with the loop. -/
theorem Inv.running_other {again : Bool} (h : Inv s l spot) (hloop : s.loop = .running t again)
    (hne : u ≠ t) : spot u ≠ some .loop ∧ s.yielded ≠ some u := by
  have hnot : s.inHand ≠ some u := by
    simp only [inHand, hloop]
    simpa using hne.symm
  exact ⟨fun hu => hnot ((h.loop u).mpr hu), fun hu => hnot (yielded_inHand hu)⟩

omit [DecidableEq κ] in
/-- What was due to the other tasks is due to them still. -/
theorem Inv.due_finished {again : Bool} (h : Inv s l spot) (hloop : s.loop = .running t again)
    (hne : u ≠ t) (hcalls : s'.calls = s.calls) (herror : s'.error u = s.error u) :
    s.due u (spot u) = s'.due u (spot u) :=
  (due_congr herror (fun hu => absurd hu (h.running_other hloop hne).1) fun c _ =>
    congrFun hcalls c).symm

omit [DecidableEq κ] in
theorem Inv.yields {e : Error} {again : Bool} (h : Inv s l spot) (hloop : s.loop = .running t again) :
    Inv { s with
      state := Function.update s.state t .yield
      error := Function.update s.error t e
      loop := .yieldPoll t } l spot := by
  have hown : s.calls none = none ∧ s.ready.place none = .idle := by
    simpa only [OwnPlace, hloop] using h.own
  have hinHand : s.inHand = some t := by simp only [inHand, hloop]
  have hspot := (h.loop t).mp hinHand
  have hfresh : s.fresh = false := by simp only [fresh, hloop]
  refine h.loopMove ⟨fun _ => rfl, fun _ => rfl, quiet_of_none hown.1 hown.1, hown, h.popping, h.listed,
    fun u => ?_, fun _ _ _ _ => Iff.rfl, fun u => ?_, fun u => ?_⟩
  · rw [← h.loop, hinHand]
    exact Iff.rfl
  · rcases eq_or_ne u t with rfl | hne
    · rw [hspot]
      exact (Function.update_self ..).trans (if_pos rfl).symm
    · refine (stateAt_congr (Function.update_of_ne hne ..) ?_).mpr (h.state u)
      exact iff_of_false (fun hu => hne (Option.some.inj hu).symm) (h.running_other hloop hne).2
  · refine (h.log u).trans (congrArg _ ?_)
    rcases eq_or_ne u t with rfl | hne
    · rw [hspot]
      simp only [due, hfresh]
      rfl
    · exact h.due_finished hloop hne rfl (Function.update_of_ne hne ..)

omit [DecidableEq κ] in
/-- A task that has not yielded is nowhere then. -/
theorem Inv.lets_go {st : ControlState} {e : Error} {again : Bool} (h : Inv s l spot)
    (hloop : s.loop = .running t again) (hst : st ≠ .ready) :
    Inv { s with
      state := Function.update s.state t st
      error := Function.update s.error t e
      loop := .outside } l (Function.update spot t none) := by
  have hown : s.calls none = none ∧ s.ready.place none = .idle := by
    simpa only [OwnPlace, hloop] using h.own
  have hspot : spot t = some .loop := (h.loop t).mp (by simp only [inHand, hloop])
  have hfresh : s.fresh = false := by simp only [fresh, hloop]
  refine h.loopMove ⟨fun _ => rfl, fun _ => rfl, quiet_of_none hown.1 hown.1, hown, h.popping,
    fun u => ?_, fun u => ?_, fun u z hz hz' => ?_, fun u => ?_, fun u => ?_⟩
  · rcases eq_or_ne u t with rfl | hne
    · rw [Function.update_self, h.listed, hspot]
      simp
    · rw [Function.update_of_ne hne]
      exact h.listed u
  · refine iff_of_false (by simp [inHand]) fun hu => ?_
    rcases eq_or_ne u t with rfl | hne
    · simp at hu
    · rw [Function.update_of_ne hne] at hu
      exact (h.running_other hloop hne).1 hu
  · rcases eq_or_ne u t with rfl | hne
    · rw [Function.update_self, hspot]
      exact iff_of_false (by simp) (by simpa using hz'.symm)
    · rw [Function.update_of_ne hne]
  · rcases eq_or_ne u t with rfl | hne
    · rw [Function.update_self]
      show Function.update s.state u st u ≠ .ready
      rwa [Function.update_self]
    · rw [Function.update_of_ne hne]
      refine (stateAt_congr (Function.update_of_ne hne ..) ?_).mpr (h.state u)
      exact iff_of_false (by simp [yielded]) (h.running_other hloop hne).2
  · refine (h.log u).trans (congrArg _ ?_)
    rcases eq_or_ne u t with rfl | hne
    · rw [Function.update_self, hspot]
      simp only [due, hfresh]
      rfl
    · rw [Function.update_of_ne hne]
      exact h.due_finished hloop hne rfl (Function.update_of_ne hne ..)

omit [DecidableEq κ] in
/-- `task->run()` has returned, and the state word is set. -/
theorem Inv.finished {st : ControlState} {e : Error} {again : Bool} (h : Inv s l spot)
    (hloop : s.loop = .running t again) (hst : st ≠ .ready) :
    ∃ spot', Inv { s with
      state := Function.update s.state t st
      error := Function.update s.error t e
      loop := if st = .yield then .yieldPoll t else .outside } l spot' := by
  by_cases hy : st = .yield
  · subst hy
    exact ⟨spot, h.yields hloop⟩
  · rw [if_neg hy]
    exact ⟨_, h.lets_go hloop hst⟩

/-- A caller calls `schedule`. -/
theorem Inv.call {k : κ} {e : Error} (h : Inv s l spot) (hk : s.calls (some k) = none) :
    Inv (s.setCall (some k) (some (.exchange t e))) l spot := by
  have hfits := h.caller k
  rw [hk] at hfits
  have hnew : ∀ u, (s.setCall (some k) (some (.exchange t e))).holding (some k) ≠ some u ∧
      (s.setCall (some k) (some (.exchange t e))).calls (some k) ≠ some (.restore u) :=
    holding_quiet fun q hq => ⟨t, e, (Option.some.inj ((setCall_calls_self _).symm.trans hq)).symm⟩
  have hold : ∀ u, s.holding (some k) ≠ some u ∧ s.calls (some k) ≠ some (.restore u) :=
    holding_quiet fun q hq => by rw [hk] at hq; cases hq
  have hmoved : Inv (s.setCall (some k) (some (.exchange t e))) l (Function.update spot t (spot t)) := by
    refine h.move (fun hc => by cases hc) ⟨rfl, fun _ hne => setCall_calls_ne _ hne, fun _ _ => rfl, ?_,
      h.popping,
      .inl rfl, h.listed t, ?_, ?_, h.state t, ?_, fun _ _ => Iff.rfl,
        fun u _ => ⟨(hnew u).1, (hold u).1⟩,
      fun u _ => ⟨(hnew u).2, (hold u).2⟩, fun _ _ => ⟨rfl, rfl⟩, fun _ _ => ⟨rfl, rfl⟩⟩
    · rw [setCall_calls_self]
      exact hfits
    · rw [← h.hand]
      exact iff_of_false (hnew t).1 (hold t).1
    · rw [← h.restoring]
      exact iff_of_false (hnew t).2 (hold t).2
    · refine (h.log t).trans (congrArg _ (due_congr (by rfl) (fun _ => by rfl) fun c hspot => ?_).symm)
      refine setCall_calls_ne _ ?_
      rintro rfl
      exact (hold t).1 ((h.hand _ t).mpr hspot)
  rwa [Function.update_eq_self] at hmoved

/-- One access of the thread of the loop. -/
theorem Inv.loopAccess (h : Inv s l spot) (hstep : s.loopAccess b = some s') : ∃ l' spot',
    Inv s' l' spot' := by
  unfold Threads.loopAccess at hstep
  split at hstep
  case h_1 y hloop =>
    obtain ⟨r, hr, hs⟩ := Option.map_eq_some_iff.mp hstep
    have hown := h.own
    simp only [OwnPlace, hloop] at hown
    obtain ⟨hplace, heffect⟩ := pop_access h.popping hown.2 hr
    have hplace' : ∀ k, r.place (some k) = s.ready.place (some k) := fun k => hplace _ (by simp)
    obtain ⟨hpopping, hidle | ⟨hin, hans⟩⟩ | ⟨t, l', rfl, hpopping, hbefore, hafter⟩ := heffect
    · rw [if_pos hidle] at hs
      subst hs
      exact ⟨l, spot, h.popped hloop hown.1 hplace' hidle hpopping⟩
    · have hidle : r.place none ≠ .idle := by
        intro hidle
        rw [hidle] at hin
        exact hin
      rw [if_neg hidle] at hs
      subst hs
      refine ⟨l, spot, h.loopMove (.of_same h (fun _ => rfl) hplace' (quiet_of_none hown.1 hown.1) ?_
        hpopping ?_ ?_ ?_ rfl rfl rfl)⟩
      · simp only [OwnPlace, hloop]
        exact ⟨hown.1, hin⟩
      · simp only [inHand, hloop, hans]
      · simp only [yielded, hloop, hans]
      · simp only [fresh, hloop, hans]
    · rw [if_neg (by rw [hafter]; simp)] at hs
      subst hs
      exact ⟨l', _, h.takeOut hloop hown.1 hplace' hbefore hafter hpopping⟩
  case h_2 next hloop =>
    cases hcall : s.calls none with
    | none =>
      simp only [hcall] at hstep
      obtain rfl := Option.some.inj hstep
      have hidle : s.ready.place none = .idle := by
        have hown := h.own
        simpa only [OwnPlace, hloop, hcall, Fits] using hown
      refine ⟨l, spot, h.start ?_ ?_ ?_ hcall (fun _ => rfl) hidle h.popping⟩
      · simp only [inHand, hloop]
      · simp only [fresh, hloop]
      · simp only [yielded, hloop]
    | some p =>
      simp only [hcall] at hstep
      refine h.schedule (fun _ => ⟨next, hloop⟩) hcall (fun t e _ => ?_) hstep
      simp only [yielded, hloop]
      simp
  case h_3 => cases hstep

theorem Inv.step {a : Label κ} (h : Inv s l spot) (horderly : s.Orderly a) (hstep : s.step a = some s') :
    ∃ l' spot', Inv s' l' spot' := by
  cases a with
  | call k t e =>
    obtain ⟨hk, hs⟩ := Option.ite_none_right_eq_some.mp hstep
    obtain rfl := Option.some.inj hs
    exact ⟨l, spot, h.call hk⟩
  | caller k b =>
    obtain ⟨p, hp, hs⟩ := Option.bind_eq_some_iff.mp hstep
    refine h.schedule (fun hc => by cases hc) hp (fun t e hte => ?_) hs
    subst hte
    simpa only [Orderly, hp] using horderly
  | pop =>
    simp only [Threads.step] at hstep
    split at hstep
    case h_1 hloop => exact ⟨l, spot, h.pop (.inl ⟨hloop, rfl⟩) hstep⟩
    case h_2 t hloop => exact ⟨l, spot, h.pop (.inr ⟨t, hloop, rfl⟩) hstep⟩
    case h_3 => cases hstep
  | loop b => exact h.loopAccess hstep
  | finished st raised =>
    simp only [Threads.step] at hstep
    split at hstep
    case h_1 t again hloop =>
      obtain ⟨hst, hs⟩ := Option.ite_none_right_eq_some.mp hstep
      obtain rfl := Option.some.inj hs
      have hne : st ≠ .ready := by
        rintro rfl
        simp at hst
      exact ⟨l, h.finished hloop hne⟩
    case h_2 => cases hstep

omit [DecidableEq κ] in
theorem Inv.apart (h : Inv s l spot) : s.Apart := by
  refine ⟨l, h.popping.contents, h.popping.links, h.popping.nodup, fun c t hc => ?_, fun t ht hmem => ?_⟩
  · have hspot := (h.hand c t).mp hc
    refine ⟨fun hmem => ?_, fun hin => ?_, fun c' hc' => ?_⟩
    · rw [(h.listed t).mp hmem] at hspot
      cases hspot
    · rw [(h.loop t).mp hin] at hspot
      cases hspot
    · have hsame : some (Spot.hand c') = some (.hand c) := ((h.hand c' t).mp hc').symm.trans hspot
      exact Spot.hand.inj (Option.some.inj hsame)
  · have hspot := (h.loop t).mp ht
    rw [(h.listed t).mp hmem] at hspot
    cases hspot

/-- A task that has yielded and is made ready by a caller is at two places. -/
theorem Inv.not_apart {a : Label κ} (h : Inv s l spot) (hnot : ¬ s.Orderly a)
    (hstep : s.step a = some s') :
    ¬ s'.Apart := by
  cases a with
  | caller k b =>
    obtain ⟨p, hp, hs⟩ := Option.bind_eq_some_iff.mp hstep
    cases p with
    | exchange t e =>
      have hy : s.yielded = some t := by simpa [Orderly, hp] using hnot
      have hin := yielded_inHand hy
      have hstate := h.state t
      rw [(h.loop t).mp hin, StateAt, if_pos hy] at hstate
      simp only [Threads.schedule, hstate, reduceCtorEq, if_false] at hs
      obtain rfl := Option.some.inj hs
      rintro ⟨m, -, -, -, hhand, -⟩
      refine (hhand (some k) t ?_).2.1 hin
      rw [holding, setCall_calls_self]
    | restore t => exact absurd (by simp [Orderly, hp]) hnot
    | setError t e => exact absurd (by simp [Orderly, hp]) hnot
    | push t => exact absurd (by simp [Orderly, hp]) hnot
  | call k t e => exact absurd trivial hnot
  | pop => exact absurd trivial hnot
  | loop b => exact absurd trivial hnot
  | finished st raised => exact absurd trivial hnot

omit [DecidableEq κ] in
/-- What is on its way is read off the spot. -/
theorem Inv.waiting_iff {e : Error} (h : Inv s l spot) : s.Waiting t e ↔ s.due t (spot t) = [e] := by
  constructor
  · rintro (⟨c, hcall⟩ | ⟨rfl, ⟨c, u, hcall, hheld⟩ | ⟨m, hm, hmem⟩ | ⟨y, hloop, hans⟩ | hloop⟩)
    · have hheld : s.holding c = some t := by rw [holding, hcall]
      rw [(h.hand c t).mp hheld]
      simp only [due, hcall]
    · rw [(h.hand c t).mp hheld]
      simp only [due, hcall]
    · obtain rfl := Option.some.inj (h.popping.contents.symm.trans hm)
      rw [(h.listed t).mp hmem]
      rfl
    · have hin : s.inHand = some t := by simp only [inHand, hloop, hans, Option.some_or]
      rw [(h.loop t).mp hin]
      simp only [due, fresh, hloop, hans, Option.isSome_some, if_pos]
    · have hin : s.inHand = some t := by simp only [inHand, hloop]
      rw [(h.loop t).mp hin]
      simp only [due, fresh, hloop, if_pos]
  · intro hdue
    cases hspot : spot t with
    | none =>
      rw [hspot] at hdue
      cases hdue
    | some y =>
      rw [hspot] at hdue
      cases y with
      | listed =>
        obtain rfl := (List.cons.inj hdue).1
        exact .inr ⟨rfl, .inr (.inl ⟨l, h.popping.contents, (h.listed t).mpr hspot⟩)⟩
      | restoring c => cases hdue
      | hand c =>
        have hheld := (h.hand c t).mpr hspot
        have hheld' := hheld
        unfold holding at hheld'
        cases hcall : s.calls c with
        | none => simp [hcall] at hheld'
        | some q =>
          simp only [due, hcall] at hdue
          cases q with
          | setError u e' =>
            obtain rfl : u = t := by simpa [hcall] using hheld'
            obtain rfl : e' = e := by simpa using hdue
            exact .inl ⟨c, hcall⟩
          | push u =>
            obtain rfl : s.error t = e := by simpa using hdue
            exact .inr ⟨rfl, .inl ⟨c, u, hcall, hheld⟩⟩
          | exchange u e' => simp [hcall] at hheld'
          | restore u => simp [hcall] at hheld'
      | loop =>
        have hin := (h.loop t).mpr hspot
        have hfresh : s.fresh = true := by
          by_contra hf
          simp [due, hf] at hdue
        obtain rfl : s.error t = e := by simpa [due, hfresh] using hdue
        refine .inr ⟨rfl, .inr (.inr ?_)⟩
        unfold fresh at hfresh
        unfold inHand at hin
        cases hloop : s.loop with
        | popping y =>
          rw [hloop] at hfresh hin
          obtain ⟨u, hu⟩ := Option.isSome_iff_exists.mp hfresh
          simp only [hu, Option.some_or] at hin
          exact .inl ⟨y, rfl, hu.trans hin⟩
        | passing next =>
          rw [hloop] at hin
          exact .inr (congrArg LoopPlace.passing (Option.some.inj hin))
        | outside | running u again | yieldPoll u =>
          rw [hloop] at hfresh
          cases hfresh

omit [DecidableEq κ] in
theorem due_cases (s : Threads κ) (t : TaskId) (x : Option (Spot κ)) : s.due t x = [] ∨ ∃ e,
    s.due t x = [e] := by
  cases x with
  | none => exact .inl rfl
  | some y =>
    cases y with
    | listed => exact .inr ⟨_, rfl⟩
    | restoring c => exact .inl rfl
    | hand c =>
      simp only [due]
      split
      · exact .inr ⟨_, rfl⟩
      · exact .inr ⟨_, rfl⟩
    | loop =>
      simp only [due]
      split
      · exact .inr ⟨_, rfl⟩
      · exact .inl rfl

omit [DecidableEq κ] in
/-- A call is refused only where there is a run to come, or under way, or no more. -/
theorem Inv.ready_cases (h : Inv s l spot) (ht : s.state t = .ready) :
    (∃ e, s.Waiting t e) ∨ s.loop = .running t false ∨ ∃ c, s.calls c = some (.restore t) := by
  have hstate := h.state t
  cases hspot : spot t with
  | none =>
    rw [hspot] at hstate
    exact absurd ht hstate
  | some y =>
    cases y with
    | restoring c => exact .inr (.inr ⟨c, (h.restoring c t).mpr hspot⟩)
    | listed => exact .inl ⟨s.error t, h.waiting_iff.mpr (by rw [hspot]; rfl)⟩
    | hand c =>
      obtain hnone | ⟨e, he⟩ := due_cases s t (spot t)
      · simp only [hspot, due] at hnone
        split at hnone <;> cases hnone
      · exact .inl ⟨e, h.waiting_iff.mpr he⟩
    | loop =>
      have hin := (h.loop t).mpr hspot
      have hy : s.yielded ≠ some t := by
        intro hy
        rw [hspot, StateAt, if_pos hy, ht] at hstate
        cases hstate
      unfold inHand at hin
      unfold yielded at hy
      cases hloop : s.loop with
      | outside => simp [hloop] at hin
      | yieldPoll u => simp [hloop] at hin hy; exact absurd hin hy
      | running u again =>
        obtain rfl : u = t := by simpa [hloop] using hin
        cases again with
        | true => simp [hloop] at hy
        | false => exact .inr (.inl rfl)
      | passing next =>
        obtain rfl : next = t := by simpa [hloop] using hin
        exact .inl ⟨s.error next, .inr ⟨rfl, .inr (.inr (.inr hloop))⟩⟩
      | popping y =>
        cases hans : answer (s.ready.place none) with
        | none =>
          simp only [hloop, hans, Option.none_or] at hin
          simp [hloop, hans, hin] at hy
        | some u =>
          obtain rfl : u = t := by simpa [hloop, hans] using hin
          exact .inl ⟨s.error u, .inr ⟨rfl, .inr (.inr (.inl ⟨y, hloop, hans⟩))⟩⟩

omit [DecidableEq κ] in
theorem Inv.init : Inv (κ := κ) {} [] fun _ => none where
  popping := .init
  listed _ := by simp
  hand _ _ := by simp [holding]
  restoring _ _ := by simp
  loop _ := by simp [inHand]
  state _ := by simp [StateAt]
  caller _ := rfl
  own := ⟨rfl, rfl⟩
  log _ := rfl

/-- Any number of threads call `schedule` while the loop runs. A task is at one place at a time (in the
    ready list once, with the caller that links it in, or with the loop) in all of a run if and only if no
    caller makes a task ready that the loop still holds after a yield. Then every call that succeeds is
    one run of
    the task, which finds the error of that call, in the order of the calls, or it is the one that is on
    its way. A call is refused for one that is on its way or a run that is not over, or because the task
    has exited. -/
theorem woken_once (as : List (Label κ)) (s : Threads κ) (hrun : exec {} as = some s) :
    (Runs.Always Threads.step Apart {} as ↔ Runs.Meets Threads.step Orderly {} as) ∧
    (Runs.Meets Threads.step Orderly {} as → ∀ t,
      ((∀ e, ¬ s.Waiting t e) ∧ scheduledWith s.log t = takenWith s.log t ∨
        ∃ e, s.Waiting t e ∧ scheduledWith s.log t = takenWith s.log t ++ [e]) ∧
      (s.state t = .ready →
        (∃ e, s.Waiting t e) ∨ s.loop = .running t false ∨ ∃ c, s.calls c = some (.restore t))) := by
  refine ⟨?_, fun hmeets t => ?_⟩
  · exact Runs.always_iff_meets (I := fun s => ∃ l spot, Inv s l spot)
      (fun _ _ _ ⟨_, _, h⟩ ha hstep => h.step ha hstep) (fun _ ⟨_, _, h⟩ => h.apart)
      (fun _ _ _ ⟨_, _, h⟩ ha hstep => h.not_apart ha hstep) as {} s hrun ⟨[], _, .init⟩
  · obtain ⟨l, spot, h⟩ := Runs.exec_invariant (I := fun s => ∃ l spot, Inv s l spot)
      (fun _ _ _ ⟨_, _, h⟩ ha hstep => h.step ha hstep) as {} s hrun hmeets ⟨[], _, .init⟩
    refine ⟨?_, h.ready_cases⟩
    obtain hnone | ⟨e, he⟩ := due_cases s t (spot t)
    · refine .inl ⟨fun e hw => ?_, ?_⟩
      · have hone := h.waiting_iff.mp hw
        rw [hnone] at hone
        cases hone
      · rw [h.log t, hnone, List.append_nil]
    · exact .inr ⟨e, h.waiting_iff.mpr he, by rw [h.log t, he]⟩

instance Orderly.decidable (s : Threads κ) : ∀ a, Decidable (s.Orderly a)
  | .caller k _ =>
    match h : s.calls (some k) with
    | some (.exchange t _) => decidable_of_iff (s.yielded ≠ some t) (by simp only [Orderly, h])
    | some (.restore _) | some (.setError _ _) | some (.push _) | none => .isTrue
      (by simp only [Orderly, h])
  | .call .. | .pop | .loop _ | .finished .. => .isTrue trivial

/-- Two threads wake task 1 at once, and one of them also task 2; the loop is in `pop` meanwhile. -/
def twoCallers : List (Label Bool) :=
  [.call true 1 ⟨7, .other 0⟩, .call false 1 {}, .caller true false, .caller false false, .pop,
    .loop false,
    .call false 2 {}, .caller true false, .caller false false] ++
    List.replicate 4 (.caller true false) ++ [.loop false, .loop true] ++ List.replicate 6
      (.caller false false) ++
    List.replicate 4 (.loop false) ++ [.caller true false, .loop false, .loop false,
      .finished .suspended none, .pop] ++
    List.replicate 5 (.loop false)

/-- Task 1 is run once, with the error of the call that came first. -/
theorem woken_once_twoCallers : ∃ s, exec {} twoCallers = some s ∧ (∀ e, ¬ s.Waiting 1 e) ∧
    takenWith s.log 1 = [⟨7, .other 0⟩] := by
  have hshows : (exec {} twoCallers).map (fun s => (scheduledWith s.log 1, takenWith s.log 1)) =
      some ([⟨7, .other 0⟩], [⟨7, .other 0⟩]) := by decide
  obtain ⟨s, hrun, hs⟩ := Option.map_eq_some_iff.mp hshows
  obtain ⟨hscheduled, htaken⟩ := Prod.mk.inj hs
  obtain ⟨⟨hnone, -⟩ | ⟨e, -, hlog⟩, -⟩ := (woken_once twoCallers s hrun).2 (by decide) 1
  · exact ⟨s, hrun, hnone, htaken⟩
  · rw [hscheduled, htaken] at hlog
    cases hlog

end Jinx.Sched.Threads
