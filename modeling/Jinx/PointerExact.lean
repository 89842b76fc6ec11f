import Jinx.PointerCount

/-! When the counts of `PointerShared` are exact.

    An operation either meets its condition, and then it keeps the counts exact (and a self-assignment
    changes nothing), or it does not, and then the counts are wrong afterwards, the program is aborted,
    a destroyed handle is used, or a self-assignment has changed something (`step_cases`). -/

namespace Jinx.Shared

open Count Runs

variable {H O : Type*} {checks : Bool} {s t u : Shared H O} {h : H} {p : Pointer O} {a : Assignment H O}
  {op : PointerOp H O} {C : Prop} {x y : Option O} {r : Unref}

theorem Harmless.quiet (ha : a.IsSelf) (hC : s.Harmless checks a) :
    s.runsHook checks a.target = false := by
  cases a with
  | copy h other => exact hC
  | move h other =>
    have hptr : s.ptr h = none := hC
    rw [runsHook, Assignment.target, hptr]
  | reset h ptr => cases ha
  | destroy h => cases ha

theorem point_self [DecidableEq H] (hp : s.handle h = some .null) : s.point h none = s := by
  have hsame : Function.update s.handle h (some .null) = s.handle := by
    rw [← hp, Function.update_eq_self]
  rw [point, setHandle, Pointer.of, hsame]

theorem sane_assign_iff [DecidableEq H] (ha : ¬ a.IsSelf) : s.Sane checks (.assign a) ↔
    s.lacks a.target = none ∧ (s.runsHook checks a.target ∨ s.Readable a ∧ s.taken a = none) := by
  rw [Sane, if_neg ha]

theorem sane_self_iff [DecidableEq H] (ha : a.IsSelf) :
    s.Sane checks (.assign a) ↔ s.lacks a.target = none ∧ s.Harmless checks a := by
  rw [Sane, if_pos ha]

variable [DecidableEq O]

/-- The two outcomes of an operation whose condition is `C`. -/
def Outcome (C : Prop) (s : Shared H O) (op : PointerOp H O) (t : Shared H O) : Prop :=
  (C ∧ Inv t ∧ (op.IsSelf → t = s)) ∨ (¬ C ∧ ¬ (t.Exact ∧ (op.IsSelf → t = s)))

/-- Where no handle is assigned to itself, the condition decides whether the counts are balanced and
    nothing is wrong. -/
theorem outcome_of (hself : ¬ op.IsSelf) (hstack : ∀ a ∈ t.stack, ¬ a.IsSelf)
    (hiff : t.Balanced ∧ t.fault = none ↔ C) (hrec : C → Recorded t) : Outcome C s op t := by
  by_cases hC : C
  · exact .inl ⟨hC, ⟨hrec hC, (hiff.mpr hC).1, hstack⟩, fun hop => absurd hop hself⟩
  · exact .inr ⟨hC, fun hgood => hC (hiff.mp ⟨hgood.1.balanced, hgood.1.fault⟩)⟩

/-- An operation that cannot go wrong. -/
theorem outcome_true (hself : ¬ op.IsSelf) (ht : Inv t) : Outcome True s op t :=
  outcome_of hself ht.stack (iff_of_true ⟨ht.balanced, ht.fault⟩ trivial) fun _ => ht.toRecorded

theorem balanced_iff (hdebt : ∀ o, t.debt o = one x o - one y o) : t.Balanced ↔ x = y := by
  rw [← one_eq_iff, Balanced]
  refine forall_congr' fun o => ?_
  rw [hdebt o]
  omega

theorem balanced_iff_none (hdebt : ∀ o, t.debt o = - one x o - one y o) :
    t.Balanced ↔ x = none ∧ y = none := by
  constructor
  · intro hbal
    have hzero : ∀ o, one x o = 0 ∧ one y o = 0 := by
      intro o
      have hx := one_nonneg x o
      have hy := one_nonneg y o
      have hb := hbal o
      rw [hdebt o] at hb
      omega
    exact ⟨one_eq_iff.mp fun o => by simp [(hzero o).1], one_eq_iff.mp fun o => by simp [(hzero o).2]⟩
  · rintro ⟨rfl, rfl⟩ o
    simp [hdebt o]

/-- The same where a reference is lost and another one is missing. -/
theorem outcome_debt (hself : ¬ op.IsSelf) (hstack : ∀ a ∈ t.stack, ¬ a.IsSelf) (hrec : Recorded t)
    (hdebt : ∀ o, t.debt o = one x o - one y o) : Outcome (x = y) s op t := by
  refine outcome_of hself hstack ?_ fun _ => hrec
  rw [and_iff_left hrec.fault, balanced_iff hdebt]

theorem outcome_congr {D : Prop} (hiff : C ↔ D) (h : Outcome C s op t) : Outcome D s op t := by
  rwa [← propext hiff]

/-! ### Operations without `unref` -/

theorem inv_create {o : O} (hs : Inv s) (hnew : s.created o = false) :
    Inv { s with
      created := Function.update s.created o true
      refc := Function.update s.refc o 1
      given := Function.update s.given o (s.given o + 1) } where
  finite := hs.finite
  fresh b hb := by
    have hne : b ≠ o := by
      rintro rfl
      simp at hb
    simpa [hne] using hs.fresh b (by simpa [hne] using hb)
  released b := by
    have hreleased := hs.released b
    by_cases hb : b = o
    · subst hb
      simpa [hnew] using hreleased
    · simpa [hb] using hreleased
  fault := hs.fault
  balanced b := by
    have hbalanced := hs.balanced b
    have hfresh := hs.fresh o hnew
    have howns : ({ s with
      created := Function.update s.created o true
      refc := Function.update s.refc o 1
      given := Function.update s.given o (s.given o + 1) } : Shared H O).owns = s.owns := rfl
    rw [debt, references] at hbalanced ⊢
    rw [howns]
    by_cases hb : b = o
    · subst hb
      simp only [Function.update_self]
      omega
    · simpa [hb] using hbalanced
  stack := hs.stack

theorem inv_start : Inv ({} : Shared H O) where
  finite := by simp [Finitely, owns]
  fresh _ _ := rfl
  released _ := by simp
  fault := rfl
  balanced o := by
    have howns : ({} : Shared H O).owns = fun _ => none := rfl
    simp [debt, references, howns, number_none]
  stack _ ha := absurd ha List.not_mem_nil

variable [DecidableEq H]

/-- The state after an operation is exact, and a self-assignment has changed nothing. -/
def Good (checks : Bool) (s : Shared H O) (op : PointerOp H O) : Prop :=
  ∀ t, s.step checks op = some t → t.Exact ∧ (op.IsSelf → t = s)

/-- A new handle that is given a pointer, which it counts. -/
theorem outcome_ref {ptr : Option O} (hs : Inv s) (hdead : s.handle h = none) (hself : ¬ op.IsSelf) :
    Outcome (s.Referenced ptr) s op ((s.point h ptr).ref ptr) := by
  have hrec := hs.toRecorded.point h ptr
  have hnone : s.owns h = none := by rw [owns, hdead]; rfl
  have hfault : ((s.point h ptr).ref ptr).fault = none ↔ s.Referenced ptr := fault_ref hrec.fault ptr
  have hstack : ((s.point h ptr).ref ptr).stack = s.stack := by cases ptr <;> rfl
  refine outcome_of hself (hstack ▸ hs.stack) ?_ fun hptr => hrec.ref hptr
  rw [← hfault, and_iff_right_iff_imp]
  intro _ o
  rw [debt_ref, debt_point hs.finite, hnone, one_none, hs.balanced o]
  omega

theorem outcome_construct {ptr : Option O} (hs : Inv s) (hdead : s.handle h = none)
    (ht : s.adopt ptr = some t) : Inv (t.point h ptr) := by
  obtain ⟨howns, hstack⟩ := adopt_frame ht
  have hnone : s.owns h = none := by rw [owns, hdead]; rfl
  have hrec := hs.toRecorded.adopt ht
  refine ⟨hrec.point h ptr, fun o => ?_, fun a ha => hs.stack a ?_⟩
  · rw [debt_point hrec.finite, debt_adopt ht, howns, hnone, one_none, hs.balanced o]
    omega
  · exact hstack ▸ ha

/-- What is taken from a handle must be owned by it. -/
theorem outcome_release (hs : Inv s) (hp : s.handle h = some p) (hself : ¬ op.IsSelf) :
    Outcome (s.lacks h = none) s op ((s.point h none).give p.ptr) := by
  have hrec := (hs.toRecorded.point h none).give p.ptr
  have hstack : ((s.point h none).give p.ptr).stack = s.stack := by cases p.ptr <;> rfl
  refine outcome_congr eq_comm (outcome_debt hself (hstack ▸ hs.stack) hrec fun o => ?_)
  have hptr := one_ptr p o
  rw [debt_give, debt_point hs.finite, one_none, owns_eq hp, lacks_eq hp, hs.balanced o]
  omega

theorem outcome_moveConstruct {other : H} (hs : Inv s) (hdead : s.handle h = none)
    (hp : s.handle other = some p) (hself : ¬ op.IsSelf) :
    Outcome (s.lacks other = none) s op ((s.point h p.ptr).point other none) := by
  have hne : other ≠ h := by
    rintro rfl
    rw [hdead] at hp
    cases hp
  have hrec := hs.toRecorded.point h p.ptr
  have howns : (s.point h p.ptr).owns other = p.owns := by
    rw [point, owns_setHandle, Function.update_of_ne hne, owns_eq hp]
  have hnone : s.owns h = none := by rw [owns, hdead]; rfl
  refine outcome_congr eq_comm (outcome_debt hself hs.stack (hrec.point other none) fun o => ?_)
  have hptr := one_ptr p o
  rw [debt_point hrec.finite, debt_point hs.finite, howns, hnone, one_none, lacks_eq hp, hs.balanced o]
  omega

/-! ### Operations that begin with `unref` -/

theorem outcome_hookReturn (hs : Inv u) (hself : ¬ op.IsSelf) (ha : ¬ a.IsSelf)
    (ht : u.finish a = some t) : Outcome (u.Finishable a) s op t := by
  by_cases hal : u.Alive a
  · have hfin := finish_alive hs.toRecorded ha hal ht
    refine outcome_of hself (hfin.stack ▸ hs.stack) ?_ fun hC => hfin.recorded hC.readable
    have hbalanced : t.Balanced ↔ u.owns a.target = u.taken a := by
      refine balanced_iff fun o => ?_
      rw [hfin.debt o, hs.balanced o]
      omega
    rw [hbalanced, hfin.fault]
    exact ⟨fun h => ⟨hal, h.2, h.1⟩, fun h => ⟨h.owns, h.readable⟩⟩
  · exact .inr ⟨fun hC => hal hC.alive, fun hgood => finish_dangling hal ht hgood.1.fault⟩

/-- The source of an assignment, unless it is its target, is what it was before `unref`. -/
theorem unref_source (hp : s.handle a.target = some p) (ha : ¬ a.IsSelf)
    (hr : s.unref checks a.target p = (u, .done)) :
    (u.Alive a ↔ s.Alive a) ∧ (u.Readable a ↔ s.Readable a) ∧ u.taken a = s.taken a := by
  obtain ⟨-, halive, hothers, -⟩ := unref_frame hp hr
  have hrefc : ∀ o, 0 < u.refc o ↔ 0 < s.refc o := by
    intro o
    obtain ⟨-, rfl, -⟩ | ⟨b, -, ⟨-, -, hend⟩ | ⟨hone, rfl, hend⟩⟩ := unref_cases hr
    · exact Iff.rfl
    · cases hend
    · by_cases ho : o = b
      · have hzero : s.refc b ≠ 0 := by
          intro hzero
          rw [if_neg (by omega), if_pos hzero] at hend
          cases hend
        simp [drop, setHandle, ho]
        omega
      · simp [drop, setHandle, ho]
  have hsource : ∀ other ∈ a.source, u.handle other = s.handle other := fun other hother =>
    hothers other fun heq => ha (hother.trans (congrArg some heq))
  refine ⟨?_, ?_, ?_⟩
  · refine and_congr (iff_of_true halive (by rw [hp]; rfl)) (forall₂_congr fun other hother => ?_)
    rw [hsource other hother]
  · cases a with
    | copy h other =>
      have hptr : u.ptr other = s.ptr other := by rw [ptr, ptr, hsource other rfl]
      rw [Readable, Readable, hptr]
      cases s.ptr other with
      | none => exact Iff.rfl
      | some o => exact hrefc o
    | _ => exact Iff.rfl
  · cases a with
    | move h other => rw [taken, taken, lacks, lacks, hsource other rfl]
    | _ => rfl

/-- No hook runs, and no handle is assigned to itself. -/
theorem outcome_done (hs : Inv s) (hp : s.handle a.target = some p) (ha : ¬ a.IsSelf)
    (hal : s.Alive a) (hr : s.unref checks a.target p = (u, .done)) (ht : u.finish a = some t) :
    Outcome (s.Sane checks (.assign a)) s (.assign a) t := by
  have hu := hs.toRecorded.unref hr (by simp)
  obtain ⟨halive, hread, htaken⟩ := unref_source hp ha hr
  obtain ⟨howns, -, -, hstack⟩ := unref_frame hp hr
  have hfin := finish_alive hu ha (halive.mpr hal) ht
  have hhook : ¬ s.runsHook checks a.target = true := by
    rw [← unref_hook_iff hp hr]
    simp
  have hsane : s.Sane checks (.assign a) ↔ s.lacks a.target = none ∧ s.Readable a ∧ s.taken a = none := by
    rw [sane_assign_iff ha]
    simp [hhook]
  refine outcome_of ha ?_ ?_ fun hC => hfin.recorded (hread.mpr (hsane.mp hC).2.1)
  · rw [hfin.stack, hstack]
    exact hs.stack
  · have hbalanced : t.Balanced ↔ p.lacks = none ∧ s.taken a = none := by
      refine balanced_iff_none fun o => ?_
      rw [hfin.debt o, debt_unref hs.finite hp hr, hs.balanced o, howns, one_none, htaken]
      omega
    rw [hsane, lacks_eq hp, hfin.fault, hread, hbalanced, and_right_comm, and_assoc]

/-- A hook runs; what comes after it is not decided yet. -/
theorem outcome_hook (hs : Inv s) (hp : s.handle a.target = some p)
    (hr : s.unref checks a.target p = (u, .hook)) :
    Outcome (s.Sane checks (.assign a)) s (.assign a) { u with stack := a :: u.stack } := by
  have hu := hs.toRecorded.unref hr (by simp)
  have hstack := (unref_frame hp hr).2.2.2
  have hhook := (unref_hook_iff hp hr).mp rfl
  by_cases ha : a.IsSelf
  · refine .inr ⟨fun hC => ?_, fun hgood => ?_⟩
    · have hquiet := Harmless.quiet ha ((sane_self_iff ha).mp hC).2
      rw [hhook] at hquiet
      cases hquiet
    · have hsame := congrArg Shared.stack (hgood.2 ha)
      rw [← hstack] at hsame
      simp at hsame
  · have hsane : s.Sane checks (.assign a) ↔ s.lacks a.target = none := by
      rw [sane_assign_iff ha]
      simp [hhook]
    have hrec : Recorded { u with stack := a :: u.stack } := ⟨hu.finite, hu.fresh, hu.released, hu.fault⟩
    refine outcome_congr (hsane.trans eq_comm).symm (outcome_debt ha ?_ hrec fun o => ?_)
    · rintro b hb
      rcases List.mem_cons.mp hb with rfl | hb
      · exact ha
      · exact hs.stack b (hstack ▸ hb)
    · have hdebt := debt_unref hs.finite hp hr o
      rw [hs.balanced o] at hdebt
      rw [one_none, lacks_eq hp]
      exact hdebt

/-- The reference that was dropped is taken again. -/
theorem copy_drop {b : O} {q : Pointer O} (hp : s.handle h = some (.owner b)) (hrefc : 1 < s.refc b) :
    ((s.drop h b q).point h (some b)).ref (some b) = s := by
  have hsame : Function.update s.handle h (some (.owner b)) = s.handle := by
    rw [← hp, Function.update_eq_self]
  have hpos : ¬ s.refc b - 1 ≤ 0 := by omega
  simp [drop, point, setHandle, ref, Pointer.of, hsame, hpos]

/-- A handle is copied to itself, and no hook runs. -/
theorem outcome_copy_self (hs : Inv s) (hp : s.handle h = some p)
    (hr : s.unref checks h p = (u, .done)) (ht : u.finish (.copy h h) = some t) :
    Outcome (s.Sane checks (.assign (.copy h h))) s (.assign (.copy h h)) t := by
  have hquiet : s.runsHook checks h = false := by
    rw [← Bool.not_eq_true, ← unref_hook_iff hp hr]
    simp
  have hsane : s.Sane checks (.assign (.copy h h)) ↔ p.lacks = none := by
    rw [sane_self_iff (a := .copy h h) rfl, Assignment.target, lacks_eq hp]
    exact and_iff_left hquiet
  have hu := hs.toRecorded.unref hr (by simp)
  obtain ⟨howns, halive, -, -⟩ := unref_frame hp hr
  obtain ⟨q, hq⟩ := Option.isSome_iff_exists.mp halive
  simp only [finish, hq, Option.some.injEq] at ht
  cases p with
  | null =>
    obtain ⟨-, hu, -⟩ | ⟨b, hb, -⟩ := unref_cases hr
    · subst hu
      obtain rfl : .null = q := Option.some.inj (hp.symm.trans hq)
      have hsame : t = u := by rw [← ht, Pointer.ptr, point_self hp]; rfl
      exact .inl ⟨hsane.mpr rfl, hsame ▸ hs, fun _ => hsame⟩
    · cases hb
  | owner b =>
    obtain ⟨hc, -⟩ | ⟨b', hb, ⟨-, -, hend⟩ | ⟨hone, hu, -⟩⟩ := unref_cases hr
    · cases hc
    · cases hend
    · obtain rfl := Option.some.inj hb
      have hpos := (number_pos hs.finite).mpr ⟨h, owns_eq hp⟩
      have hcounted := hs.exact.counted b
      rw [references] at hcounted
      obtain rfl : .stale b = q := by simpa [hu, drop, setHandle] using hq
      have hsame : t = s := by
        rw [← ht, hu]
        exact copy_drop hp (by omega)
      exact .inl ⟨hsane.mpr rfl, hsame ▸ hs, fun _ => hsame⟩
  | stale b =>
    have hfin := finish_copy hu hq hq
    refine .inr ⟨fun hC => by simpa [Pointer.lacks] using hsane.mp hC, fun hgood => ?_⟩
    have hdebt := hfin.debt b
    rw [ht, hgood.1.balanced b, debt_unref hs.finite hp hr, hs.balanced b] at hdebt
    simp [Assignment.target, howns, taken, Pointer.lacks] at hdebt

/-- A handle is moved to itself, and no hook runs. -/
theorem outcome_move_self (hs : Inv s) (hp : s.handle h = some p)
    (hr : s.unref checks h p = (u, .done)) (ht : u.finish (.move h h) = some t) :
    Outcome (s.Sane checks (.assign (.move h h))) s (.assign (.move h h)) t := by
  have hsane : s.Sane checks (.assign (.move h h)) ↔ p.lacks = none ∧ p.ptr = none := by
    rw [sane_self_iff (a := .move h h) rfl, Assignment.target, lacks_eq hp, Harmless, ptr_eq hp]
  obtain ⟨-, halive, -, -⟩ := unref_frame hp hr
  obtain ⟨q, hq⟩ := Option.isSome_iff_exists.mp halive
  simp only [finish, hq, Option.some.injEq] at ht
  by_cases hnull : p = .null
  · subst hnull
    obtain ⟨-, hu, -⟩ | ⟨b, hb, -⟩ := unref_cases hr
    · subst hu
      obtain rfl : .null = q := Option.some.inj (hp.symm.trans hq)
      have hsame : t = u := by rw [← ht, Pointer.ptr, point_self hp, point_self hp]
      exact .inl ⟨hsane.mpr ⟨rfl, rfl⟩, hsame ▸ hs, fun _ => hsame⟩
    · cases hb
  · -- the handle is null afterwards, and was not before
    refine .inr ⟨fun hC => hnull ?_, fun hgood => hnull ?_⟩
    · have hptr := (hsane.mp hC).2
      cases p <;> first | rfl | cases hptr
    · have hnow : t.handle h = some .null := by
        rw [← ht]
        simp [point, setHandle, Pointer.of]
      rw [hgood.2 rfl, hp] at hnow
      exact Option.some.inj hnow

theorem outcome_assign (hs : Inv s) (ht : s.start checks a = some t) :
    Outcome (s.Sane checks (.assign a)) s (.assign a) t := by
  obtain ⟨p, hp, ht⟩ := Option.bind_eq_some_iff.mp ht
  split at ht
  · cases ht
  next hsource =>
  have hal : s.Alive a := by
    refine ⟨by rw [hp]; rfl, fun other hother => ?_⟩
    rw [Option.mem_def] at hother
    simpa [hother, Option.isSome_iff_ne_none] using hsource
  cases hr : s.unref checks a.target p with
  | mk u r =>
    rw [hr] at ht
    cases r with
    | done =>
      by_cases ha : a.IsSelf
      · cases a with
        | copy h other =>
          obtain rfl : other = h := Option.some.inj ha
          exact outcome_copy_self hs hp hr ht
        | move h other =>
          obtain rfl : other = h := Option.some.inj ha
          exact outcome_move_self hs hp hr ht
        | reset h ptr => cases ha
        | destroy h => cases ha
      · exact outcome_done hs hp ha hal hr ht
    | hook =>
      obtain rfl := Option.some.inj ht
      exact outcome_hook hs hp hr
    | doubleFree =>
      obtain rfl := Option.some.inj ht
      refine .inr ⟨fun hC => ?_, fun hgood => ?_⟩
      · exact unref_doubleFree hs hp hr (lacks_eq hp ▸ hC.1)
      · have hfault := hgood.1.fault
        simp at hfault

/-- Every operation, from an exact state. -/
theorem step_cases (hs : Inv s) (ht : s.step checks op = some t) :
    Outcome (s.Sane checks op) s op t := by
  have hfault : ¬ s.fault.isSome := by simp [hs.fault]
  unfold step at ht
  rw [if_neg hfault] at ht
  cases op with
  | create o =>
    obtain ⟨hnew, ht⟩ := Option.ite_none_left_eq_some.mp ht
    obtain rfl := Option.some.inj ht
    exact outcome_true id (inv_create hs (by simpa using hnew))
  | construct h ptr =>
    obtain ⟨hdead, ht⟩ := Option.ite_none_left_eq_some.mp ht
    obtain ⟨m, hm, rfl⟩ := Option.map_eq_some_iff.mp ht
    exact outcome_true id (outcome_construct hs (by simpa using hdead) hm)
  | copyConstruct h other =>
    obtain ⟨hdead, ht⟩ := Option.ite_none_left_eq_some.mp ht
    obtain ⟨p, hp, rfl⟩ := Option.map_eq_some_iff.mp ht
    rw [Sane, ptr_eq hp]
    exact outcome_ref hs (by simpa using hdead) id
  | moveConstruct h other =>
    obtain ⟨hdead, ht⟩ := Option.ite_none_left_eq_some.mp ht
    obtain ⟨p, hp, rfl⟩ := Option.map_eq_some_iff.mp ht
    exact outcome_moveConstruct hs (by simpa using hdead) hp id
  | sharedFromThis h o =>
    obtain ⟨hdead, ht⟩ := Option.ite_none_left_eq_some.mp ht
    obtain rfl := Option.some.inj ht
    rw [Sane]
    exact outcome_ref hs (by simpa using (not_or.mp hdead).1) id
  | release h =>
    obtain ⟨p, hp, rfl⟩ := Option.map_eq_some_iff.mp ht
    exact outcome_release hs hp id
  | assign a => exact outcome_assign hs ht
  | hookReturn =>
    dsimp only at ht
    split at ht
    · cases ht
    · next a stack heq =>
      have hu : Inv { s with stack } :=
        { hs with stack := fun b hb => hs.stack b (heq ▸ List.mem_cons_of_mem a hb) }
      have ha : ¬ a.IsSelf := hs.stack a (heq ▸ List.mem_cons_self)
      refine outcome_congr ?_ (outcome_hookReturn hu id ha ht)
      have hfinishable : Finishable { s with stack } a ↔ s.Finishable a :=
        ⟨fun hC => ⟨hC.alive, hC.readable, hC.owns⟩, fun hC => ⟨hC.alive, hC.readable, hC.owns⟩⟩
      rw [hfinishable, Sane, heq]
      simp

/-- In a run that is not cut short, every count is exact after every operation, and self-assignments
    change nothing, if and only if every operation meets its condition. -/
theorem counting_exact_iff (checks : Bool) (ops : List (PointerOp H O)) (s : Shared H O)
    (hrun : exec (step checks) {} ops = some s) :
    Meets (step checks) (Good checks) {} ops ↔
      Meets (step checks) (fun s op => s.Sane checks op) {} ops := by
  refine meets_congr (L := fun _ => True) (I := Inv) (fun s op t hs _ hC ht => ?_)
    (fun s op t hs _ ht => ?_) ops {} s hrun (fun _ _ => trivial) inv_start
  · obtain ⟨-, hinv, -⟩ | ⟨hno, -⟩ := step_cases hs ht
    · exact hinv
    · exact absurd hC hno
  · obtain ⟨hC, hinv, hsame⟩ | ⟨hno, hbad⟩ := step_cases hs ht
    · refine iff_of_true (fun u hu => ?_) hC
      obtain rfl : t = u := Option.some.inj (ht.symm.trans hu)
      exact ⟨hinv.exact, hsame⟩
    · exact iff_of_false (fun hgood => hbad (hgood t ht)) hno

/-- Three handles of one object, with a copy to itself, a check, a release and an adoption; the hook of
    the last reference creates another object. -/
theorem counting_exact_three_handles :
    Meets (step true) (Good true) ({} : Shared Nat Nat) [.create 0, .construct 0 (some 0),
      .copyConstruct 1 0, .sharedFromThis 2 0, .assign (.copy 0 0), .assign (.destroy 2),
      .assign (.move 1 0), .copyConstruct 2 1, .hookReturn, .assign (.destroy 2), .hookReturn, .release 1,
      .assign (.reset 0 (some 0)), .assign (.reset 0 none), .create 1, .hookReturn] :=
  (counting_exact_iff true _ _ rfl).mpr (by decide)

/-- The only handle of an object is assigned to itself: the object is released, and the handle is null. -/
theorem self_assignment_releases :
    (¬ ∀ (checks : Bool) (ops : List (PointerOp Nat Nat)) (s : Shared Nat Nat),
        exec (step checks) {} ops = some s → Meets (step checks) (Good checks) {} ops) ∧
      ∃ s, exec (step false) ({} : Shared Nat Nat) [.create 0, .construct 0 (some 0),
          .assign (.copy 0 0), .hookReturn] = some s ∧ s.released = [0] ∧ s.ptr 0 = none := by
  refine ⟨fun hall => ?_, _, rfl, rfl, rfl⟩
  have hmeets := hall false [.create 0, .construct 0 (some 0), .assign (.copy 0 0)] _ rfl
  have hsame := ((hmeets.2 _ rfl).2 _ rfl).1 _ rfl
  have hreleased := congrArg Shared.released (hsame.2 rfl)
  cases hreleased

end Jinx.Shared
