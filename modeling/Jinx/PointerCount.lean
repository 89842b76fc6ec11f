import Jinx.PointerShared

/-! The counts of `PointerShared`.

    `debt` is by how much the count of an object is above the references to it. Each part of an
    operation changes it by what it does to one handle, and an operation is exact if and only if these
    add up to nothing. -/

namespace Jinx.Shared

open Count Runs

variable {H O : Type*} {s t u : Shared H O} {h other : H} {p : Pointer O} {ptr x y : Option O} {o : O}

@[simp] theorem owns_of (ptr : Option O) : (Pointer.of ptr).owns = ptr := by
  cases ptr <;> rfl

theorem owns_setHandle [DecidableEq H] (s : Shared H O) (h : H) (p : Option (Pointer O)) :
    (s.setHandle h p).owns = Function.update s.owns h (p.bind Pointer.owns) := by
  funext k
  by_cases hk : k = h
  · simp [owns, setHandle, hk]
  · simp [owns, setHandle, hk]

theorem ptr_eq (hp : s.handle h = some p) : s.ptr h = p.ptr := by rw [ptr, hp]; rfl

theorem owns_eq (hp : s.handle h = some p) : s.owns h = p.owns := by rw [owns, hp]; rfl

theorem lacks_eq (hp : s.handle h = some p) : s.lacks h = p.lacks := by rw [lacks, hp]; rfl

variable [DecidableEq O]

/-- One for the object that is pointed to. -/
def one (x : Option O) (o : O) : Int := if x = some o then 1 else 0

@[simp] theorem one_none (o : O) : one none o = 0 := by simp [one]

@[simp] theorem one_self (o : O) : one (some o) o = 1 := by simp [one]

theorem one_nonneg (x : Option O) (o : O) : 0 ≤ one x o := by
  unfold one
  split <;> omega

theorem one_eq_iff : (∀ o, one x o = one y o) ↔ x = y := by
  constructor
  · intro h
    cases x with
    | none =>
      cases y with
      | none => rfl
      | some b => simpa using h b
    | some a =>
      have ha := h a
      rw [one_self] at ha
      by_contra hne
      rw [one, if_neg fun hy => hne hy.symm] at ha
      cases ha
  · rintro rfl _
    rfl

theorem one_ptr (p : Pointer O) (o : O) : one p.ptr o = one p.owns o + one p.lacks o := by
  cases p <;> simp [Pointer.ptr, Pointer.owns, Pointer.lacks]

/-- By how much the count is above the references. -/
noncomputable def debt (s : Shared H O) (o : O) : Int := s.refc o - s.references o

def Balanced (s : Shared H O) : Prop := ∀ o, s.debt o = 0

/-- The release hooks that ran are those of the objects whose count is zero. -/
structure Recorded (s : Shared H O) : Prop where
  finite : Finitely s.owns
  fresh : ∀ o, s.created o = false → s.refc o = 0
  released : ∀ o, s.released.count o = if s.created o = true ∧ s.refc o = 0 then 1 else 0
  fault : s.fault = none

structure Inv (s : Shared H O) : Prop extends Recorded s where
  balanced : s.Balanced
  /-- no hook runs in an assignment of a handle to itself -/
  stack : ∀ a ∈ s.stack, ¬ a.IsSelf

theorem Inv.exact (hs : Inv s) : s.Exact where
  counted o := by
    have hdebt := hs.balanced o
    unfold debt at hdebt
    omega
  released o := by
    have hdebt := hs.balanced o
    unfold debt at hdebt
    have hzero : s.refc o = 0 ↔ s.references o = 0 := by omega
    simp only [hs.released o, hzero]
  fault := hs.fault

theorem Exact.balanced (hs : s.Exact) : s.Balanced := by
  intro o
  rw [debt, hs.counted o, Int.sub_self]

/-! ### What the parts of an operation do -/

section Handles

variable [DecidableEq H]

theorem debt_setHandle (hfin : Finitely s.owns) (h : H) (p : Option (Pointer O)) (o : O) :
    (s.setHandle h p).debt o = s.debt o + one (s.owns h) o - one (p.bind Pointer.owns) o := by
  have hnumber := number_update hfin h (p.bind Pointer.owns) o
  have hrefc : (s.setHandle h p).refc o = s.refc o := rfl
  have hgiven : (s.setHandle h p).given o = s.given o := rfl
  rw [debt, debt, references, references, owns_setHandle, hrefc, hgiven, one, one]
  split at hnumber <;> split at hnumber <;> simp_all <;> omega

theorem debt_point (hfin : Finitely s.owns) (h : H) (ptr : Option O) (o : O) :
    (s.point h ptr).debt o = s.debt o + one (s.owns h) o - one ptr o := by
  have hset := debt_setHandle hfin h (some (.of ptr)) o
  rwa [Option.bind_some, owns_of] at hset

theorem Recorded.setHandle (hs : Recorded s) (h : H) (p : Option (Pointer O)) :
    Recorded (s.setHandle h p) where
  finite := by
    rw [owns_setHandle]
    exact hs.finite.update h _
  fresh := hs.fresh
  released := hs.released
  fault := hs.fault

theorem Recorded.point (hs : Recorded s) (h : H) (ptr : Option O) : Recorded (s.point h ptr) :=
  hs.setHandle h _

end Handles

theorem owns_ref (s : Shared H O) (ptr : Option O) : (s.ref ptr).owns = s.owns := by
  cases ptr <;> rfl

theorem debt_ref (s : Shared H O) (ptr : Option O) (o : O) :
    (s.ref ptr).debt o = s.debt o + one ptr o := by
  cases ptr with
  | none => simp [ref]
  | some a =>
    have hreferences : (s.ref (some a)).references o = s.references o := rfl
    rw [debt, debt, hreferences, ref, one]
    by_cases ho : o = a
    · simp [ho]; omega
    · simp [ho, Ne.symm ho]

theorem fault_ref (hs : s.fault = none) (ptr : Option O) :
    (s.ref ptr).fault = none ↔ s.Referenced ptr := by
  cases ptr with
  | none => exact iff_of_true hs trivial
  | some a =>
    simp only [ref, Referenced]
    split <;> simp_all

/-- A reference to an object that has some. -/
theorem Recorded.ref (hs : Recorded s) (hptr : s.Referenced ptr) : Recorded (s.ref ptr) where
  finite := by rw [owns_ref]; exact hs.finite
  fresh := by
    cases ptr with
    | none => exact hs.fresh
    | some a =>
      intro o ho
      have hrefc := hs.fresh o ho
      have hne : o ≠ a := by
        rintro rfl
        simp only [Referenced] at hptr
        omega
      simp [Shared.ref, hne, hrefc]
  released := by
    cases ptr with
    | none => exact hs.released
    | some a =>
      intro o
      have hrefc : (s.ref (some a)).refc o = 0 ↔ s.refc o = 0 := by
        simp only [Referenced] at hptr
        by_cases ho : o = a
        · simp [Shared.ref, ho]; omega
        · simp [Shared.ref, ho]
      simp only [hrefc]
      exact hs.released o
  fault := (fault_ref hs.fault ptr).mpr hptr

theorem debt_give (s : Shared H O) (ptr : Option O) (o : O) :
    (s.give ptr).debt o = s.debt o - one ptr o := by
  cases ptr with
  | none => simp [give]
  | some a =>
    have howns : (s.give (some a)).owns = s.owns := rfl
    have hrefc : (s.give (some a)).refc = s.refc := rfl
    rw [debt, debt, references, references, howns, hrefc, give, one]
    by_cases ho : o = a
    · simp [ho]; omega
    · simp [ho, Ne.symm ho]

theorem Recorded.give (hs : Recorded s) (ptr : Option O) : Recorded (s.give ptr) := by
  cases ptr <;> exact ⟨hs.finite, hs.fresh, hs.released, hs.fault⟩

theorem adopt_cases (ht : s.adopt ptr = some t) : (ptr = none ∧ t = s) ∨
    ∃ a, ptr = some a ∧ 0 < s.given a ∧
      t = { s with given := Function.update s.given a (s.given a - 1) } := by
  cases ptr with
  | none => exact .inl ⟨rfl, (Option.some.inj ht).symm⟩
  | some a =>
    simp only [adopt] at ht
    split at ht
    · cases ht
    · exact .inr ⟨a, rfl, Nat.pos_of_ne_zero ‹_›, (Option.some.inj ht).symm⟩

theorem debt_adopt (ht : s.adopt ptr = some t) (o : O) : t.debt o = s.debt o + one ptr o := by
  obtain ⟨rfl, rfl⟩ | ⟨a, rfl, hgiven, rfl⟩ := adopt_cases ht
  · simp
  · have howns : ({ s with given := Function.update s.given a (s.given a - 1) } : Shared H O).owns =
        s.owns := rfl
    rw [debt, debt, references, references, howns, one]
    by_cases ho : o = a
    · subst ho
      simp only [Function.update_self, if_true]
      omega
    · simp [ho, Ne.symm ho]

theorem Recorded.adopt (hs : Recorded s) (ht : s.adopt ptr = some t) : Recorded t := by
  obtain ⟨-, rfl⟩ | ⟨a, -, -, rfl⟩ := adopt_cases ht
  · exact hs
  · exact ⟨hs.finite, hs.fresh, hs.released, hs.fault⟩

theorem adopt_frame (ht : s.adopt ptr = some t) : t.owns = s.owns ∧ t.stack = s.stack := by
  obtain ⟨-, rfl⟩ | ⟨a, -, -, rfl⟩ := adopt_cases ht <;> exact ⟨rfl, rfl⟩

/-! ### `unref` -/

section Unref

variable [DecidableEq H] {checks : Bool} {r : Unref}

/-- The count of `a` goes down, and a handle is written. -/
def drop (s : Shared H O) (h : H) (a : O) (p : Pointer O) : Shared H O :=
  { s with refc := Function.update s.refc a (s.refc a - 1) }.setHandle h (some p)

/-- The ways `unref` can end. -/
theorem unref_cases (hr : s.unref checks h p = (t, r)) :
    (p = .null ∧ t = s ∧ r = .done) ∨
    ∃ a, p.ptr = some a ∧
      ((s.refc a = 1 ∧ t = { s.drop h a .null with released := a :: s.released } ∧ r = .hook) ∨
      (s.refc a ≠ 1 ∧ t = s.drop h a (.stale a) ∧
        r = if checks ∧ s.refc a = 2 then .hook else if s.refc a = 0 then .doubleFree else .done)) := by
  cases hp : p.ptr with
  | none =>
    have hnull : p = .null := by cases p <;> first | rfl | cases hp
    subst hnull
    obtain ⟨rfl, rfl⟩ := Prod.mk.inj hr
    exact .inl ⟨rfl, rfl, rfl⟩
  | some a =>
    refine .inr ⟨a, rfl, ?_⟩
    simp only [unref, hp] at hr
    split at hr <;> obtain ⟨rfl, rfl⟩ := Prod.mk.inj hr
    · exact .inl ⟨‹_›, rfl, rfl⟩
    · exact .inr ⟨‹_›, rfl, rfl⟩

theorem debt_drop (hfin : Finitely s.owns) (hp : s.handle h = some p) {a : O} (ha : p.ptr = some a)
    {q : Pointer O} (hq : q.owns = none) (o : O) :
    (s.drop h a q).debt o = s.debt o - one p.lacks o := by
  let u : Shared H O := { s with refc := Function.update s.refc a (s.refc a - 1) }
  have hu : u.debt o = s.debt o - one (some a) o := by
    have hrefs : u.references o = s.references o := rfl
    rw [debt, debt, hrefs, one]
    by_cases ho : o = a
    · simp [u, ho]; omega
    · simp [u, ho, Ne.symm ho]
  have howns : u.owns h = p.owns := by
    change (s.handle h).bind Pointer.owns = p.owns
    rw [hp, Option.bind_some]
  have hset := debt_setHandle (s := u) hfin h (some q) o
  have hptr := one_ptr p o
  rw [Option.bind_some, hq, one_none, howns, hu] at hset
  rw [ha] at hptr
  rw [drop, hset]
  omega

theorem Recorded.drop (hs : Recorded s) {a : O} (hone : s.refc a ≠ 1) (hzero : s.refc a ≠ 0)
    (q : Pointer O) : Recorded (s.drop h a q) := by
  have hrefc : ∀ o, Function.update s.refc a (s.refc a - 1) o = 0 ↔ s.refc o = 0 := by
    intro o
    by_cases ho : o = a
    · simp [ho]; omega
    · simp [ho]
  have hset : Recorded { s with refc := Function.update s.refc a (s.refc a - 1) } := by
    refine ⟨hs.finite, fun o ho => (hrefc o).mpr (hs.fresh o ho), fun o => ?_, hs.fault⟩
    simp only [hrefc o]
    exact hs.released o
  exact hset.setHandle h _

/-- The last reference goes, and the release hook is called. -/
theorem Recorded.drop_last (hs : Recorded s) {a : O} (hone : s.refc a = 1) (q : Pointer O) :
    Recorded { s.drop h a q with released := a :: s.released } := by
  have hcreated : s.created a = true := by
    by_contra hno
    have := hs.fresh a (by simpa using hno)
    omega
  have hset : Recorded { s with
      refc := Function.update s.refc a (s.refc a - 1)
      released := a :: s.released } := by
    refine ⟨hs.finite, fun o ho => ?_, fun o => ?_, hs.fault⟩
    · have hne : o ≠ a := by
        rintro rfl
        simp [hcreated] at ho
      simpa [hne] using hs.fresh o ho
    · have hreleased := hs.released o
      by_cases ho : o = a
      · subst ho
        simp [hone, hcreated] at hreleased ⊢
        exact hreleased
      · simpa [ho, Ne.symm ho] using hreleased
  exact hset.setHandle h _

/-- What `unref` does to the handle `h`, which is `p`, and to nothing else. -/
theorem unref_frame (hp : s.handle h = some p) (hr : s.unref checks h p = (t, r)) :
    t.owns h = none ∧ (t.handle h).isSome ∧ (∀ k, k ≠ h → t.handle k = s.handle k) ∧
      t.stack = s.stack := by
  obtain ⟨rfl, rfl, -⟩ | ⟨a, -, ⟨-, rfl, -⟩ | ⟨-, rfl, -⟩⟩ := unref_cases hr
  · exact ⟨owns_eq hp, by rw [hp]; rfl, fun _ _ => rfl, rfl⟩
  · refine ⟨?_, ?_, fun k hk => Function.update_of_ne hk _ _, rfl⟩ <;> simp [owns, drop, setHandle]
    rfl
  · refine ⟨?_, ?_, fun k hk => Function.update_of_ne hk _ _, rfl⟩ <;> simp [owns, drop, setHandle]
    rfl

/-- It drops a reference that the handle owned, or one that is missing then. -/
theorem debt_unref (hfin : Finitely s.owns) (hp : s.handle h = some p)
    (hr : s.unref checks h p = (t, r)) (o : O) : t.debt o = s.debt o - one p.lacks o := by
  obtain ⟨rfl, rfl, -⟩ | ⟨a, ha, ⟨-, rfl, -⟩ | ⟨-, rfl, -⟩⟩ := unref_cases hr
  · simp [Pointer.lacks]
  · exact debt_drop hfin hp ha rfl o
  · exact debt_drop hfin hp ha rfl o

theorem Recorded.unref (hs : Recorded s) (hr : s.unref checks h p = (t, r)) (hne : r ≠ .doubleFree) :
    Recorded t := by
  obtain ⟨-, rfl, -⟩ | ⟨a, -, ⟨hone, rfl, -⟩ | ⟨hone, rfl, rfl⟩⟩ := unref_cases hr
  · exact hs
  · exact hs.drop_last hone _
  · refine hs.drop hone (fun hzero => hne ?_) _
    rw [if_neg (by omega), if_pos hzero]

theorem unref_hook_iff (hp : s.handle h = some p) (hr : s.unref checks h p = (t, r)) :
    r = .hook ↔ s.runsHook checks h = true := by
  have hptr := ptr_eq hp
  obtain ⟨rfl, -, rfl⟩ | ⟨a, ha, ⟨hone, -, rfl⟩ | ⟨hone, -, rfl⟩⟩ := unref_cases hr
  · simp [runsHook, hptr, Pointer.ptr]
  · simp [runsHook, hptr, ha, hone]
  · rw [runsHook, hptr, ha]
    by_cases hcheck : checks = true ∧ s.refc a = 2
    · simp [hcheck]
    · rw [if_neg hcheck]
      refine iff_of_false (by split <;> simp) ?_
      simpa [hone] using hcheck

/-- Only a handle without a reference can make the count go below zero. -/
theorem unref_doubleFree (hs : Inv s) (hp : s.handle h = some p)
    (hr : s.unref checks h p = (t, .doubleFree)) : p.lacks ≠ none := by
  obtain ⟨-, -, hr⟩ | ⟨a, ha, ⟨-, -, hr⟩ | ⟨-, -, hr⟩⟩ := unref_cases hr
  · cases hr
  · cases hr
  · have hzero : s.refc a = 0 := by
      by_contra hne
      rw [if_neg hne] at hr
      split at hr <;> cases hr
    intro hlacks
    have howns : s.owns h = some a := by
      rw [owns, hp, Option.bind_some]
      cases p <;> simp_all [Pointer.ptr, Pointer.owns, Pointer.lacks]
    have hpos := (number_pos hs.finite).mpr ⟨h, howns⟩
    have hcounted := hs.exact.counted a
    rw [references] at hcounted
    omega

end Unref

/-! ### The end of an operation -/

section Finish

variable [DecidableEq H] {a : Assignment H O}

/-- The handle is overwritten: the reference that it owns is lost, and what is taken has none. -/
structure Finished (u t : Shared H O) (a : Assignment H O) : Prop where
  alive : u.Alive a
  debt : ∀ o, t.debt o = u.debt o + one (u.owns a.target) o - one (u.taken a) o
  fault : t.fault = none ↔ u.Readable a
  recorded : u.Readable a → Recorded t
  stack : t.stack = u.stack

theorem finish_copy {q : Pointer O} (hu : Recorded u) (hh : u.handle h = some q)
    (hp : u.handle other = some p) : Finished u ((u.point h p.ptr).ref p.ptr) (.copy h other) where
  alive := ⟨by simp [Assignment.target, hh], by simp [Assignment.source, hp]⟩
  debt o := by
    rw [debt_ref, debt_point hu.finite, taken, one_none, Assignment.target]
    omega
  fault := by
    rw [Readable, ptr_eq hp]
    exact fault_ref (hu.point h p.ptr).fault p.ptr
  recorded hread := by
    rw [Readable, ptr_eq hp] at hread
    exact (hu.point h p.ptr).ref hread
  stack := by cases p.ptr <;> rfl

theorem finish_move {q : Pointer O} (hu : Recorded u) (hh : u.handle h = some q)
    (hp : u.handle other = some p) (hne : other ≠ h) :
    Finished u ((u.point h p.ptr).point other none) (.move h other) where
  alive := ⟨by simp [Assignment.target, hh], by simp [Assignment.source, hp]⟩
  debt o := by
    have howns : (u.point h p.ptr).owns other = p.owns := by
      rw [point, owns_setHandle, Function.update_of_ne hne, owns_eq hp]
    have hptr := one_ptr p o
    rw [debt_point (hu.point h p.ptr).finite, debt_point hu.finite, howns, one_none, taken,
      lacks_eq hp, Assignment.target]
    omega
  fault := iff_of_true hu.fault trivial
  recorded _ := (hu.point h p.ptr).point other none
  stack := rfl

theorem finish_reset {q : Pointer O} (hu : Recorded u) (hh : u.handle h = some q)
    (ht : u.adopt ptr = some t) : Finished u (t.point h ptr) (.reset h ptr) where
  alive := ⟨by simp [Assignment.target, hh], by simp [Assignment.source]⟩
  debt o := by
    have howns := (adopt_frame ht).1
    rw [debt_point (hu.adopt ht).finite, debt_adopt ht, howns, taken, one_none, Assignment.target]
    omega
  fault := iff_of_true (hu.adopt ht).fault trivial
  recorded _ := (hu.adopt ht).point h ptr
  stack := (adopt_frame ht).2

theorem finish_destroy {q : Pointer O} (hu : Recorded u) (hh : u.handle h = some q) :
    Finished u (u.setHandle h none) (.destroy h) where
  alive := ⟨by simp [Assignment.target, hh], by simp [Assignment.source]⟩
  debt o := by
    rw [debt_setHandle hu.finite, Option.bind_none, one_none, taken, one_none, Assignment.target]
  fault := iff_of_true hu.fault trivial
  recorded _ := hu.setHandle h none
  stack := rfl

theorem finish_dangling (hal : ¬ u.Alive a) (ht : u.finish a = some t) : t.fault ≠ none := by
  cases a with
  | copy h other | move h other =>
    simp only [finish] at ht
    split at ht
    · next hh hp => exact absurd ⟨by simp [Assignment.target, hh], by simp [Assignment.source, hp]⟩ hal
    · obtain rfl := Option.some.inj ht
      simp
  | reset h ptr | destroy h =>
    simp only [finish] at ht
    split at ht
    · next hh => exact absurd ⟨by simp [Assignment.target, hh], by simp [Assignment.source]⟩ hal
    · obtain rfl := Option.some.inj ht
      simp

/-- An operation that is not a self-assignment, where its handles are alive. -/
theorem finish_alive (hu : Recorded u) (hself : ¬ a.IsSelf) (hal : u.Alive a)
    (ht : u.finish a = some t) : Finished u t a := by
  obtain ⟨q, hq⟩ := Option.isSome_iff_exists.mp hal.1
  cases a with
  | copy h other =>
    obtain ⟨p, hp⟩ := Option.isSome_iff_exists.mp (hal.2 other rfl)
    have hh : u.handle h = some q := hq
    simp only [finish, hh, hp, Option.some.injEq] at ht
    exact ht ▸ finish_copy hu hh hp
  | move h other =>
    obtain ⟨p, hp⟩ := Option.isSome_iff_exists.mp (hal.2 other rfl)
    have hh : u.handle h = some q := hq
    have hne : other ≠ h := fun heq => hself (congrArg some heq)
    simp only [finish, hh, hp, Option.some.injEq] at ht
    exact ht ▸ finish_move hu hh hp hne
  | reset h ptr =>
    have hh : u.handle h = some q := hq
    simp only [finish, hh] at ht
    obtain ⟨m, hm, rfl⟩ := Option.map_eq_some_iff.mp ht
    exact finish_reset hu hh hm
  | destroy h =>
    have hh : u.handle h = some q := hq
    simp only [finish, hh, Option.some.injEq] at ht
    exact ht ▸ finish_destroy hu hh

end Finish

end Jinx.Shared
