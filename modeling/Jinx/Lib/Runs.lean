import Mathlib.Data.List.Basic
import Mathlib.Tactic.Choose

/-! Runs of a partial, labelled step function.

    A system is a function `step : σ → α → Option σ`: in state `s` the label `a` is refused
    (`none`) or leads to one next state. `exec` takes a list of labels, `Meets` says that every
    label of it was taken in a state that meets a condition, and `exec_invariant` is the induction
    that turns a step lemma into a run lemma. Nothing here knows which system is run. -/

namespace Runs

variable {σ α : Type*} {step : σ → α → Option σ}

/-- Take the labels one after the other; `none` as soon as one of them is refused. -/
def exec (step : σ → α → Option σ) : σ → List α → Option σ
  | s, [] => some s
  | s, a :: as => (step s a).bind fun t => exec step t as

/-- Every label of the run meets `C` in the state in which it is taken. -/
def Meets (step : σ → α → Option σ) (C : σ → α → Prop) : σ → List α → Prop
  | _, [] => True
  | s, a :: as => C s a ∧ ∀ t, step s a = some t → Meets step C t as

/-- `P` holds in the first state of the run and in every state it reaches. -/
def Always (step : σ → α → Option σ) (P : σ → Prop) : σ → List α → Prop
  | s, [] => P s
  | s, a :: as => P s ∧ ∀ t, step s a = some t → Always step P t as

instance Meets.decidable {C : σ → α → Prop} [∀ s a, Decidable (C s a)] :
    ∀ (as : List α) (s : σ), Decidable (Meets step C s as)
  | [], _ => .isTrue trivial
  | a :: as, s =>
    match h : step s a with
    | none => decidable_of_iff (C s a) (by simp [Meets, h])
    | some t =>
      have := Meets.decidable (C := C) as t
      decidable_of_iff (C s a ∧ Meets step C t as) (by simp [Meets, h])

instance Always.decidable {P : σ → Prop} [DecidablePred P] :
    ∀ (as : List α) (s : σ), Decidable (Always step P s as)
  | [], s => inferInstanceAs (Decidable (P s))
  | a :: as, s =>
    match h : step s a with
    | none => decidable_of_iff (P s) (by simp [Always, h])
    | some t =>
      have := Always.decidable (P := P) as t
      decidable_of_iff (P s ∧ Always step P t as) (by simp [Always, h])

theorem meets_true : ∀ (as : List α) (s : σ), Meets step (fun _ _ => True) s as
  | [], _ => trivial
  | _ :: as, _ => ⟨trivial, fun t _ => meets_true as t⟩

/-- A condition on the labels alone. -/
theorem meets_of_forall {C : α → Prop} : ∀ (as : List α) (s : σ), (∀ a ∈ as, C a) →
    Meets step (fun _ a => C a) s as
  | [], _, _ => trivial
  | a :: as, _, h => by
    refine ⟨h a List.mem_cons_self, fun t _ => ?_⟩
    exact meets_of_forall as t fun b hb => h b (List.mem_cons_of_mem a hb)

@[simp] theorem exec_nil (s : σ) : exec step s [] = some s := rfl

theorem exec_cons {s t : σ} {a : α} {as : List α} :
    exec step s (a :: as) = some t ↔ ∃ m, step s a = some m ∧ exec step m as = some t := by
  simp [exec, Option.bind_eq_some_iff]

theorem exec_append (s : σ) (as bs : List α) :
    exec step s (as ++ bs) = (exec step s as).bind fun t => exec step t bs := by
  induction as generalizing s with
  | nil => rfl
  | cons a as ih =>
    simp only [List.cons_append, exec]
    cases step s a with
    | none => rfl
    | some m => simpa using ih m

theorem exec_trans {s m t : σ} {as bs : List α} (h₁ : exec step s as = some m)
    (h₂ : exec step m bs = some t) : exec step s (as ++ bs) = some t := by
  rw [exec_append, h₁]; exact h₂

theorem exec_split {s t : σ} {as bs : List α} (h : exec step s (as ++ bs) = some t) :
    ∃ m, exec step s as = some m ∧ exec step m bs = some t := by
  rwa [exec_append, Option.bind_eq_some_iff] at h

/-- Where at most one label of a kind is accepted, one of two runs with such labels goes on where the
    other ends. -/
theorem exec_comparable {L : α → Prop}
    (hone : ∀ s a b t u, L a → L b → step s a = some t → step s b = some u → a = b) :
    ∀ (as bs : List α) (s t u : σ), (∀ a ∈ as, L a) → (∀ b ∈ bs, L b) →
      exec step s as = some t → exec step s bs = some u →
      (∃ cs, exec step t cs = some u) ∨ ∃ cs, exec step u cs = some t
  | [], bs, s, t, u, _, _, ht, hu => by
    obtain rfl : s = t := by simpa using ht
    exact .inl ⟨bs, hu⟩
  | a :: as, [], s, t, u, _, _, ht, hu => by
    obtain rfl : s = u := by simpa using hu
    exact .inr ⟨a :: as, ht⟩
  | a :: as, b :: bs, s, t, u, hL, hL', ht, hu => by
    obtain ⟨m, hm, hmt⟩ := exec_cons.mp ht
    obtain ⟨m', hm', hmu⟩ := exec_cons.mp hu
    obtain rfl := hone s a b m m' (hL a List.mem_cons_self) (hL' b List.mem_cons_self) hm hm'
    obtain rfl : m = m' := Option.some.inj (hm.symm.trans hm')
    exact exec_comparable hone as bs m t u (fun x hx => hL x (List.mem_cons_of_mem a hx))
      (fun x hx => hL' x (List.mem_cons_of_mem a hx)) hmt hmu

/-- The labels up to a point of the run, and the next one. -/
theorem meets_split {C : σ → α → Prop} {s t : σ} {as bs : List α} {a : α}
    (h : Meets step C s (as ++ a :: bs)) (hrun : exec step s as = some t) :
    Meets step C s as ∧ C t a := by
  induction as generalizing s with
  | nil =>
    obtain rfl : s = t := by simpa using hrun
    exact ⟨trivial, h.1⟩
  | cons b as ih =>
    obtain ⟨m, hm, hmt⟩ := exec_cons.mp hrun
    obtain ⟨hmeets, ha⟩ := ih (h.2 m hm) hmt
    refine ⟨⟨h.1, fun x hx => ?_⟩, ha⟩
    obtain rfl : m = x := Option.some.inj (hm.symm.trans hx)
    exact hmeets

/-- A property that one step preserves, where the condition is met, holds along the whole run. -/
theorem exec_invariant {C : σ → α → Prop} {I : σ → Prop}
    (hstep : ∀ s a t, I s → C s a → step s a = some t → I t) :
    ∀ (as : List α) (s t : σ), exec step s as = some t → Meets step C s as → I s → I t
  | [], s, t, hrun, _, hI => by
    obtain rfl : s = t := by simpa [exec] using hrun
    exact hI
  | a :: as, s, t, hrun, ⟨hC, hrest⟩, hI => by
    obtain ⟨m, hm, hmt⟩ := exec_cons.mp hrun
    exact exec_invariant hstep as m t hmt (hrest m hm) (hstep s a m hI hC hm)

/-- The same for a relation between the first state of the run and its last one. -/
theorem exec_relation {C : σ → α → Prop} {I : σ → Prop} {R : σ → σ → Prop}
    (hstep : ∀ s a t, I s → C s a → step s a = some t → I t) (hrefl : ∀ s, R s s)
    (hR : ∀ r s a t, R r s → I s → C s a → step s a = some t → R r t) (as : List α) (s t : σ)
    (hrun : exec step s as = some t) (hmeets : Meets step C s as) (hI : I s) : R s t :=
  (exec_invariant (I := fun x => I x ∧ R s x)
    (fun x a y hx hC hy => ⟨hstep x a y hx.1 hC hy, hR s x a y hx.2 hx.1 hC hy⟩)
    as s t hrun hmeets ⟨hI, hrefl s⟩).2

/-- A relation that the steps of two systems keep is kept by their runs. -/
theorem exec_simulates {τ : Type*} {step' : τ → α → Option τ} {R : σ → τ → Prop}
    (hstep : ∀ s a s' t, R s t → step s a = some s' → ∃ t', step' t a = some t' ∧ R s' t') :
    ∀ (as : List α) (s s' : σ) (t : τ), R s t → exec step s as = some s' →
      ∃ t', exec step' t as = some t' ∧ R s' t'
  | [], s, s', t, hR, hrun => by
    obtain rfl : s = s' := by simpa [exec] using hrun
    exact ⟨t, rfl, hR⟩
  | a :: as, s, s', t, hR, hrun => by
    obtain ⟨m, hm, hms⟩ := exec_cons.mp hrun
    obtain ⟨n, hn, hmn⟩ := hstep s a m t hR hm
    obtain ⟨t', ht', hR'⟩ := exec_simulates hstep as m s' n hmn hms
    exact ⟨t', exec_cons.mpr ⟨n, hn, ht'⟩, hR'⟩

/-- Some run from `s` shows the observation `x`. -/
def Shows {β : Type*} (step : σ → α → Option σ) (obs : σ → β) (s : σ) (x : β) : Prop :=
  ∃ as t, exec step s as = some t ∧ obs t = x

/-- Where the condition keeps the invariant, a run whose labels all meet it has the property in all
    its states. -/
theorem always_of_meets {C : σ → α → Prop} {I P : σ → Prop}
    (hstep : ∀ s a t, I s → C s a → step s a = some t → I t) (hP : ∀ s, I s → P s) :
    ∀ (as : List α) (s : σ), I s → Meets step C s as → Always step P s as
  | [], s, hI, _ => hP s hI
  | a :: as, s, hI, ⟨hC, hrest⟩ => by
    refine ⟨hP s hI, fun t ht => ?_⟩
    exact always_of_meets hstep hP as t (hstep s a t hI hC ht) (hrest t ht)

theorem Always.head {P : σ → Prop} {s : σ} {as : List α} (h : Always step P s as) : P s := by
  cases as with
  | nil => exact h
  | cons => exact h.1

theorem Always.last {P : σ → Prop} : ∀ {as : List α} {s t : σ}, Always step P s as →
    exec step s as = some t → P t
  | [], s, t, h, hrun => by
    obtain rfl : s = t := by simpa using hrun
    exact h
  | a :: as, s, t, ⟨_, hall⟩, hrun => by
    obtain ⟨m, hm, hmt⟩ := exec_cons.mp hrun
    exact (hall m hm).last hmt

/-- A property of all states is one of the first state and of every next one. -/
theorem always_iff_next {P : σ → Prop} : ∀ (as : List α) (s : σ),
    Always step P s as ↔ P s ∧ Meets step (fun s a => ∀ t, step s a = some t → P t) s as
  | [], _ => ⟨fun h => ⟨h, trivial⟩, fun h => h.1⟩
  | a :: as, s => by
    constructor
    · intro ⟨hP, hall⟩
      exact ⟨hP, fun t ht => (hall t ht).head, fun t ht => ((always_iff_next as t).mp (hall t ht)).2⟩
    · intro ⟨hP, hnext, hrest⟩
      exact ⟨hP, fun t ht => (always_iff_next as t).mpr ⟨hnext t ht, hrest t ht⟩⟩

/-- Two conditions that say the same as long as the invariant holds, on a run that is not cut short. -/
theorem meets_congr {C D : σ → α → Prop} {L : α → Prop} {I : σ → Prop}
    (hstep : ∀ s a t, I s → L a → D s a → step s a = some t → I t)
    (hiff : ∀ s a t, I s → L a → step s a = some t → (C s a ↔ D s a)) :
    ∀ (as : List α) (s t : σ), exec step s as = some t → (∀ a ∈ as, L a) → I s →
      (Meets step C s as ↔ Meets step D s as)
  | [], _, _, _, _, _ => Iff.rfl
  | a :: as, s, t, hrun, hL, hI => by
    obtain ⟨m, hm, hmt⟩ := exec_cons.mp hrun
    have ha : L a := hL a List.mem_cons_self
    refine (and_congr_left' (hiff s a m hI ha hm)).trans (and_congr_right fun hD => ?_)
    refine forall_congr' fun x => imp_congr_right fun hx => ?_
    obtain rfl : m = x := Option.some.inj (hm.symm.trans hx)
    exact meets_congr hstep hiff as m t hmt (fun b hb => hL b (List.mem_cons_of_mem a hb))
      (hstep s a m hI ha hD hm)

/-- Where the condition is exactly what keeps the invariant, a run that is not cut short has the
    property in all its states if and only if all its labels meet the condition. The labels may be
    restricted. -/
theorem always_iff_meets_of {C : σ → α → Prop} {L : α → Prop} {I P : σ → Prop}
    (hstep : ∀ s a t, I s → L a → C s a → step s a = some t → I t) (hP : ∀ s, I s → P s)
    (hbreak : ∀ s a t, I s → L a → ¬ C s a → step s a = some t → ¬ P t) (as : List α) (s t : σ)
    (hrun : exec step s as = some t) (hL : ∀ a ∈ as, L a) (hI : I s) :
    Always step P s as ↔ Meets step C s as := by
  rw [always_iff_next, and_iff_right (hP s hI)]
  refine meets_congr (I := I) hstep (fun s a t hs ha ht => ⟨fun hnext => ?_, fun hC u hu => ?_⟩)
    as s t hrun hL hI
  · by_contra hC
    exact hbreak s a t hs ha hC ht (hnext t ht)
  · exact hP u (hstep s a u hs ha hC hu)

/-- The same where the labels are restricted by the states they are taken in. -/
theorem always_iff_meets_given {C D : σ → α → Prop} {I P : σ → Prop}
    (hstep : ∀ s a t, I s → D s a → C s a → step s a = some t → I t) (hP : ∀ s, I s → P s)
    (hbreak : ∀ s a t, I s → D s a → ¬ C s a → step s a = some t → ¬ P t) :
    ∀ (as : List α) (s t : σ), exec step s as = some t → Meets step D s as → I s →
      (Always step P s as ↔ Meets step C s as)
  | [], s, _, _, _, hI => iff_of_true (hP s hI) trivial
  | a :: as, s, t, hrun, ⟨hD, hrest⟩, hI => by
    obtain ⟨m, hm, hmt⟩ := exec_cons.mp hrun
    have hnext : C s a → (Always step P m as ↔ Meets step C m as) := fun hC =>
      always_iff_meets_given hstep hP hbreak as m t hmt (hrest m hm) (hstep s a m hI hD hC hm)
    constructor
    · intro ⟨_, hall⟩
      have hC : C s a := Classical.not_not.mp fun hC => hbreak s a m hI hD hC hm (hall m hm).head
      refine ⟨hC, fun x hx => ?_⟩
      obtain rfl : m = x := Option.some.inj (hm.symm.trans hx)
      exact (hnext hC).mp (hall m hm)
    · intro ⟨hC, hmeets⟩
      refine ⟨hP s hI, fun x hx => ?_⟩
      obtain rfl : m = x := Option.some.inj (hm.symm.trans hx)
      exact (hnext hC).mpr (hmeets m hm)

theorem always_iff_meets {C : σ → α → Prop} {I P : σ → Prop}
    (hstep : ∀ s a t, I s → C s a → step s a = some t → I t) (hP : ∀ s, I s → P s)
    (hbreak : ∀ s a t, I s → ¬ C s a → step s a = some t → ¬ P t) (as : List α) (s t : σ)
    (hrun : exec step s as = some t) (hI : I s) : Always step P s as ↔ Meets step C s as :=
  always_iff_meets_of (L := fun _ => True) (fun s a t hs _ => hstep s a t hs) hP
    (fun s a t hs _ => hbreak s a t hs) as s t hrun (fun _ _ => trivial) hI

/-- A condition that is weaker as long as the invariant holds. -/
theorem meets_imp {C D : σ → α → Prop} {I : σ → Prop}
    (hstep : ∀ s a t, I s → step s a = some t → I t) (himp : ∀ s a, I s → C s a → D s a) :
    ∀ (as : List α) (s : σ), I s → Meets step C s as → Meets step D s as
  | [], _, _, _ => trivial
  | a :: as, s, hI, ⟨hC, hrest⟩ => by
    refine ⟨himp s a hI hC, fun t ht => ?_⟩
    exact meets_imp hstep himp as t (hstep s a t hI ht) (hrest t ht)

/-- The same where the first condition keeps the invariant. -/
theorem meets_of_meets {C D : σ → α → Prop} {I : σ → Prop}
    (hstep : ∀ s a t, I s → C s a → step s a = some t → I t) (himp : ∀ s a, I s → C s a → D s a) :
    ∀ (as : List α) (s : σ), I s → Meets step C s as → Meets step D s as
  | [], _, _, _ => trivial
  | a :: as, s, hI, ⟨hC, hrest⟩ => by
    refine ⟨himp s a hI hC, fun t ht => ?_⟩
    exact meets_of_meets hstep himp as t (hstep s a t hI hC ht) (hrest t ht)

/-- Two conditions at once. -/
theorem meets_and {C D : σ → α → Prop} : ∀ (as : List α) (s : σ),
    Meets step (fun s a => C s a ∧ D s a) s as ↔ Meets step C s as ∧ Meets step D s as
  | [], _ => ⟨fun _ => ⟨trivial, trivial⟩, fun _ => trivial⟩
  | a :: as, s => by
    constructor
    · intro ⟨⟨hC, hD⟩, hrest⟩
      exact ⟨⟨hC, fun t ht => ((meets_and as t).mp (hrest t ht)).1⟩, hD, fun t ht =>
        ((meets_and as t).mp (hrest t ht)).2⟩
    · intro ⟨⟨hC, hrestC⟩, hD, hrestD⟩
      exact ⟨⟨hC, hD⟩, fun t ht => (meets_and as t).mpr ⟨hrestC t ht, hrestD t ht⟩⟩

/-- A property of all states of two runs, one after the other. -/
theorem always_append {P : σ → Prop} (s : σ) (as bs : List α) :
    Always step P s (as ++ bs) ↔
      Always step P s as ∧ ∀ t, exec step s as = some t → Always step P t bs := by
  induction as generalizing s with
  | nil =>
    refine ⟨fun h => ⟨h.head, fun t ht => ?_⟩, fun h => h.2 s rfl⟩
    obtain rfl : s = t := by simpa using ht
    exact h
  | cons a as ih =>
    constructor
    · intro ⟨hP, hall⟩
      refine ⟨⟨hP, fun m hm => ((ih m).mp (hall m hm)).1⟩, fun t ht => ?_⟩
      obtain ⟨m, hm, hmt⟩ := exec_cons.mp ht
      exact ((ih m).mp (hall m hm)).2 t hmt
    · intro ⟨⟨hP, hall⟩, hrest⟩
      exact ⟨hP, fun m hm => (ih m).mpr ⟨hall m hm, fun t ht => hrest t (exec_cons.mpr ⟨m, hm, ht⟩)⟩⟩

/-- Two systems do the same with these labels, as far as one goes along. -/
def Agree (step' step : σ → α → Option σ) (s : σ) (as : List α) : Prop :=
  ∀ bs, bs <+: as → exec step' s bs = exec step s bs

theorem agree_cons {step' : σ → α → Option σ} {s : σ} {a : α} {as : List α} :
    Agree step' step s (a :: as) ↔
      step' s a = step s a ∧ ∀ t, step s a = some t → Agree step' step t as := by
  constructor
  · intro hall
    have hsame : step' s a = step s a := by
      have hone := hall [a] (List.cons_prefix_cons.mpr ⟨rfl, List.nil_prefix⟩)
      simpa [exec] using hone
    refine ⟨hsame, fun t ht bs hbs => ?_⟩
    have hmore := hall (a :: bs) (List.cons_prefix_cons.mpr ⟨rfl, hbs⟩)
    simpa [exec, hsame, ht] using hmore
  · intro ⟨hsame, hrest⟩ bs hbs
    cases bs with
    | nil => rfl
    | cons b bs =>
      obtain ⟨rfl, htail⟩ := List.cons_prefix_cons.mp hbs
      rw [exec, exec, hsame]
      cases ht : step s b with
      | none => rfl
      | some t => exact hrest t ht bs htail

/-- They agree if and only if each label of the run meets the condition under which they do the same
    with it. -/
theorem agree_iff {step' : σ → α → Option σ} {C : σ → α → Prop} {I : σ → Prop}
    (hstep : ∀ s a t, I s → step s a = some t → I t)
    (hiff : ∀ s a t, I s → step s a = some t → (step' s a = step s a ↔ C s a)) :
    ∀ (as : List α) (s t : σ), exec step s as = some t → I s →
      (Agree step' step s as ↔ Meets step C s as)
  | [], s, _, _, _ => by
    refine iff_of_true (fun bs hbs => ?_) trivial
    rw [List.prefix_nil.mp hbs, exec_nil, exec_nil]
  | a :: as, s, t, hrun, hI => by
    obtain ⟨m, hm, hmt⟩ := exec_cons.mp hrun
    rw [agree_cons]
    refine and_congr (hiff s a m hI hm) (forall_congr' fun x => imp_congr_right fun hx => ?_)
    obtain rfl : m = x := Option.some.inj (hm.symm.trans hx)
    exact agree_iff hstep hiff as m t hmt (hstep s a m hI hm)

/-- Where they agree, the labels are taken in the same states. -/
theorem Agree.meets {step' : σ → α → Option σ} {C : σ → α → Prop} : ∀ (as : List α) (s : σ),
    Agree step' step s as → (Meets step' C s as ↔ Meets step C s as)
  | [], _, _ => Iff.rfl
  | a :: as, s, h => by
    obtain ⟨hsame, hrest⟩ := agree_cons.mp h
    refine and_congr_right' (forall_congr' fun t => ?_)
    rw [hsame]
    exact imp_congr_right fun ht => Agree.meets as t (hrest t ht)

/-- The system with inputs that it cannot refuse. -/
def withInput {ι : Type*} (step : σ → α → Option σ) (input : σ → ι → σ) : σ → α ⊕ ι → Option σ
  | s, .inl a => step s a
  | s, .inr i => some (input s i)

/-- A condition on the labels of the system, where inputs are free. -/
def onStep {ι : Type*} (C : σ → α → Prop) : σ → α ⊕ ι → Prop
  | s, .inl a => C s a
  | _, .inr _ => True

instance onStep.decidable {ι : Type*} {C : σ → α → Prop} [∀ s a, Decidable (C s a)] (s : σ) :
    ∀ a : α ⊕ ι, Decidable (onStep C s a)
  | .inl a => inferInstanceAs (Decidable (C s a))
  | .inr _ => .isTrue trivial

/-- What the steps and the inputs preserve. -/
theorem withInput_invariant {ι : Type*} {input : σ → ι → σ} {I : σ → Prop}
    (hstep : ∀ s a t, I s → step s a = some t → I t) (hinput : ∀ s i, I s → I (input s i))
    (as : List (α ⊕ ι)) (s t : σ) (hrun : exec (withInput step input) s as = some t) (hI : I s) :
    I t := by
  refine exec_invariant (C := fun _ _ => True) (fun s a t hs _ ht => ?_) as s t hrun (meets_true as s) hI
  cases a with
  | inl a => exact hstep s a t hs ht
  | inr i =>
    obtain rfl := Option.some.inj ht
    exact hinput s i hs

/-- All runs from `s` come to an end, and every run that cannot go on has ended properly, with the
    observation `x`. -/
structure Ends {β : Type*} (step : σ → α → Option σ) (done : σ → Prop) (obs : σ → β) (s : σ) (x : β) :
    Prop where
  bounded : ∃ n, ∀ as t, exec step s as = some t → as.length ≤ n
  progress : ∀ as t, exec step s as = some t → ¬ done t → ∃ a u, step t a = some u
  outcome : ∀ as t, exec step s as = some t → done t → obs t = x

/-- A measure that every step decreases bounds the length of the runs. -/
theorem length_le_of_decreasing {I : σ → Prop} {μ : σ → Nat}
    (hI : ∀ s a t, I s → step s a = some t → I t)
    (hstep : ∀ s a t, I s → step s a = some t → μ t < μ s) :
    ∀ (as : List α) (s t : σ), I s → exec step s as = some t → as.length + μ t ≤ μ s
  | [], s, t, _, hrun => by
    obtain rfl : s = t := by simpa using hrun
    simp
  | a :: as, s, t, hs, hrun => by
    obtain ⟨m, hm, hmt⟩ := exec_cons.mp hrun
    have hlt := hstep s a m hs hm
    have hle := length_le_of_decreasing hI hstep as m t (hI s a m hs hm) hmt
    rw [List.length_cons]
    omega

/-- Where a run comes to an end, there is one that does. -/
theorem Ends.exists_done {β : Type*} {done : σ → Prop} {obs : σ → β} {s : σ} {x : β}
    (h : Ends step done obs s x) : ∃ as t, exec step s as = some t ∧ done t := by
  by_contra hno
  have hlong : ∀ n, ∃ as t, exec step s as = some t ∧ as.length = n := by
    intro n
    induction n with
    | zero => exact ⟨[], s, rfl, rfl⟩
    | succ n ih =>
      obtain ⟨as, t, hrun, rfl⟩ := ih
      obtain ⟨a, u, hu⟩ := h.progress as t hrun fun hd => hno ⟨as, t, hrun, hd⟩
      exact ⟨as ++ [a], u, exec_trans hrun (exec_cons.mpr ⟨u, hu, rfl⟩), by simp⟩
  obtain ⟨n, hn⟩ := h.bounded
  obtain ⟨as, t, hrun, hlen⟩ := hlong (n + 1)
  have hle := hn as t hrun
  omega

/-- The observation is determined. -/
theorem Ends.unique {β : Type*} {done : σ → Prop} {obs : σ → β} {s : σ} {x y : β}
    (h : Ends step done obs s x) (h' : Ends step done obs s y) : x = y := by
  obtain ⟨as, t, hrun, hd⟩ := h.exists_done
  exact (h.outcome as t hrun hd).symm.trans (h'.outcome as t hrun hd)

/-- A state that is done and allows no step. -/
theorem Ends.of_done {β : Type*} {done : σ → Prop} {obs : σ → β} {s : σ} (hd : done s)
    (hstuck : ∀ a, step s a = none) : Ends step done obs s (obs s) := by
  have hrun : ∀ as t, exec step s as = some t → as = [] ∧ s = t := by
    rintro (_ | ⟨a, as⟩) t ht
    · exact ⟨rfl, by simpa using ht⟩
    · simp [exec, hstuck a] at ht
  refine ⟨⟨0, fun as t ht => ?_⟩, fun as t ht hnot => ?_, fun as t ht _ => ?_⟩
  · simp [(hrun as t ht).1]
  · exact absurd ((hrun as t ht).2 ▸ hd) hnot
  · rw [(hrun as t ht).2]

/-- A state with two next states that end alike ends as they do. -/
theorem Ends.of_two {β : Type*} {done : σ → Prop} {obs : σ → β} {s t t' : σ} {a : α} {x : β}
    (hs : ¬ done s) (ha : step s a = some t) (htwo : ∀ b u, step s b = some u → u = t ∨ u = t')
    (h : Ends step done obs t x) (h' : Ends step done obs t' x) : Ends step done obs s x := by
  have hrun : ∀ b bs u, exec step s (b :: bs) = some u →
      exec step t bs = some u ∨ exec step t' bs = some u := by
    intro b bs u hu
    obtain ⟨m, hm, hmu⟩ := exec_cons.mp hu
    rcases htwo b m hm with rfl | rfl
    · exact .inl hmu
    · exact .inr hmu
  obtain ⟨n, hn⟩ := h.bounded
  obtain ⟨n', hn'⟩ := h'.bounded
  refine ⟨⟨max n n' + 1, ?_⟩, ?_, ?_⟩
  · rintro (_ | ⟨b, bs⟩) u hu
    · simp
    · have hle : bs.length ≤ n ∨ bs.length ≤ n' := (hrun b bs u hu).imp (hn bs u) (hn' bs u)
      rw [List.length_cons]
      omega
  · rintro (_ | ⟨b, bs⟩) u hu hnot
    · obtain rfl : s = u := by simpa using hu
      exact ⟨a, t, ha⟩
    · exact (hrun b bs u hu).elim (fun hu => h.progress bs u hu hnot) fun hu => h'.progress bs u hu hnot
  · rintro (_ | ⟨b, bs⟩) u hu hdone
    · obtain rfl : s = u := by simpa using hu
      exact absurd hdone hs
    · exact (hrun b bs u hu).elim (fun hu => h.outcome bs u hu hdone) fun hu => h'.outcome bs u hu hdone

/-- A state with one next state ends as that one does. -/
theorem Ends.of_only {β : Type*} {done : σ → Prop} {obs : σ → β} {s t : σ} {a : α} {x : β}
    (hs : ¬ done s) (ha : step s a = some t) (honly : ∀ b u, step s b = some u → u = t)
    (h : Ends step done obs t x) : Ends step done obs s x :=
  h.of_two hs ha (fun b u hu => .inl (honly b u hu)) h

/-- What no step of a fold changes is the same after the fold. -/
theorem foldl_frame {β : Type*} {f : σ → α → σ} {g : σ → β} (h : ∀ s a, g (f s a) = g s)
    (l : List α) (s : σ) : g (l.foldl f s) = g s := by
  induction l generalizing s with
  | nil => rfl
  | cons a l ih => exact (ih _).trans (h s a)

/-- What every step of a fold preserves holds after the fold. -/
theorem foldl_invariant {f : σ → α → σ} {I : σ → Prop} (h : ∀ s a, I s → I (f s a))
    (l : List α) (s : σ) (hI : I s) : I (l.foldl f s) := by
  induction l generalizing s with
  | nil => exact hI
  | cons a l ih => exact ih _ (h s a hI)

/-- An infinite run. -/
def Forever (step : σ → α → Option σ) (run : Nat → σ) (label : Nat → α) : Prop :=
  ∀ n, step (run n) (label n) = some (run (n + 1))

/-- Where every state of the `n`-th kind takes the `n`-th label to one of the next kind, a run with these
    labels goes on forever. -/
theorem exists_forever {I : Nat → σ → Prop} {label : Nat → α}
    (hstep : ∀ n s, I n s → ∃ t, step s (label n) = some t ∧ I (n + 1) t) {s : σ} (hI : I 0 s) :
    ∃ run : Nat → σ, run 0 = s ∧ Forever step run label ∧ ∀ n, I n (run n) := by
  have hnext : ∀ n (x : {x // I n x}), ∃ t : {t // I (n + 1) t}, step x.1 (label n) = some t.1 := by
    rintro n ⟨x, hx⟩
    obtain ⟨t, ht, hI⟩ := hstep n x hx
    exact ⟨⟨t, hI⟩, ht⟩
  choose next hnext using hnext
  let run : ∀ n, {x // I n x} := Nat.rec ⟨s, hI⟩ next
  exact ⟨fun n => (run n).1, rfl, fun n => hnext n (run n), fun n => (run n).2⟩

/-- What costs some of a measure happens only finitely often after the measure has grown for the last
    time. By induction on what is left of the measure. -/
theorem finite_of_decreasing {μ : Nat → Nat} {costs : Nat → Prop} (N : Nat)
    (hle : ∀ n ≥ N, μ (n + 1) ≤ μ n) (hlt : ∀ n ≥ N, costs n → μ (n + 1) < μ n) :
    ∃ K, ∀ n ≥ K, ¬ costs n := by
  have hmono : ∀ M ≥ N, ∀ k, μ (M + k) ≤ μ M := by
    intro M hM k
    induction k with
    | zero => exact Nat.le_refl _
    | succ k ih => exact Nat.le_trans (hle (M + k) (by omega)) ih
  have hfrom : ∀ m M, N ≤ M → μ M = m → ∃ K, ∀ n ≥ K, ¬ costs n := by
    intro m
    induction m using Nat.strongRecOn with
    | _ m ih =>
      intro M hM hm
      by_cases hcosts : ∃ n ≥ M, costs n
      · obtain ⟨n, hn, hc⟩ := hcosts
        obtain ⟨k, rfl⟩ := Nat.exists_eq_add_of_le hn
        have hless := Nat.lt_of_lt_of_le (hlt (M + k) (by omega) hc) (hmono M hM k)
        exact ih _ (hm ▸ hless) (M + k + 1) (by omega) rfl
      · exact ⟨M, fun n hn hc => hcosts ⟨n, hn, hc⟩⟩
  exact hfrom _ N (Nat.le_refl N) rfl

end Runs
