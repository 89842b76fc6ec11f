import Mathlib.Logic.Function.Iterate

/-! `do body while (again)` loops that may not end.

    `doWhile` gives up after a number of rounds; `Ends` says that some number of rounds is enough. A loop
    is followed round by round: `ends_again` where the condition holds after the round, `ends_exit` where
    it does not, and `not_ends` from an invariant under which it always holds. -/

namespace DoWhile

variable {σ : Type*} {body : σ → σ} {again : σ → Bool}

/-- The state behind the loop, if it ends within the number of rounds. -/
def doWhile (body : σ → σ) (again : σ → Bool) : Nat → σ → Option σ
  | 0, _ => none
  | fuel + 1, s => if again (body s) then doWhile body again fuel (body s) else some (body s)

/-- Started in `s` the loop ends in `t`. -/
def Ends (body : σ → σ) (again : σ → Bool) (s t : σ) : Prop :=
  ∃ fuel, doWhile body again fuel s = some t

theorem ends_exit {s t : σ} (h : again (body s) = false) : Ends body again s t ↔ body s = t := by
  constructor
  · rintro ⟨fuel, hfuel⟩
    cases fuel with
    | zero => simp [doWhile] at hfuel
    | succ fuel => simpa [doWhile, h] using hfuel
  · rintro rfl
    exact ⟨1, by simp [doWhile, h]⟩

theorem ends_again {s t : σ} (h : again (body s) = true) :
    Ends body again s t ↔ Ends body again (body s) t := by
  constructor
  · rintro ⟨fuel, hfuel⟩
    cases fuel with
    | zero => simp [doWhile] at hfuel
    | succ fuel => exact ⟨fuel, by simpa [doWhile, h] using hfuel⟩
  · rintro ⟨fuel, hfuel⟩
    exact ⟨fuel + 1, by simpa [doWhile, h] using hfuel⟩

/-- The rounds after which the condition holds. -/
theorem ends_iterate {s t : σ} {k : Nat} (h : ∀ j < k, again (body^[j + 1] s) = true) :
    Ends body again s t ↔ Ends body again (body^[k] s) t := by
  induction k with
  | zero => rfl
  | succ k ih =>
    rw [ih fun j hj => h j (Nat.lt_succ_of_lt hj), Function.iterate_succ_apply',
      ends_again (by rw [← Function.iterate_succ_apply' body]; exact h k (Nat.lt_succ_self k))]

/-- A loop whose condition holds after every round does not end. -/
theorem not_ends {I : σ → Prop} (hI : ∀ s, I s → I (body s) ∧ again (body s) = true) {s t : σ}
    (hs : I s) : ¬ Ends body again s t := by
  rintro ⟨fuel, hfuel⟩
  induction fuel generalizing s with
  | zero => simp [doWhile] at hfuel
  | succ fuel ih =>
    obtain ⟨hbody, hagain⟩ := hI s hs
    simp only [doWhile, hagain, if_true] at hfuel
    exact ih hbody hfuel

/-- What the first round makes true and every round keeps, and what holds where a loop is left. -/
theorem Ends.spec {I : σ → Prop} (hI : ∀ s, I s → I (body s)) {s t : σ} (h : Ends body again s t)
    (hs : I (body s)) : I t ∧ again t = false := by
  obtain ⟨fuel, hfuel⟩ := h
  induction fuel generalizing s with
  | zero => simp [doWhile] at hfuel
  | succ fuel ih =>
    cases hagain : again (body s) with
    | true =>
      simp only [doWhile, hagain, if_true] at hfuel
      exact ih (hI _ hs) hfuel
    | false =>
      simp only [doWhile, hagain, Bool.false_eq_true, if_false] at hfuel
      obtain rfl := Option.some.inj hfuel
      exact ⟨hs, hagain⟩

end DoWhile
