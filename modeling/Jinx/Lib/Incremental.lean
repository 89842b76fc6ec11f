import Mathlib.Data.List.Basic

/-! Parsers that are run again on a growing window.

    In state `q` the parser looks at the items it has and decides: it needs `more`, it emits a result
    and goes on with the rest, or it stops. When it needs more it may have rewritten the window. It is
    `Stable` if items that arrive later never change a decision, and if a rewritten window is as good
    as the original one. `Outputs` is what such a parser gives on a window that does not grow; a
    stable parser gives the same on every way of growing to it. -/

namespace Incremental

variable {σ ρ α : Type*}

/-- What the parser decides. -/
inductive Verdict (σ ρ α : Type*) where
  /-- more items are needed, after this window -/
  | more (w : List α)
  /-- a result, the next state and the items that are left -/
  | emit (r : ρ) (q : σ) (rest : List α)
  /-- the last result and the items that are left -/
  | stop (r : ρ) (rest : List α)
  deriving DecidableEq, Repr

/-- Later items do not change a decision. -/
structure Stable (parse : σ → List α → Verdict σ ρ α) : Prop where
  more : ∀ {q w w'}, parse q w = .more w' → ∀ e, parse q (w' ++ e) = parse q (w ++ e)
  emit : ∀ {q w r q' rest}, parse q w = .emit r q' rest →
    ∀ e, parse q (w ++ e) = .emit r q' (rest ++ e)
  stop : ∀ {q w r rest}, parse q w = .stop r rest → ∀ e, parse q (w ++ e) = .stop r (rest ++ e)

/-- On the window `w` the parser emits `rs`; then it stops, or it needs more than there is. -/
inductive Outputs (parse : σ → List α → Verdict σ ρ α) :
    σ → List α → List ρ → Option (ρ × List α) → Prop where
  | more {q w w'} : parse q w = .more w' → Outputs parse q w [] none
  | stop {q w r rest} : parse q w = .stop r rest → Outputs parse q w [] (some (r, rest))
  | emit {q w r q' rest rs e} : parse q w = .emit r q' rest → Outputs parse q' rest rs e →
    Outputs parse q w (r :: rs) e

variable {parse : σ → List α → Verdict σ ρ α} {q q' : σ} {w w' d : List α} {r : ρ}
  {rs rs' : List ρ} {e e' : Option (ρ × List α)} {rest : List α}

theorem Outputs.unique (h : Outputs parse q w rs e) (h' : Outputs parse q w rs' e') :
    rs = rs' ∧ e = e' := by
  induction h generalizing rs' with
  | more hp => cases h' <;> simp_all
  | stop hp => cases h' <;> simp_all
  | emit hp _ ih =>
    cases h' with
    | more hp' | stop hp' => simp [hp] at hp'
    | emit hp' h' =>
      rw [hp] at hp'
      obtain ⟨rfl, rfl, rfl⟩ := by simpa using hp'
      obtain ⟨rfl, rfl⟩ := ih h'
      exact ⟨rfl, rfl⟩

/-- A parser that takes something with every result has an output. -/
theorem Outputs.total (hlt : ∀ {q w r q' rest}, parse q w = .emit r q' rest → rest.length < w.length)
    (q : σ) (w : List α) : ∃ rs e, Outputs parse q w rs e := by
  induction hn : w.length using Nat.strongRecOn generalizing q w with
  | _ n ih =>
    cases hp : parse q w with
    | more w' => exact ⟨_, _, .more hp⟩
    | stop r rest => exact ⟨_, _, .stop hp⟩
    | emit r q' rest =>
      obtain ⟨rs, e, h⟩ := ih rest.length (hn ▸ hlt hp) q' rest rfl
      exact ⟨_, _, .emit hp h⟩

theorem Outputs.congr (h : parse q w = parse q w') :
    Outputs parse q w rs e ↔ Outputs parse q w' rs e := by
  constructor <;> intro ho <;> cases ho with
  | more hp => exact .more (h ▸ hp)
  | stop hp => exact .stop (h ▸ hp)
  | emit hp ho => exact .emit (h ▸ hp) ho

namespace Stable

/-- After `more`, the rewritten window is as good. -/
theorem outputs_more (hs : Stable parse) (hp : parse q w = .more w') (d : List α) :
    Outputs parse q (w' ++ d) rs e ↔ Outputs parse q (w ++ d) rs e :=
  Outputs.congr (hs.more hp d)

/-- After a result, what is left of the growing window gives the other results. -/
theorem outputs_emit (hs : Stable parse) (hp : parse q w = .emit r q' rest) (d : List α)
    (h : Outputs parse q (w ++ d) rs e) :
    ∃ rs', rs = r :: rs' ∧ Outputs parse q' (rest ++ d) rs' e := by
  have hp' := hs.emit hp d
  cases h with
  | more hm => simp [hp'] at hm
  | stop hm => simp [hp'] at hm
  | emit hm h =>
    rw [hp'] at hm
    obtain ⟨rfl, rfl, rfl⟩ := by simpa using hm
    exact ⟨_, rfl, h⟩

/-- When the parser stops, it stops so on every longer window. -/
theorem outputs_stop (hs : Stable parse) (hp : parse q w = .stop r rest) (d : List α)
    (h : Outputs parse q (w ++ d) rs e) : rs = [] ∧ e = some (r, rest ++ d) :=
  h.unique (.stop (hs.stop hp d))

end Stable

end Incremental
