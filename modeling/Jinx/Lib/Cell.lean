import Mathlib.Data.List.Basic

/-! Computations that throw, over a state of which one cell is looked at apart.

    `Inside` computes on the cell, `Outside` on everything else, and `Splits` says that a computation
    comes to one of each: it returns exactly when both do, in either order. Splitting is kept by
    composition, so a run whose every step is inside or outside is split by sorting its steps. -/

universe u

variable {M V ε : Type*} {α β : Type u}

namespace Except

@[simp] theorem bind_eq_ok {x : Except ε α} {f : α → Except ε β} {b : β} :
    (x >>= f) = .ok b ↔ ∃ a, x = .ok a ∧ f a = .ok b := by
  cases x <;> simp [bind, Except.bind]

@[simp] theorem pure_eq_ok {a b : α} : (pure a : Except ε α) = .ok b ↔ a = b := by
  simp [pure, Except.pure]

@[simp] theorem map_eq_ok {α β : Type*} {x : Except ε α} {f : α → β} {b : β} :
    x.map f = .ok b ↔ ∃ a, x = .ok a ∧ f a = b := by
  cases x <;> simp [Except.map]

/-- What does not throw returns. -/
theorem exists_error_iff {x : Except ε α} : (∃ e, x = .error e) ↔ ¬ ∃ a, x = .ok a := by
  cases x <;> simp

end Except

/-- A cell of a state: it reads what was written last, and nothing else comes with it. -/
structure Cell (M V : Type*) where
  get : M → V
  set : M → V → M
  get_set : ∀ m v, get (set m v) = v
  set_get : ∀ m, set m (get m) = m
  set_set : ∀ m v w, set (set m v) w = set m w

namespace Cell

/-- The computation reads and writes the cell only: there it is `g`. -/
def Inside (κ : Cell M V) (f : M → Except ε M) (g : V → Except ε V) : Prop :=
  ∀ m, f m = (g (κ.get m)).map (κ.set m)

/-- The computation does not read the cell, and leaves it. -/
def Outside (κ : Cell M V) (f : M → Except ε M) : Prop :=
  ∀ m v, f (κ.set m v) = (f m).map (κ.set · v)

/-- The computation is `rest` and, in the cell, `own`. -/
structure Splits (κ : Cell M V) (f rest : M → Except ε M) (own : V → Except ε V) : Prop where
  outside : κ.Outside rest
  ok_iff : ∀ m m', f m = .ok m' ↔
    ∃ d v, rest m = .ok d ∧ own (κ.get m) = .ok v ∧ m' = κ.set d v

/-- Writing one cell is not seen in the other. -/
structure Apart (κ κ' : Cell M V) : Prop where
  get : ∀ m v, κ'.get (κ.set m v) = κ'.get m
  set : ∀ m v w, κ'.set (κ.set m v) w = κ.set (κ'.set m w) v

variable {κ κ' : Cell M V} {f f' rest rest' : M → Except ε M} {own own' g : V → Except ε V}

theorem outside_pure : κ.Outside (pure : M → Except ε M) := fun _ _ => rfl

/-- What leaves the cell. -/
theorem Outside.get {m m' : M} (h : κ.Outside f) (hf : f m = .ok m') : κ.get m' = κ.get m := by
  have hset := h m (κ.get m)
  rw [κ.set_get, hf] at hset
  have heq : m' = κ.set m' (κ.get m) := Except.ok.inj hset
  rw [heq, κ.get_set]

theorem Outside.bind (h : κ.Outside f) (h' : κ.Outside f') : κ.Outside fun m => f m >>= f' := by
  intro m v
  simp only [h m v]
  cases hf : f m with
  | error e => rfl
  | ok d => exact h' d v

/-- What computes on one cell is outside every other. -/
theorem Inside.outside (h : κ'.Inside f g) (hapart : κ.Apart κ') : κ.Outside f := by
  intro m v
  rw [h (κ.set m v), h m, hapart.get]
  cases g (κ'.get m) with
  | error e => rfl
  | ok w => simp only [Except.map, hapart.set]

/-- A computation whose argument comes from elsewhere. -/
theorem Inside.after {β : Type*} {x : Except ε β} {f : β → M → Except ε M} {g : β → V → Except ε V}
    (h : ∀ b, κ.Inside (f b) (g b)) : κ.Inside (fun m => x.bind (f · m)) fun v => x.bind (g · v) := by
  intro m
  cases x with
  | error e => rfl
  | ok b => exact h b m

theorem Inside.splits (h : κ.Inside f g) : κ.Splits f pure g where
  outside := outside_pure
  ok_iff := by
    intro m m'
    rw [h m, Except.map_eq_ok]
    constructor
    · rintro ⟨v, hv, rfl⟩
      exact ⟨m, v, rfl, hv, rfl⟩
    · rintro ⟨d, v, hd, hv, rfl⟩
      obtain rfl : m = d := Except.ok.inj hd
      exact ⟨v, hv, rfl⟩

theorem Outside.splits (h : κ.Outside f) : κ.Splits f f pure where
  outside := h
  ok_iff := by
    intro m m'
    constructor
    · intro hf
      exact ⟨m', κ.get m, hf, rfl, by rw [← h.get hf, κ.set_get]⟩
    · rintro ⟨d, v, hd, hv, rfl⟩
      obtain rfl : κ.get m = v := Except.ok.inj hv
      rw [hd, ← h.get hd, κ.set_get]

/-- What the cell holds in the end is the computation on it. -/
theorem Splits.own_get {m m' : M} (h : κ.Splits f rest own) (hf : f m = .ok m') :
    own (κ.get m) = .ok (κ.get m') := by
  obtain ⟨d, v, -, hv, rfl⟩ := (h.ok_iff m m').mp hf
  rw [hv, κ.get_set]

theorem Splits.exists_ok {m d : M} {v : V} (h : κ.Splits f rest own) (hrest : rest m = .ok d)
    (hown : own (κ.get m) = .ok v) : ∃ m', f m = .ok m' ∧ κ.get m' = v :=
  ⟨κ.set d v, (h.ok_iff m _).mpr ⟨d, v, hrest, hown, rfl⟩, κ.get_set d v⟩

/-- One after the other. -/
theorem Splits.bind (h : κ.Splits f rest own) (h' : κ.Splits f' rest' own') :
    κ.Splits (fun m => f m >>= f') (fun m => rest m >>= rest') (fun v => own v >>= own') where
  outside := h.outside.bind h'.outside
  ok_iff := by
    intro m m''
    simp only [Except.bind_eq_ok]
    constructor
    · rintro ⟨m', hf, hf'⟩
      obtain ⟨d, v, hd, hv, rfl⟩ := (h.ok_iff m m').mp hf
      obtain ⟨d', v', hd', hv', rfl⟩ := (h'.ok_iff _ m'').mp hf'
      rw [h'.outside d v, Except.map_eq_ok] at hd'
      obtain ⟨d'', hd'', rfl⟩ := hd'
      rw [κ.get_set] at hv'
      exact ⟨d'', v', ⟨d, hd, hd''⟩, ⟨v, hv, hv'⟩, κ.set_set d'' v v'⟩
    · rintro ⟨d', v', ⟨d, hd, hd'⟩, ⟨v, hv, hv'⟩, rfl⟩
      refine ⟨κ.set d v, (h.ok_iff m _).mpr ⟨d, v, hd, hv, rfl⟩, ?_⟩
      refine (h'.ok_iff _ _).mpr ⟨κ.set d' v, v', ?_, ?_, (κ.set_set d' v v').symm⟩
      · rw [h'.outside d v, hd']; rfl
      · rw [κ.get_set]; exact hv'

/-- A run: the steps that are sorted out (`tag`) are the run on the cell, and the others are the rest. -/
theorem splits_foldlM {σ τ : Type*} (tag : σ → Option τ) {step step' : M → σ → Except ε M}
    {ownStep : V → τ → Except ε V} {l : List σ}
    (hown : ∀ s ∈ l, ∀ t, tag s = some t → κ.Inside (fun m => step m s) fun v => ownStep v t)
    (hrest : ∀ s ∈ l, tag s = none → (∀ m, step m s = step' m s) ∧ κ.Outside fun m => step' m s) :
    κ.Splits (l.foldlM step) ((l.filter fun s => (tag s).isNone).foldlM step')
      ((l.filterMap tag).foldlM ownStep) := by
  induction l with
  | nil => exact outside_pure.splits
  | cons s l ih =>
    have hl := ih (fun s hs => hown s (List.mem_cons_of_mem _ hs))
      fun s hs => hrest s (List.mem_cons_of_mem _ hs)
    simp only [List.foldlM_cons]
    cases ht : tag s with
    | some t =>
      have hsplit := (hown s List.mem_cons_self t ht).splits.bind hl
      simpa only [pure_bind, List.filter_cons, List.filterMap_cons, ht, Option.isNone_some,
        Bool.false_eq_true, if_false, List.foldlM_cons] using hsplit
    | none =>
      obtain ⟨heq, hout⟩ := hrest s List.mem_cons_self ht
      have hsplit := hout.splits.bind hl
      simpa only [heq, pure_bind, List.filter_cons, List.filterMap_cons, ht, Option.isNone_none,
        if_true, List.foldlM_cons] using hsplit

end Cell
