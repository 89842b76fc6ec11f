import Mathlib.Data.List.Basic
import Mathlib.Logic.Function.Basic

/-! A ring of `N` cells that holds a list.

    The list begins in cell `b` and goes on behind the last cell in the first one; the cells that it
    does not reach are empty. Adding an element at its end and taking one from its front each change
    one cell. -/

namespace Ring

/-- The position behind the last cell is the first cell. -/
def wrap (N p : Nat) : Nat := if p = N then 0 else p

/-- The cell of the `i`-th element of a list that begins in cell `b`. -/
def index (N b i : Nat) : Nat := if b + i < N then b + i else b + i - N

variable {α : Type*} {cell : Nat → Option α} {N b i j : Nat} {l : List α} {x : α}

theorem wrap_lt (hN : 0 < N) (h : b ≤ N) : wrap N b < N := by
  unfold wrap
  split <;> omega

@[simp] theorem index_zero (hb : b < N) : index N b 0 = b := if_pos hb

theorem index_lt (hb : b < N) (hi : i ≤ N) : index N b i < N := by
  unfold index
  split <;> omega

/-- Two elements of a list that fits are in different cells. -/
theorem index_inj (hi : i < N) (hj : j < N) (h : index N b i = index N b j) : i = j := by
  unfold index at h
  split at h <;> split at h <;> omega

theorem index_succ (hb : b < N) (hi : i < N) : index N b (i + 1) = wrap N (index N b i + 1) := by
  unfold index wrap
  split <;> split <;> split <;> omega

/-- The list begins one cell later. -/
theorem index_wrap (hi : i < N) : index N (wrap N (b + 1)) i = index N b (i + 1) := by
  unfold index wrap
  split <;> split <;> split <;> omega

/-- The first `n` elements. -/
def contents (cell : Nat → Option α) (N b n : Nat) : List α :=
  (List.range n).filterMap fun i => cell (index N b i)

/-- Every cell is the cell of some element, or of a place behind the list. -/
theorem index_surj (hb : b < N) {p : Nat} (hp : p < N) : ∃ i < N, index N b i = p := by
  by_cases h : b ≤ p
  · refine ⟨p - b, by omega, ?_⟩
    unfold index
    split <;> omega
  · refine ⟨p + N - b, by omega, ?_⟩
    unfold index
    split <;> omega

/-- The cells from `b` on, around the end, hold the list, and there is nothing else. -/
structure Holds (cell : Nat → Option α) (N b : Nat) (l : List α) : Prop where
  begin_lt : b < N
  length_le : l.length ≤ N
  cells : ∀ i < N, cell (index N b i) = l[i]?
  outside : ∀ p ≥ N, cell p = none

namespace Holds

theorem nil (hN : 0 < N) : Holds (fun _ => none : Nat → Option α) N 0 [] :=
  ⟨hN, Nat.zero_le N, fun _ _ => rfl, fun _ _ => rfl⟩

theorem cell_begin (h : Holds cell N b l) : cell b = l.head? := by
  have hcell := h.cells 0 (by have := h.begin_lt; omega)
  rwa [index_zero h.begin_lt, ← List.head?_eq_getElem?] at hcell

/-- The cell behind the list is empty, as long as there is one. -/
theorem cell_end (h : Holds cell N b l) (hroom : l.length < N) : cell (index N b l.length) = none := by
  rw [h.cells l.length hroom]
  exact List.getElem?_eq_none (Nat.le_refl _)

/-- What is in a cell is an element of the list. -/
theorem mem_of_cell (h : Holds cell N b l) {p : Nat} (hp : cell p = some x) : x ∈ l := by
  have hlt : p < N := by
    by_contra hge
    rw [h.outside p (Nat.not_lt.mp hge)] at hp
    cases hp
  obtain ⟨i, hi, rfl⟩ := index_surj h.begin_lt hlt
  rw [h.cells i hi] at hp
  exact List.mem_of_getElem? hp

theorem filterMap_getElem_range (l : List α) : (List.range l.length).filterMap (fun i => l[i]?) = l := by
  induction l with
  | nil => rfl
  | cons x l ih =>
    rw [List.length_cons, List.range_succ_eq_map, List.filterMap_cons, List.filterMap_map]
    exact congrArg (x :: ·) ih

theorem contents_eq (h : Holds cell N b l) : contents cell N b l.length = l := by
  refine Eq.trans (List.filterMap_congr fun i hi => ?_) (filterMap_getElem_range l)
  exact h.cells i (Nat.lt_of_lt_of_le (List.mem_range.mp hi) h.length_le)

theorem push (h : Holds cell N b l) (hroom : l.length < N) (x : α) :
    Holds (Function.update cell (index N b l.length) (some x)) N b (l ++ [x]) where
  begin_lt := h.begin_lt
  length_le := by
    rw [List.length_append]
    exact hroom
  cells i hi := by
    by_cases heq : i = l.length
    · subst heq
      simp
    · have hne : index N b i ≠ index N b l.length := fun hind => heq (index_inj hi hroom hind)
      rw [Function.update_of_ne hne, h.cells i hi, List.getElem?_append]
      split
      · rfl
      · have hlt : l.length < i := by omega
        rw [List.getElem?_eq_none (by omega), List.getElem?_eq_none (by simp; omega)]
  outside p hp := by
    have hlt := index_lt h.begin_lt (Nat.le_of_lt hroom)
    rw [Function.update_of_ne (by omega), h.outside p hp]

theorem pop (h : Holds cell N b (x :: l)) : Holds (Function.update cell b none) N (wrap N (b + 1)) l where
  begin_lt := wrap_lt (Nat.lt_of_le_of_lt (Nat.zero_le b) h.begin_lt) h.begin_lt
  length_le := by
    have := h.length_le
    rw [List.length_cons] at this
    omega
  cells i hi := by
    have hlen := h.length_le
    rw [List.length_cons] at hlen
    rw [index_wrap hi]
    by_cases hlast : i + 1 = N
    -- the cell that the list has left is the last one now
    · have hind : index N b (i + 1) = b := by
        unfold index
        split <;> omega
      rw [hind, Function.update_self, List.getElem?_eq_none (by omega)]
    · have hsucc : i + 1 < N := by omega
      have hne : index N b (i + 1) ≠ b := by
        unfold index
        split <;> omega
      rw [Function.update_of_ne hne, h.cells (i + 1) hsucc, List.getElem?_cons_succ]
  outside p hp := by
    have hlt := h.begin_lt
    rw [Function.update_of_ne (by omega), h.outside p hp]

end Holds

end Ring
