import Mathlib.Data.Set.Card

/-! How many objects of a table have a property, when one entry of the table is replaced; how many
    entries of a table point to one thing. -/

namespace Count

variable {ι β : Type*} [DecidableEq ι] (p : β → Prop) {f : ι → β} {i : ι} {x : β}

theorem setOf_update_of_pos (hx : p x) :
    {j | p (Function.update f i x j)} = insert i ({j | p (f j)} \ {i}) := by
  ext j
  by_cases hj : j = i
  · simp [hj, hx]
  · simp [hj]

theorem setOf_update_of_neg (hx : ¬ p x) :
    {j | p (Function.update f i x j)} = {j | p (f j)} \ {i} := by
  ext j
  by_cases hj : j = i
  · simp [hj, hx]
  · simp [hj]

theorem finite_update (hfin : {j | p (f j)}.Finite) (i : ι) (x : β) :
    {j | p (Function.update f i x j)}.Finite := by
  by_cases hx : p x
  · rw [setOf_update_of_pos p hx]
    exact (hfin.sdiff).insert i
  · rw [setOf_update_of_neg p hx]
    exact hfin.sdiff

/-- An entry without the property is replaced by one that has it. -/
theorem ncard_update_gain (hfin : {j | p (f j)}.Finite) (hf : ¬ p (f i)) (hx : p x) :
    {j | p (Function.update f i x j)}.ncard = {j | p (f j)}.ncard + 1 := by
  have hi : i ∉ {j | p (f j)} := hf
  rw [setOf_update_of_pos p hx, Set.sdiff_singleton_eq_self hi, Set.ncard_insert_of_notMem hi hfin]

/-- An entry with the property is replaced by one that does not have it. -/
theorem ncard_update_lose (hfin : {j | p (f j)}.Finite) (hf : p (f i)) (hx : ¬ p x) :
    {j | p (Function.update f i x j)}.ncard + 1 = {j | p (f j)}.ncard := by
  have hi : i ∈ {j | p (f j)} := hf
  rw [setOf_update_of_neg p hx, Set.ncard_sdiff_singleton_add_one hi hfin]

/-- The new entry has the property if and only if the old one has it. -/
theorem ncard_update_same (hx : p x ↔ p (f i)) :
    {j | p (Function.update f i x j)}.ncard = {j | p (f j)}.ncard := by
  congr 1
  ext j
  by_cases hj : j = i
  · simp [hj, hx]
  · simp [hj]

/-! ### Pointers -/

variable {α : Type*} {g : ι → Option α} {a : α}

/-- How many entries of the table point to `a`. -/
noncomputable def number (g : ι → Option α) (a : α) : Nat := {j | g j = some a}.ncard

/-- A table with finitely many pointers in it. -/
def Finitely (g : ι → Option α) : Prop := {j | g j ≠ none}.Finite

theorem Finitely.update (h : Finitely g) (i : ι) (o : Option α) : Finitely (Function.update g i o) :=
  finite_update (fun o : Option α => o ≠ none) h i o

omit [DecidableEq ι] in
theorem Finitely.pointers (h : Finitely g) (a : α) : {j | g j = some a}.Finite := by
  refine h.subset fun j hj => ?_
  have hsome : g j = some a := hj
  simp [hsome]

omit [DecidableEq ι] in
theorem number_pos (h : Finitely g) : 0 < number g a ↔ ∃ i, g i = some a :=
  Set.ncard_pos (h.pointers a)

omit [DecidableEq ι] in
theorem number_none : number (fun _ : ι => (none : Option α)) a = 0 := by
  simp [number]

/-- One pointer is overwritten. -/
theorem number_update [DecidableEq α] (h : Finitely g) (i : ι) (o : Option α) (a : α) :
    number (Function.update g i o) a + (if g i = some a then 1 else 0) =
      number g a + (if o = some a then 1 else 0) := by
  have hfin := h.pointers a
  by_cases hold : g i = some a <;> by_cases hnew : o = some a
  · rw [if_pos hold, if_pos hnew]
    exact congrArg (· + 1) (ncard_update_same (fun o => o = some a) (iff_of_true hnew hold))
  · rw [if_pos hold, if_neg hnew]
    exact ncard_update_lose (fun o => o = some a) hfin hold hnew
  · rw [if_neg hold, if_pos hnew]
    exact ncard_update_gain (fun o => o = some a) hfin hold hnew
  · rw [if_neg hold, if_neg hnew]
    exact ncard_update_same (fun o => o = some a) (iff_of_false hnew hold)

end Count
