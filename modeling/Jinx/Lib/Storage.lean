import Mathlib.Data.List.OfFn
import Mathlib.Tactic.TypeStar

/-! A storage of fixed size that is read and written through fields at fixed offsets.

    A field is an offset and a length. What was written to a field is read from it, a write leaves the
    fields that it does not overlap, and a write changes nothing exactly when it writes what is there. -/

namespace Storage

variable {α : Type*} {n : Nat}

/-- Overwrite the places from `off` on. -/
def write (m : Fin n → α) (off : Nat) (bs : List α) : Fin n → α := fun i =>
  if h : off ≤ i.val ∧ i.val - off < bs.length then bs.get ⟨i.val - off, h.2⟩ else m i

/-- The `len` places from `off` on. -/
def read (m : Fin n → α) (off len : Nat) (h : off + len ≤ n) : List α :=
  List.ofFn fun i : Fin len => m ⟨off + i, by omega⟩

variable {m : Fin n → α} {off off' len : Nat} {bs : List α}

theorem read_write (h : off + len ≤ n) (hlen : bs.length = len) :
    read (write m off bs) off len h = bs := by
  subst hlen
  apply List.ext_getElem
  · simp [read]
  · intro i hi hi'
    simp [read, write]

/-- Fields that do not overlap. -/
theorem read_write_apart (h : off + len ≤ n) (hapart : off + len ≤ off' ∨ off' + bs.length ≤ off) :
    read (write m off' bs) off len h = read m off len h := by
  apply List.ext_getElem
  · simp [read]
  · intro i hi hi'
    have hlen : i < len := by simpa [read] using hi
    have hout : ¬ (off' ≤ off + i ∧ off + i - off' < bs.length) := by omega
    simp only [read, write, List.getElem_ofFn, dif_neg hout]

/-- The later write wins. -/
theorem write_write {bs' : List α} (hlen : bs.length ≤ bs'.length) :
    write (write m off bs) off bs' = write m off bs' := by
  funext i
  by_cases hi : off ≤ i.val ∧ i.val - off < bs'.length
  · simp only [write, dif_pos hi]
  · have hi' : ¬ (off ≤ i.val ∧ i.val - off < bs.length) := by omega
    simp only [write, dif_neg hi, dif_neg hi']

theorem write_eq_self_iff (h : off + len ≤ n) (hlen : bs.length = len) :
    write m off bs = m ↔ read m off len h = bs := by
  subst hlen
  constructor
  · intro heq
    rw [← heq, read_write h rfl]
  · intro hread
    funext i
    by_cases hi : off ≤ i.val ∧ i.val - off < bs.length
    · have hplace : off + (i.val - off) = i.val := by omega
      have hget := congrArg (fun l => l[i.val - off]?) hread
      simp only [read, List.getElem?_ofFn, hi.2, hplace, dif_pos, List.getElem?_eq_getElem,
        Option.some.injEq] at hget
      simp only [write, dif_pos hi, List.get_eq_getElem, hget]
    · simp only [write, dif_neg hi]

end Storage
