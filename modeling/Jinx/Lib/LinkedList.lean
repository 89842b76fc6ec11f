import Mathlib.Data.List.Nodup
import Mathlib.Logic.Function.Basic

/-! Singly linked lists in a memory.

    A node `a` is pointed to by `ptr a` and its link is `next a`. `Links next ptr e q l` says that
    the nodes met from the pointer `q` on are those of `l`, in order, and that the last link is `e`.
    A list is cut and joined at any place (`links_append`), and reads only the links of its own
    nodes (`Links.congr`). -/

namespace LinkedList

variable {α π : Type*} {next next' : α → π} {ptr : α → π} {e q : π} {a b p : α} {l m X Y : List α}

/-- The nodes from `q` to `e` are those of the list. -/
def Links (next : α → π) (ptr : α → π) (e : π) : π → List α → Prop
  | q, [] => q = e
  | q, a :: l => q = ptr a ∧ Links next ptr e (next a) l

@[simp] theorem links_nil : Links next ptr e q [] ↔ q = e := Iff.rfl

@[simp] theorem links_cons :
    Links next ptr e q (a :: l) ↔ q = ptr a ∧ Links next ptr e (next a) l := Iff.rfl

theorem links_append :
    Links next ptr e q (l ++ m) ↔ ∃ r, Links next ptr r q l ∧ Links next ptr e r m := by
  induction l generalizing q with
  | nil => simp
  | cons a l ih => simp [ih, and_assoc]

theorem Links.congr (h : Links next ptr e q l) (hnext : ∀ a ∈ l, next' a = next a) :
    Links next' ptr e q l := by
  induction l generalizing q with
  | nil => exact h
  | cons a l ih =>
    obtain ⟨rfl, h⟩ := h
    refine ⟨rfl, ?_⟩
    rw [hnext a List.mem_cons_self]
    exact ih h fun b hb => hnext b (List.mem_cons_of_mem _ hb)

/-- From the end there are no nodes. -/
theorem Links.eq_nil (h : Links next ptr e e l) (hptr : ∀ a, ptr a ≠ e) : l = [] := by
  cases l with
  | nil => rfl
  | cons a l => exact absurd h.1.symm (hptr a)

/-- The nodes are determined. -/
theorem Links.unique (h : Links next ptr e q l) (h' : Links next ptr e q m)
    (hinj : Function.Injective ptr) (hptr : ∀ a, ptr a ≠ e) : l = m := by
  induction l generalizing q m with
  | nil =>
    obtain rfl := links_nil.mp h
    exact (h'.eq_nil hptr).symm
  | cons a l ih =>
    obtain ⟨rfl, h⟩ := h
    cases m with
    | nil => exact absurd (links_nil.mp h') (hptr a)
    | cons b m =>
      obtain ⟨hab, h'⟩ := h'
      obtain rfl := hinj hab
      exact congrArg (a :: ·) (ih h h')

/-- A null pointer ends the list: the first pointer is null or one to the first node. -/
theorem Links.head?_eq {next : α → Option α} {q : Option α} (h : Links next some none q l) :
    l.head? = q := by
  cases l with
  | nil => exact (links_nil.mp h).symm
  | cons a l => exact h.1.symm

theorem Links.tail {next : α → Option α} {q : Option α} (h : Links next some none q l) :
    Links next some none (q.bind next) l.tail := by
  cases l with
  | nil => rw [links_nil.mp h]; rfl
  | cons a l => rw [h.1]; exact h.2

/-- The link of a node that has another one after it. -/
theorem Links.next_eq (h : Links next ptr e q (X ++ a :: b :: Y)) : next a = ptr b := by
  obtain ⟨r, -, -, h, -⟩ := links_append.mp h
  exact h

/-- The node after `a` is taken out: `a` takes over its link. -/
theorem Links.unlink (h : Links next ptr e q (X ++ a :: p :: Y)) (hn : (X ++ a :: Y).Nodup)
    (hother : ∀ b ∈ X ++ a :: Y, b ≠ a → next' b = next b) (ha : next' a = next p) :
    Links next' ptr e q (X ++ a :: Y) := by
  obtain ⟨r, hX, hr, -, hY⟩ := links_append.mp h
  have hdisj := List.nodup_append.mp hn
  refine links_append.mpr ⟨r, hX.congr fun b hb => hother b (List.mem_append_left _ hb) ?_, hr, ?_⟩
  · exact hdisj.2.2 b hb a List.mem_cons_self
  · rw [ha]
    refine hY.congr fun b hb => hother b ?_ ?_
    · exact List.mem_append_right _ (List.mem_cons_of_mem _ hb)
    · rintro rfl
      exact (List.nodup_cons.mp hdisj.2.1).1 hb

end LinkedList
