import Jinx.Http.WebRoute
import Mathlib.Algebra.Group.Nat.Defs

/-! `detail::CalculateBufferSize`: the size of the buffer that pages are constructed in.

    The pages of a tree are given by the layouts of their types. `Size` and `Align` are maxima that
    follow the tuples of children and siblings; the buffer adds them up. A page needs its size, and the
    padding up to the next multiple of its alignment, which depends on where the buffer begins. -/

namespace Jinx.Http

/-- `sizeof` and `alignof` of a type. -/
structure Layout where
  size : Nat
  align : Nat
  size_pos : 0 < size
  align_pow : ∃ k, align = 2 ^ k
  align_dvd : align ∣ size

namespace Layout

variable {t : Layout} {address n : Nat}

theorem align_pos (t : Layout) : 0 < t.align := by
  obtain ⟨k, hk⟩ := t.align_pow
  rw [hk]
  exact Nat.two_pow_pos k

/-- The bytes up to the next multiple of the alignment. -/
def padding (t : Layout) (address : Nat) : Nat := (t.align - address % t.align) % t.align

theorem padding_le (t : Layout) (address : Nat) : t.padding address ≤ t.align - 1 :=
  Nat.le_sub_one_of_lt (Nat.mod_lt _ t.align_pos)

/-- Right behind a multiple of the alignment the padding is the largest. -/
theorem padding_one (t : Layout) : t.padding 1 = t.align - 1 := by
  have hpos := t.align_pos
  rcases Nat.lt_or_ge 1 t.align with h | h
  · rw [padding, Nat.mod_eq_of_lt h, Nat.mod_eq_of_lt (by omega)]
  · have hone : t.align = 1 := by omega
    rw [padding, hone]

/-- What a buffer needs, wherever it begins. -/
theorem fits_iff : (∀ address, t.size + t.padding address ≤ n) ↔ t.size + (t.align - 1) ≤ n := by
  refine ⟨fun h => ?_, fun h address => ?_⟩
  · rw [← padding_one]
    exact h 1
  · have hle := t.padding_le address
    omega

end Layout

namespace Node

variable {π : Type*} {f : π → Nat}

mutual

/-- `CalculateBufferSizeNode<Node, Others...>`, for one of its two members. -/
def indexMax (f : π → Nat) : Node π → Nat → Nat
  | mk _ index children, others => max (max others (f index)) (indexMaxima f children)

/-- `CalculateBufferSizeChildNodes`. -/
def indexMaxima (f : π → Nat) : List (Node π) → Nat
  | [] => 0
  | n :: others => n.indexMax f (indexMaxima f others)

end

/-- `CalculateBufferSizeChildNodes::Size`. -/
def bufferSize (children : List (Node Layout)) : Nat := indexMaxima Layout.size children

/-- `CalculateBufferSizeChildNodes::Align`. -/
def bufferAlign (children : List (Node Layout)) : Nat := indexMaxima Layout.align children

/-- `CalculateBufferSize`; the error page is that of `GetErrorPage`. -/
def calculateBufferSize (errorPage : Layout) (root : Node Layout) : Nat :=
  errorPage.size + bufferSize root.children + bufferAlign root.children

/-! ### The pages of a tree -/

mutual

/-- The pages of a node and of the nodes below. -/
def pages : Node π → List π
  | mk _ index children => index :: pagesOf children

def pagesOf : List (Node π) → List π
  | [] => []
  | n :: others => n.pages ++ pagesOf others

end

/-- The largest value of some pages; 0 if there is no page. -/
def largest (f : π → Nat) (pages : List π) : Nat := (pages.map f).foldr max 0

theorem largest_append (f : π → Nat) (l l' : List π) :
    largest f (l ++ l') = max (largest f l) (largest f l') := by
  induction l with
  | nil => simp [largest]
  | cons page l ih =>
    have hcons : ∀ l, largest f (page :: l) = max (f page) (largest f l) := fun l => rfl
    rw [List.cons_append, hcons, hcons, ih, Nat.max_assoc]

theorem le_largest {l : List π} {page : π} (h : page ∈ l) : f page ≤ largest f l := by
  obtain ⟨l₁, l₂, rfl⟩ := List.append_of_mem h
  rw [largest_append]
  exact Nat.le_trans (Nat.le_max_left (f page) (largest f l₂)) (Nat.le_max_right ..)

mutual

theorem indexMax_eq (f : π → Nat) :
    ∀ (n : Node π) (others : Nat), n.indexMax f others = max (largest f n.pages) others
  | mk _ index children, others => by
    have hcons : largest f (index :: pagesOf children) =
        max (f index) (largest f (pagesOf children)) := rfl
    rw [indexMax, pages, hcons, indexMaxima_eq f children]
    omega

/-- By induction on the tree: the maxima of the templates are those of all nodes. -/
theorem indexMaxima_eq (f : π → Nat) :
    ∀ children : List (Node π), indexMaxima f children = largest f (pagesOf children)
  | [] => rfl
  | n :: others => by
    rw [indexMaxima, indexMax_eq f n, indexMaxima_eq f others, pagesOf, largest_append]

end

/-- Every page that can be spawned finds room in the page buffer, with its padding. -/
def EveryPageFits (errorPage : Layout) (root : Node Layout) : Prop :=
  ∀ page ∈ errorPage :: root.pages, ∀ address,
    page.size + page.padding address ≤ calculateBufferSize errorPage root

/-- A page below the root always fits. -/
theorem page_fits {errorPage page : Layout} {root : Node Layout} (h : page ∈ pagesOf root.children) :
    page.size + (page.align - 1) ≤ calculateBufferSize errorPage root := by
  have hsize : page.size ≤ bufferSize root.children := by
    rw [bufferSize, indexMaxima_eq]
    exact le_largest h
  have halign : page.align ≤ bufferAlign root.children := by
    rw [bufferAlign, indexMaxima_eq]
    exact le_largest h
  rw [calculateBufferSize]
  omega

/-- CORRECT: every page fits if and only if that of the root fits into the error page, the largest page
    and the largest alignment below the root, and the last two have room for the padding of the error
    page. -/
theorem everyPageFits_iff (errorPage : Layout) (root : Node Layout) :
    EveryPageFits errorPage root ↔
      root.index.size + (root.index.align - 1) ≤ errorPage.size +
        largest Layout.size (pagesOf root.children) + largest Layout.align (pagesOf root.children) ∧
      errorPage.align - 1 ≤
        largest Layout.size (pagesOf root.children) + largest Layout.align (pagesOf root.children) := by
  obtain ⟨name, index, children⟩ := root
  have hsize : calculateBufferSize errorPage (mk name index children) = errorPage.size +
      largest Layout.size (pagesOf children) + largest Layout.align (pagesOf children) := by
    rw [calculateBufferSize, bufferSize, bufferAlign, indexMaxima_eq, indexMaxima_eq]
    rfl
  have hfits : EveryPageFits errorPage (mk name index children) ↔
      ∀ page ∈ errorPage :: index :: pagesOf children,
        page.size + (page.align - 1) ≤ calculateBufferSize errorPage (mk name index children) :=
    forall₂_congr fun page _ => Layout.fits_iff
  rw [hfits, List.forall_mem_cons, List.forall_mem_cons]
  constructor
  · rintro ⟨herror, hroot, -⟩
    rw [hsize] at herror hroot
    refine ⟨hroot, ?_⟩
    change errorPage.align - 1 ≤ largest Layout.size (pagesOf children) +
      largest Layout.align (pagesOf children)
    omega
  · rintro ⟨hroot, herror⟩
    replace herror : errorPage.align - 1 ≤ largest Layout.size (pagesOf children) +
      largest Layout.align (pagesOf children) := herror
    refine ⟨?_, ?_, fun page hpage => page_fits hpage⟩
    · rw [hsize]
      omega
    · rw [hsize]
      exact hroot

/-- A root without children whose page is larger than the error page. -/
theorem root_does_not_fit :
    let page : Layout := ⟨4096, 8, by decide, ⟨3, rfl⟩, by decide⟩
    let errorPage : Layout := ⟨2048, 8, by decide, ⟨3, rfl⟩, by decide⟩
    ¬ EveryPageFits errorPage (mk [] page []) := by
  intro page errorPage h
  have hroot := h page (by simp [pages]) 0
  exact absurd hroot (by decide)

end Node

end Jinx.Http
