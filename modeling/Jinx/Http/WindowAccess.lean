import Jinx.Http.RawView
import Mathlib.Data.List.TakeWhile

/-! Access to the memory of a buffer view, by pointers that have to point into its window.

    A pointer is an offset from `_memory`. Reading and writing are partial: outside `[_begin, _end)`
    there is no result. The loops over the window read what they pass, so they stop there too. `slice` is
    what lies between two pointers, and each operation is described by it. -/

namespace Jinx.Http

namespace RawView

/-- `*p`. -/
def peek (v : RawView) (p : Nat) : Option Byte :=
  if v.begin_ ≤ p ∧ p < v.end_ then v.bytes[p]? else none

/-- `*p = c`. -/
def poke (v : RawView) (p : Nat) (c : Byte) : Option RawView :=
  if v.begin_ ≤ p ∧ p < v.end_ then
    some { v with bytes := v.bytes.set p c, end_le := by rw [List.length_set]; exact v.end_le }
  else none

theorem peek_lt {v : RawView} {p : Nat} {c : Byte} (h : v.peek p = some c) : p < v.end_ := by
  unfold peek at h
  split at h
  · rename_i hp
    exact hp.2
  · cases h

/-- `for (; p != last; ++p) if (not q(*p)) return p; return last`, as in `std::find`. -/
def find (v : RawView) (q : Byte → Bool) (last p : Nat) : Option Nat :=
  if p = last then some last
  else
    match h : v.peek p with
    | none => none
    | some c => if q c then v.find q last (p + 1) else some p
  termination_by v.end_ - p
  decreasing_by
    have hp := peek_lt h
    omega

/-- `while (p > first and q(*(p - 1))) --p`. -/
def findBack (v : RawView) (q : Byte → Bool) (first : Nat) : Nat → Option Nat
  | 0 => some 0
  | p + 1 =>
    if first < p + 1 then
      (v.peek p).bind fun c => if q c then v.findBack q first p else some (p + 1)
    else some (p + 1)

/-- A read of the stream: the bytes behind the window are written, and committed. -/
def receive (v : RawView) (l : List Byte) : Option RawView :=
  if h : l.length > v.capacity then none
  else some { v with
    bytes := v.bytes.take v.end_ ++ l ++ v.bytes.drop (v.end_ + l.length)
    end_ := v.end_ + l.length
    begin_le := Nat.le_trans v.begin_le (Nat.le_add_right ..)
    end_le := by
      have hend := v.end_le
      simp only [List.length_append, List.length_take, List.length_drop]
      omega }

variable {v v' v₁ : RawView} {q : Byte → Bool} {p last : Nat} {c : Byte} {l w : List Byte}

theorem rest_eq (v : RawView) (p : Nat) : v.rest p = v.slice p v.end_ := rfl

theorem slice_length (h : last ≤ v.end_) : (v.slice p last).length = last - p := by
  have hend := v.end_le
  simp only [slice, List.length_drop, List.length_take]
  omega

theorem slice_drop (v : RawView) (p last n : Nat) : (v.slice p last).drop n = v.slice (p + n) last := by
  rw [slice, slice, List.drop_drop]

theorem slice_take (v : RawView) (p last n : Nat) (h : p + n ≤ last) :
    (v.slice p last).take n = v.slice p (p + n) := by
  rw [slice, slice, List.take_drop, List.take_take, Nat.min_eq_left h]

/-- The first byte of a slice is read at its beginning. -/
theorem slice_cons (hp : p < last) (hl : last ≤ v.end_) (hb : v.begin_ ≤ p) :
    ∃ c, v.peek p = some c ∧ v.slice p last = c :: v.slice (p + 1) last := by
  have hlen : p < (v.bytes.take last).length := by
    have hend := v.end_le
    rw [List.length_take]
    omega
  have hlen' : p < v.bytes.length := by
    have hend := v.end_le
    omega
  refine ⟨v.bytes[p], ?_, ?_⟩
  · rw [peek, if_pos ⟨hb, by omega⟩, List.getElem?_eq_getElem hlen']
  · rw [slice, List.drop_eq_getElem_cons hlen, List.getElem_take, slice]

theorem rest_cons (hp : p < v.end_) (hb : v.begin_ ≤ p) :
    ∃ c, v.peek p = some c ∧ v.rest p = c :: v.rest (p + 1) := slice_cons hp (Nat.le_refl _) hb

theorem slice_nil (v : RawView) (h : last ≤ p) : v.slice p last = [] :=
  List.drop_eq_nil_of_le (Nat.le_trans (List.length_take_le ..) h)

/-- A byte that is known to be there. -/
theorem peek_of_slice (h : v.slice p last = c :: l) (hl : last ≤ v.end_) (hb : v.begin_ ≤ p) :
    p < last ∧ v.peek p = some c ∧ v.slice (p + 1) last = l := by
  have hp : p < last := by
    by_contra hp
    rw [slice_nil v (Nat.not_lt.mp hp)] at h
    cases h
  obtain ⟨d, hd, heq⟩ := slice_cons hp hl hb
  obtain ⟨rfl, rfl⟩ := List.cons.inj (heq.symm.trans h)
  exact ⟨hp, hd, rfl⟩

/-! ### Loops -/

/-- The loop stays inside, and stops where the bytes that meet `q` end. -/
theorem find_eq (hb : v.begin_ ≤ p) (hp : p ≤ last) (hl : last ≤ v.end_) :
    v.find q last p = some (p + ((v.slice p last).takeWhile q).length) := by
  induction hn : last - p generalizing p with
  | zero =>
    obtain rfl : p = last := by omega
    rw [find, if_pos rfl, slice_nil v (Nat.le_refl p)]
    simp
  | succ n ih =>
    obtain ⟨c, hc, hslice⟩ := slice_cons (by omega) hl hb
    rw [find, if_neg (by omega)]
    split
    · rename_i hnone
      simp [hc] at hnone
    · rename_i d hd
      obtain rfl : c = d := Option.some.inj (hc.symm.trans hd)
      rw [hslice]
      cases hq : q c with
      | true =>
        rw [if_pos rfl, ih (by omega) (by omega) (by omega), List.takeWhile_cons_of_pos hq,
          List.length_cons]
        congr 1
        omega
      | false =>
        rw [if_neg (by simp), List.takeWhile_cons_of_neg (by simp [hq])]
        rfl

/-- What the loop passes, and what is left. -/
theorem find_spec (hb : v.begin_ ≤ p) (hp : p ≤ last) (hl : last ≤ v.end_) :
    ∃ r, v.find q last p = some r ∧ p ≤ r ∧ r ≤ last ∧ v.slice p r = (v.slice p last).takeWhile q ∧
      v.slice r last = (v.slice p last).dropWhile q := by
  have hle := (List.takeWhile_prefix q (l := v.slice p last)).length_le
  rw [slice_length hl] at hle
  have hsplit := List.takeWhile_append_dropWhile (p := q) (l := v.slice p last)
  refine ⟨_, find_eq hb hp hl, by omega, by omega, ?_, ?_⟩
  · rw [← slice_take v p last _ (by omega)]
    conv_lhs =>
      arg 2
      rw [← hsplit]
    exact List.take_left' rfl
  · rw [← slice_drop]
    conv_lhs =>
      arg 2
      rw [← hsplit]
    exact List.drop_left' rfl

/-- One byte more at the end of a slice. -/
theorem slice_concat (hp : p ≤ last) (hl : last < v.end_) (hb : v.begin_ ≤ p) :
    ∃ c, v.peek last = some c ∧ v.slice p (last + 1) = v.slice p last ++ [c] := by
  have hlen : last < v.bytes.length := Nat.lt_of_lt_of_le hl v.end_le
  refine ⟨v.bytes[last], ?_, ?_⟩
  · rw [peek, if_pos ⟨by omega, hl⟩, List.getElem?_eq_getElem hlen]
  · have hle : p ≤ (v.bytes.take last).length := by
      rw [List.length_take]
      omega
    rw [slice, slice, List.take_add_one, List.getElem?_eq_getElem hlen, List.drop_append_of_le_length hle]
    rfl

/-- The loop from the end stays inside, and stops behind the last byte that does not meet `q`. -/
theorem findBack_eq {first : Nat} (hb : v.begin_ ≤ first) (hp : first ≤ p) (hl : p ≤ v.end_) :
    ∃ last, v.findBack q first p = some last ∧ first ≤ last ∧
      v.slice first last = ((v.slice first p).reverse.dropWhile q).reverse := by
  induction p with
  | zero => exact ⟨0, rfl, hp, by simp [slice]⟩
  | succ p ih =>
    by_cases hlt : first < p + 1
    · obtain ⟨c, hc, hslice⟩ := slice_concat (Nat.lt_succ_iff.mp hlt) (by omega) hb
      rw [findBack, if_pos hlt, hc, hslice, Option.bind_some, List.reverse_concat]
      cases hq : q c with
      | true =>
        obtain ⟨last, hlast, hle, heq⟩ := ih (by omega) (by omega)
        exact ⟨last, by rw [if_pos rfl, hlast], hle, by rw [heq, List.dropWhile_cons_of_pos hq]⟩
      | false =>
        refine ⟨p + 1, by simp, hp, ?_⟩
        rw [List.dropWhile_cons_of_neg (by simp [hq]), List.reverse_cons, List.reverse_reverse, hslice]
    · obtain rfl : first = p + 1 := by omega
      exact ⟨p + 1, by rw [findBack, if_neg hlt], Nat.le_refl _, by simp [slice_nil]⟩

/-! ### Writing -/

/-- `v'` is `v` with the bytes from `p` to the end of the window replaced by `w`. -/
structure Rewrites (v v' : RawView) (p : Nat) (w : List Byte) : Prop where
  memory : v'.memory = v.memory
  begin_ : v'.begin_ = v.begin_
  end_ : v'.end_ = v.end_
  bytes : v'.bytes = v.bytes.take p ++ w ++ v.bytes.drop v.end_
  length : p + w.length = v.end_

theorem Rewrites.refl (hp : p ≤ v.end_) : Rewrites v v p (v.rest p) := by
  refine ⟨rfl, rfl, rfl, ?_, ?_⟩
  · have htake : v.bytes.take p ++ v.rest p = v.bytes.take v.end_ := by
      conv_rhs => rw [← List.take_append_drop p (v.bytes.take v.end_), List.take_take, Nat.min_eq_left hp]
      rfl
    rw [htake, List.take_append_drop]
  · rw [rest_length]
    omega

theorem Rewrites.le (h : Rewrites v v' p w) : p ≤ v.bytes.length := by
  have hend := v.end_le
  have hlength := h.length
  omega

/-- The memory up to the end of the window. -/
theorem Rewrites.take_end (h : Rewrites v v' p w) : v'.bytes.take v'.end_ = v.bytes.take p ++ w := by
  have hlen : (v.bytes.take p ++ w).length = v.end_ := by
    rw [List.length_append, List.length_take, Nat.min_eq_left h.le, h.length]
  rw [h.bytes, h.end_, ← hlen, List.take_left' rfl]

theorem Rewrites.rest (h : Rewrites v v' p w) : v'.rest p = w := by
  rw [RawView.rest, h.take_end, List.drop_left']
  rw [List.length_take, Nat.min_eq_left h.le]

/-- What lies before is not written. -/
theorem Rewrites.slice (h : Rewrites v v' p w) (first : Nat) : v'.slice first p = v.slice first p := by
  have htake : v'.bytes.take p = v.bytes.take p := by
    rw [h.bytes, List.append_assoc, List.take_left']
    rw [List.length_take, Nat.min_eq_left h.le]
  rw [RawView.slice, RawView.slice, htake]

theorem Rewrites.toView (h : Rewrites v v' p w) (hb : v.begin_ ≤ p) :
    v'.toView = { v.toView with window := v.slice v.begin_ p ++ w } := by
  have hp := h.le
  have hbegin : v.begin_ ≤ (v.bytes.take p).length := by
    rw [List.length_take]
    omega
  have hfront : v'.bytes.take v'.begin_ = v.bytes.take v.begin_ := by
    rw [h.bytes, h.begin_, List.append_assoc, List.take_append_of_le_length hbegin, List.take_take,
      Nat.min_eq_left hb]
  have hwindow : v'.rest v'.begin_ = v.slice v.begin_ p ++ w := by
    rw [RawView.rest, h.take_end, h.begin_, List.drop_append_of_le_length hbegin, RawView.slice]
  have hcapacity : v'.capacity = v.capacity := by
    have hend := v.end_le
    have hlength := h.length
    rw [capacity, capacity, memorySize, memorySize, h.bytes, h.end_]
    simp only [List.length_append, List.length_take, List.length_drop]
    omega
  rw [RawView.toView, hfront, hwindow, hcapacity, RawView.toView]

/-- A later write behind `x`. -/
theorem Rewrites.trans {x y u : List Byte} (h : Rewrites v v₁ p (x ++ y))
    (h' : Rewrites v₁ v' (p + x.length) u) : Rewrites v v' p (x ++ u) := by
  have hlen := h.length
  have hlen' := h'.length
  rw [List.length_append] at hlen
  have hend : v₁.bytes.drop v₁.end_ = v.bytes.drop v.end_ := by
    have hpre : (v.bytes.take p ++ (x ++ y)).length = v.end_ := by
      rw [List.length_append, List.length_take, Nat.min_eq_left h.le, List.length_append, hlen]
    rw [h.bytes, h.end_, ← hpre, List.drop_left' rfl]
  have htake : v₁.bytes.take (p + x.length) = v.bytes.take p ++ x := by
    have hpre : (v.bytes.take p ++ x).length = p + x.length := by
      rw [List.length_append, List.length_take, Nat.min_eq_left h.le]
    rw [h.bytes, ← hpre, ← List.append_assoc, List.append_assoc _ y, List.take_left' rfl]
  refine ⟨h'.memory.trans h.memory, h'.begin_.trans h.begin_, h'.end_.trans h.end_, ?_, ?_⟩
  · rw [h'.bytes, hend, htake]
    simp
  · rw [List.length_append, ← Nat.add_assoc, hlen', h.end_]

/-- One byte is written. -/
theorem poke_rewrites {d : Byte} (h : v.rest p = c :: l) (hb : v.begin_ ≤ p) :
    ∃ v', v.poke p d = some v' ∧ Rewrites v v' p (d :: l) := by
  obtain ⟨hp, -, -⟩ := peek_of_slice h (Nat.le_refl _) hb
  have hrefl := Rewrites.refl (v := v) (Nat.le_of_lt hp)
  rw [h] at hrefl
  refine ⟨_, if_pos ⟨hb, hp⟩, rfl, rfl, rfl, ?_, ?_⟩
  · have hlen : (v.bytes.take p).length = p := by rw [List.length_take, Nat.min_eq_left hrefl.le]
    show v.bytes.set p d = _
    conv_lhs =>
      arg 1
      rw [hrefl.bytes]
    rw [List.append_assoc, List.set_append_right _ _ (by omega), hlen, Nat.sub_self]
    simp
  · simpa using hrefl.length

/-! ### A read -/

theorem toView_receive (v : RawView) (l : List Byte) : v.toView.receive l = (v.receive l).map toView := by
  by_cases h : l.length > v.capacity
  · rw [receive, dif_pos h, Option.map_none]
    exact if_pos h
  · rw [receive, dif_neg h, Option.map_some, BufferView.receive_of_le (Nat.not_lt.mp h)]
    have hend := v.end_le
    have hbegin : v.begin_ ≤ (v.bytes.take v.end_).length := by
      rw [List.length_take, Nat.min_eq_left hend]
      exact v.begin_le
    have hlen : (v.bytes.take v.end_ ++ l).length = v.end_ + l.length := by
      rw [List.length_append, List.length_take, Nat.min_eq_left hend]
    have hfront : (v.bytes.take v.end_ ++ l ++ v.bytes.drop (v.end_ + l.length)).take v.begin_ =
        v.bytes.take v.begin_ := by
      rw [List.append_assoc, List.take_append_of_le_length hbegin, List.take_take,
        Nat.min_eq_left v.begin_le]
    have hwindow : ((v.bytes.take v.end_ ++ l ++ v.bytes.drop (v.end_ + l.length)).take
        (v.end_ + l.length)).drop v.begin_ = v.rest v.begin_ ++ l := by
      rw [← hlen, List.take_left' rfl, List.drop_append_of_le_length hbegin, rest]
    have hcapacity : (v.bytes.take v.end_ ++ l ++ v.bytes.drop (v.end_ + l.length)).length -
        (v.end_ + l.length) = v.capacity - l.length := by
      simp only [capacity, memorySize] at h ⊢
      simp only [List.length_append, List.length_take, List.length_drop]
      omega
    simp only [toView, rest, capacity, memorySize, hfront, hwindow, hcapacity]

end RawView

end Jinx.Http
