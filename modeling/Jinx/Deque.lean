import Jinx.BackList
import Jinx.Lib.Runs

/-! `LinkedList` as a deque: any calls, at both ends.

    The sequence it stands for is a list of nodes. What `push_front`, `erase` and the pops do, and what
    `push_back` does behind other nodes, keeps `_head` at the first node (`Represents`). A `push_back`
    on the empty list leaves `_head` at `_end`: `front` and `for_each` do not see the node. -/

namespace Jinx.Nodes

open Runs

/-- The calls that change a list. -/
inductive DequeOp (α : Type*) where
  | pushFront (a : α)
  | pushBack (a : α)
  | erase (a : α)
  | popFront
  | popBack
  | clear
  deriving DecidableEq, Repr

section Code

variable {α β : Type*} [DecidableEq α] [DecidableEq β]

/-- `LinkedList::front`. -/
def front (m : Nodes α β) (q : β) : Link α β := m.head q

/-- `LinkedList::pop_front`. What `_head` points to may be `_end`, whose `_next` is null; `none` where a
    null pointer is followed. -/
def popFront (m : Nodes α β) (q : β) : Option (Nodes α β × ResultGeneric) :=
  match m.front q with
  | .null => none
  | .node a => m.erase q a
  | .fin r => if m.endPrev r = .null then some (m, .failed) else none

/-- A function for `for_each` that leaves the nodes alone. -/
def collect (s : Nodes α β × List α) (a : α) : Nodes α β × List α := (s.1, s.2 ++ [a])

/-- The nodes for which `for_each` calls its function, in order. -/
def visits (m : Nodes α β) (q : β) : Option (List α) :=
  (forEach Prod.fst (fun s a => some (collect s a)) q (m, [])).map Prod.snd

/-- One call, and what it returns. -/
def call (m : Nodes α β) (q : β) : DequeOp α → Option (Nodes α β × Option ResultGeneric)
  | .pushFront a => (m.pushFront q a).map fun r => (r.1, some r.2)
  | .pushBack a => some ((m.pushBack q a).1, some (m.pushBack q a).2)
  | .erase a => (m.erase q a).map fun r => (r.1, some r.2)
  | .popFront => (m.popFront q).map fun r => (r.1, some r.2)
  | .popBack => (m.popBack q).map fun r => (r.1, some r.2)
  | .clear => (m.clear q).map fun n => (n, none)

end Code

/-! ### Representation -/

section Representation

variable {α : Type*}

/-- The nodes of the list are those of the sequence, and `_head` points to the first one. -/
def Represents (m : Nodes α Unit) (l : List α) : Prop := m.Rep fun _ => l

namespace Represents

variable {m : Nodes α Unit} {l : List α}

theorem back (h : m.Represents l) : Back m l where
  chain := (h.holds ()).chain.eq_first ▸ (h.holds ()).chain
  nodup := (h.holds ()).nodup
  size := (h.holds ()).size
  free a ha := h.free a fun _ => ha
  head := .inr (h.holds ()).chain.eq_first

theorem of_back (h : Back m l) (hhead : m.head () = first l) : m.Represents l where
  holds _ := ⟨hhead ▸ h.chain, h.nodup, h.size⟩
  disjoint _ _ _ _ _ := rfl
  free a ha := h.free a (ha ())

/-- There is one list. -/
theorem of_update {x : List α} (h : m.Rep (Function.update (fun _ : Unit => l) () x)) :
    m.Represents x := by
  have hL : Function.update (fun _ : Unit => l) () x = fun _ => x :=
    funext fun _ => Function.update_self ..
  rwa [hL] at h

theorem head_eq (h : m.Represents l) : m.head () = first l := (h.holds ()).chain.eq_first

end Represents

theorem collect_foldl (l : List α) (s : Nodes α Unit × List α) :
    (l.foldl collect s).2 = s.2 ++ l := by
  induction l generalizing s with
  | nil => simp
  | cons a l ih => simp [ih, collect]

theorem represents_empty : Represents ({} : Nodes α Unit) [] := rep_empty

end Representation

/-! ### The sequence -/

variable {α : Type*} [DecidableEq α]

/-- What a call does to the sequence, and what it returns. -/
def Deque.call (l : List α) : DequeOp α → Option (List α × Option ResultGeneric)
  | .pushFront a => some (if a ∈ l then (l, some .failed) else (a :: l, some .successful))
  | .pushBack a => some (if a ∈ l then (l, some .failed) else (l ++ [a], some .successful))
  | .erase a => some (if a ∈ l then (l.erase a, some .successful) else (l, some .failed))
  | .popFront => if l.isEmpty then none else some (l.tail, some .successful)
  | .popBack => if l.isEmpty then none else some (l.dropLast, some .successful)
  | .clear => some ([], none)

def Deque.step (l : List α) (op : DequeOp α) : Option (List α) := (Deque.call l op).map Prod.fst

/-- The list and the sequence show the same. -/
structure Agrees (m : Nodes α Unit) (l : List α) : Prop where
  front : m.front () = (l.head?.map Link.node).getD (.fin ())
  back : m.back () = (l.getLast?.map Link.node).getD .null
  size : m.size () = l.length
  visits : m.visits () = some l
  isInserted : ∀ a, m.isInserted a = true ↔ a ∈ l

/-- From here on, the list does with these calls what the sequence does, and shows the same in every
    state; a call that fails changes nothing. -/
def Behaves : Nodes α Unit → List α → List (DequeOp α) → Prop
  | m, l, [] => Agrees m l
  | m, l, op :: ops => Agrees m l ∧ ∀ l' r, Deque.call l op = some (l', r) →
      ∃ m', m.call () op = some (m', r) ∧ (r = some .failed → m' = m) ∧ Behaves m' l' ops

/-- A node is pushed to the back behind other nodes only. -/
def Behind (l : List α) : DequeOp α → Prop
  | .pushBack _ => l ≠ []
  | _ => True

instance (l : List α) : ∀ op, Decidable (Behind l op)
  | .pushBack _ => inferInstanceAs (Decidable (l ≠ []))
  | .pushFront _ | .erase _ | .popFront | .popBack | .clear => .isTrue trivial

theorem Behaves.agrees {m : Nodes α Unit} {l : List α} {ops : List (DequeOp α)}
    (h : Behaves m l ops) : Agrees m l := by
  cases ops with
  | nil => exact h
  | cons => exact h.1

/-! ### Refinement -/

theorem pushBack_head (m : Nodes α Unit) (a : α) : (m.pushBack () a).1.head = m.head := by
  unfold pushBack
  split <;> rfl

namespace Represents

variable {m : Nodes α Unit} {l : List α} {a : α}

theorem visits (h : m.Represents l) : m.visits () = some l := by
  have hall : m.visited l = l := if_pos h.head_eq
  have hkeep : ∀ (s : Nodes α Unit × List α) a, Prod.fst (collect s a) = Prod.fst s := fun _ _ => rfl
  rw [Nodes.visits, Back.forEach hkeep (m, []) h.back, hall, Option.map_some, collect_foldl,
    List.nil_append]

theorem agrees (h : m.Represents l) : Agrees m l where
  front := by
    rw [Nodes.front, h.head_eq]
    cases l <;> rfl
  back := h.back.chain.endPrev_eq
  size := h.back.size
  visits := h.visits
  isInserted _ := h.back.isInserted_iff

theorem erase (h : m.Represents l) (ha : a ∈ l) :
    ∃ n, m.erase () a = some (n, .successful) ∧ n.Represents (l.erase a) := by
  obtain ⟨n, hn, hrep⟩ := Rep.erase h (q := ()) ha
  exact ⟨n, hn, .of_update hrep⟩

theorem pushFront (h : m.Represents l) (ha : a ∉ l) :
    ∃ n, m.pushFront () a = some (n, .successful) ∧ n.Represents (a :: l) := by
  obtain ⟨n, hn, hrep⟩ := Rep.pushFront h (fun _ => ha) ()
  exact ⟨n, hn, .of_update hrep⟩

theorem pushBack (h : m.Represents l) (ha : a ∉ l) (hl : l ≠ []) :
    (m.pushBack () a).2 = .successful ∧ (m.pushBack () a).1.Represents (l ++ [a]) := by
  obtain ⟨hok, hback⟩ := h.back.pushBack ha
  refine ⟨hok, .of_back hback ?_⟩
  rw [pushBack_head, h.head_eq]
  cases l with
  | nil => exact absurd rfl hl
  | cons b l => rfl

theorem popFront (h : m.Represents (a :: l)) :
    ∃ n, m.popFront () = some (n, .successful) ∧ n.Represents l := by
  obtain ⟨n, hn, hrep⟩ := h.erase List.mem_cons_self
  rw [List.erase_cons_head] at hrep
  refine ⟨n, ?_, hrep⟩
  rw [Nodes.popFront, Nodes.front, h.head_eq]
  exact hn

theorem popBack (h : m.Represents (l ++ [a])) :
    ∃ n, m.popBack () = some (n, .successful) ∧ n.Represents l := by
  obtain ⟨n, hn, hrep⟩ := h.erase (a := a) (by simp)
  have ha : a ∉ l := fun hc => (List.nodup_append.mp h.back.nodup).2.2 a hc a (by simp) rfl
  rw [List.erase_append_right _ ha, List.erase_cons_head, List.append_nil] at hrep
  refine ⟨n, ?_, hrep⟩
  have hlast : m.back () = .node a := by
    rw [Nodes.back, h.back.chain.endPrev_eq]
    simp
  rw [Nodes.popBack, hlast]
  exact hn

theorem clear (h : m.Represents l) : ∃ n, m.clear () = some n ∧ n.Represents [] := by
  obtain ⟨n, hn, hback⟩ := h.back.clear
  have hnone : m.remaining l = [] := if_pos h.head_eq
  rw [hnone] at hback
  exact ⟨n, hn, .of_back hback (hback.head.elim id id)⟩

/-- Every call that is not a `push_back` on the empty list does what it does to the sequence. -/
theorem call (h : m.Represents l) {op : DequeOp α} (hbehind : Behind l op) {l' : List α}
    {r : Option ResultGeneric} (hcall : Deque.call l op = some (l', r)) :
    ∃ m', m.call () op = some (m', r) ∧ (r = some .failed → m' = m) ∧ m'.Represents l' := by
  cases op with
  | pushFront a =>
    by_cases ha : a ∈ l
    · obtain ⟨rfl, rfl⟩ : l = l' ∧ some .failed = r := by simpa [Deque.call, ha] using hcall
      exact ⟨m, by rw [Nodes.call, Rep.pushFront_failed h (r := ()) ha ()]; rfl, fun _ => rfl, h⟩
    · obtain ⟨rfl, rfl⟩ : a :: l = l' ∧ some .successful = r := by simpa [Deque.call, ha] using hcall
      obtain ⟨n, hn, hrep⟩ := h.pushFront ha
      exact ⟨n, by rw [Nodes.call, hn]; rfl, by simp, hrep⟩
  | pushBack a =>
    by_cases ha : a ∈ l
    · obtain ⟨rfl, rfl⟩ : l = l' ∧ some .failed = r := by simpa [Deque.call, ha] using hcall
      exact ⟨m, by rw [Nodes.call, h.back.pushBack_failed ha], fun _ => rfl, h⟩
    · obtain ⟨rfl, rfl⟩ : l ++ [a] = l' ∧ some .successful = r := by simpa [Deque.call, ha] using hcall
      obtain ⟨hok, hrep⟩ := h.pushBack ha hbehind
      exact ⟨_, by rw [Nodes.call, hok], by simp, hrep⟩
  | erase a =>
    by_cases ha : a ∈ l
    · obtain ⟨rfl, rfl⟩ : l.erase a = l' ∧ some .successful = r := by simpa [Deque.call, ha] using hcall
      obtain ⟨n, hn, hrep⟩ := h.erase ha
      exact ⟨n, by rw [Nodes.call, hn]; rfl, by simp, hrep⟩
    · obtain ⟨rfl, rfl⟩ : l = l' ∧ some .failed = r := by simpa [Deque.call, ha] using hcall
      exact ⟨m, by rw [Nodes.call, h.back.erase_failed ha]; rfl, fun _ => rfl, h⟩
  | popFront =>
    cases l with
    | nil => simp [Deque.call] at hcall
    | cons a l =>
      obtain ⟨rfl, rfl⟩ : l = l' ∧ some .successful = r := by simpa [Deque.call] using hcall
      obtain ⟨n, hn, hrep⟩ := h.popFront
      exact ⟨n, by rw [Nodes.call, hn]; rfl, by simp, hrep⟩
  | popBack =>
    rcases List.eq_nil_or_concat l with rfl | ⟨k, a, rfl⟩
    · simp [Deque.call] at hcall
    · rw [List.concat_eq_append] at h hcall
      obtain ⟨rfl, rfl⟩ : k = l' ∧ some .successful = r := by simpa [Deque.call] using hcall
      obtain ⟨n, hn, hrep⟩ := h.popBack
      exact ⟨n, by rw [Nodes.call, hn]; rfl, by simp, hrep⟩
  | clear =>
    obtain ⟨rfl, rfl⟩ : [] = l' ∧ none = r := by simpa [Deque.call] using hcall
    obtain ⟨n, hn, hrep⟩ := h.clear
    exact ⟨n, by rw [Nodes.call, hn]; rfl, by simp, hrep⟩

/-- A `push_back` on the empty list leaves `_head` at `_end`. -/
theorem not_agrees_pushBack (h : m.Represents ([] : List α)) (a : α) :
    ¬ Agrees (m.pushBack () a).1 [a] := by
  intro hagrees
  have hfront := hagrees.front
  rw [Nodes.front, pushBack_head, h.head_eq] at hfront
  cases hfront

/-- Where the sequence accepts the calls, the list behaves like it if and only if no node is pushed to
    the back of the empty list. By induction on the calls. -/
theorem behaves_iff (h : m.Represents l) (ops : List (DequeOp α))
    (haccepted : (exec Deque.step l ops).isSome) :
    Behaves m l ops ↔ Meets Deque.step Behind l ops := by
  induction ops generalizing m l with
  | nil => exact iff_of_true h.agrees trivial
  | cons op ops ih =>
    obtain ⟨⟨l', r⟩, hcall⟩ : ∃ next, Deque.call l op = some next := by
      cases hnone : Deque.call l op with
      | none => simp [exec, Deque.step, hnone] at haccepted
      | some next => exact ⟨next, rfl⟩
    have hstep : Deque.step l op = some l' := by rw [Deque.step, hcall]; rfl
    have hrest : (exec Deque.step l' ops).isSome := by simpa [exec, hstep] using haccepted
    by_cases hbehind : Behind l op
    · obtain ⟨m', hm', hkeep, hrep⟩ := h.call hbehind hcall
      constructor
      · rintro ⟨-, hall⟩
        obtain ⟨n, hn, -, hbehaves⟩ := hall l' r hcall
        obtain rfl : m' = n := by simpa using hm'.symm.trans hn
        refine ⟨hbehind, fun k hk => ?_⟩
        obtain rfl : l' = k := Option.some.inj (hstep.symm.trans hk)
        exact (ih hrep hrest).mp hbehaves
      · rintro ⟨-, hmeets⟩
        refine ⟨h.agrees, fun k r' hk => ?_⟩
        obtain ⟨rfl, rfl⟩ : l' = k ∧ r = r' := by simpa using hcall.symm.trans hk
        exact ⟨m', hm', hkeep, (ih hrep hrest).mpr (hmeets l' hstep)⟩
    · refine iff_of_false (fun ⟨_, hall⟩ => ?_) fun hmeets => hbehind hmeets.1
      -- the call that is not allowed is a `push_back` on the empty list
      cases op with
      | pushBack a =>
        obtain rfl : l = [] := not_not.mp hbehind
        obtain ⟨n, hn, -, hbehaves⟩ := hall [a] (some .successful) (by simp [Deque.call])
        obtain ⟨rfl, -⟩ := Prod.mk.inj (Option.some.inj hn)
        exact h.not_agrees_pushBack a hbehaves.agrees
      | _ => exact hbehind trivial

end Represents

/-- A list is a deque for the calls that its sequence accepts if and only if nothing is pushed to the
    back while it is empty. -/
theorem deque_iff (ops : List (DequeOp α)) (haccepted : (exec Deque.step [] ops).isSome) :
    Behaves ({} : Nodes α Unit) [] ops ↔ Meets Deque.step Behind [] ops :=
  represents_empty.behaves_iff ops haccepted

/-- Calls at both ends, down to the empty list and up again. -/
theorem deque_iff_both_ends :
    Behaves ({} : Nodes Nat Unit) [] [.pushFront 1, .pushBack 2, .pushBack 1, .pushFront 3, .erase 1,
      .popFront, .erase 3, .popBack, .pushFront 3, .clear] :=
  (deque_iff _ (by decide)).mpr (by decide)

/-- After a `push_back` on the empty list, `front` is `_end`, `for_each` visits nothing and `pop_front`
    follows a null pointer, while the size is 1. -/
theorem pushBack_empty_breaks :
    ¬ (∀ ops : List (DequeOp Nat), (exec Deque.step [] ops).isSome →
        Behaves ({} : Nodes Nat Unit) [] ops) ∧
      ∃ m, Nodes.call ({} : Nodes Nat Unit) () (.pushBack 7) = some (m, some .successful) ∧
        m.front () = .fin () ∧ m.visits () = some [] ∧ (m.popFront ()).isNone ∧ m.size () = 1 := by
  refine ⟨fun hall => ?_, _, rfl, rfl, rfl, rfl, rfl⟩
  have hbehaves := hall [.pushBack 7] (by decide)
  obtain ⟨m, hm, -, hagrees⟩ := hbehaves.2 [7] (some .successful) rfl
  obtain ⟨rfl, -⟩ := Prod.mk.inj (Option.some.inj hm)
  exact represents_empty.not_agrees_pushBack 7 hagrees

end Jinx.Nodes
