import Jinx.Nodes

/-! `LinkedList` as it is used from its back: `push_back`, `back`, `pop_back`, and the loop of
    `for_each` and `clear` over it.

    `push_back` does not set `_head`, so a list that was filled by it alone has a `_head` that points to
    `_end`; only the `erase` of a first node lets `_head` point to the next one. What is pushed, taken
    from the back and erased does not depend on `_head`, and `for_each` visits either all nodes or none
    (`Back`). -/

namespace Jinx.Nodes

/-! ### Representation -/

section Representation

variable {α β : Type*} {m m' : Nodes α Unit} {n k : Nodes α β} {q : β} {l : List α} {a b : α}
  {p c : Link α β}

/-- The pointer to the first node of a list. -/
def first : List α → Link α Unit
  | [] => .fin ()
  | a :: _ => .node a

/-- A list that holds the nodes `l`; `_head` points to the first one, or to `_end`. -/
structure Back (m : Nodes α Unit) (l : List α) : Prop where
  chain : m.Chain () .null (first l) l
  nodup : l.Nodup
  size : m.size () = l.length
  free : ∀ a, a ∉ l → m.prev a = .null ∧ m.next a = .null
  head : m.head () = .fin () ∨ m.head () = first l

theorem back_empty : Back ({} : Nodes α Unit) [] :=
  ⟨⟨rfl, rfl⟩, List.nodup_nil, rfl, fun _ _ => ⟨rfl, rfl⟩, .inl rfl⟩

/-- With `_head` put right, the list is one in the sense of `Rep`. -/
theorem Back.rep (h : Back m l) : Rep { m with head := fun _ => first l } fun _ => l where
  holds _ := ⟨h.chain.congr (fun _ _ => rfl) (fun _ _ => rfl) rfl, h.nodup, h.size⟩
  disjoint _ _ _ _ _ := rfl
  free a ha := h.free a (ha ())

theorem Back.of_rep (h : Rep { m with head := fun _ => first l } fun _ => l)
    (hhead : m.head () = .fin () ∨ m.head () = first l) : Back m l where
  chain := (h.holds ()).chain.congr (fun _ _ => rfl) (fun _ _ => rfl) rfl
  nodup := (h.holds ()).nodup
  size := (h.holds ()).size
  free a ha := h.free a fun _ => ha
  head := hhead

theorem Back.size_eq_zero (h : Back m l) : m.size () = 0 ↔ l = [] := by
  rw [h.size]
  simp

/-- The pointer to a chain is the one to its first node. -/
theorem Chain.eq_first {p c : Link α Unit} (h : m.Chain () p c l) : c = first l := by
  cases l with
  | nil => exact h.1
  | cons a l => exact h.1

/-- What the `_end` of a chain points back to. -/
theorem Chain.endPrev_eq (h : n.Chain q p c l) :
    n.endPrev q = (l.getLast?.map Link.node).getD p := by
  induction l generalizing p c with
  | nil => exact h.2
  | cons a l ih =>
    rw [ih h.2.2, List.getLast?_cons]
    cases l.getLast? <;> rfl

/-- The last node of a chain is the one whose `_next` is `_end`. -/
theorem Chain.next_fin_iff (h : n.Chain q p c l) (hl : l.Nodup) (hb : b ∈ l) :
    n.next b = .fin q ↔ n.endPrev q = .node b := by
  induction l generalizing p c with
  | nil => simp at hb
  | cons d l ih =>
    obtain ⟨-, -, hrest⟩ := h
    obtain ⟨hd, hl⟩ := List.nodup_cons.mp hl
    rcases List.mem_cons.mp hb with rfl | hb
    · rcases hrest.start with ⟨hnext, rfl⟩ | ⟨e, l', hnext, rfl⟩
      · exact iff_of_true hnext (by simpa using hrest.endPrev_eq)
      · refine iff_of_false (by simp [hnext]) fun hend => hd ?_
        rw [hrest.endPrev_eq] at hend
        obtain ⟨x, hx⟩ : ∃ x, (e :: l').getLast? = some x := ⟨_, List.getLast?_cons⟩
        obtain rfl : x = b := by simpa [hx] using hend
        exact List.mem_of_getLast? hx
    · exact ih hrest hl hb

/-- What `_end` points back to is in the list. -/
theorem Back.mem_of_endPrev (h : Back m l) (hb : m.endPrev () = .node b) : b ∈ l := by
  rw [h.chain.endPrev_eq] at hb
  cases hlast : l.getLast? with
  | none => simp [hlast] at hb
  | some d =>
    obtain rfl : d = b := by simpa [hlast] using hb
    exact List.mem_of_getLast? hlast

/-- A node comes behind the others. -/
theorem Chain.snoc (h : n.Chain q p c l) (hprev : ∀ b ∈ l, k.prev b = n.prev b)
    (hnext : ∀ b ∈ l, n.next b ≠ .fin q → k.next b = n.next b)
    (hlast : ∀ b ∈ l, n.next b = .fin q → k.next b = .node a)
    (ha : k.Chain q (n.endPrev q) (.node a) [a]) :
    k.Chain q p (if l = [] then .node a else c) (l ++ [a]) := by
  induction l generalizing p c with
  | nil =>
    rw [if_pos rfl, ← h.2]
    exact ha
  | cons b l ih =>
    obtain ⟨rfl, hp, hrest⟩ := h
    refine ⟨rfl, (hprev b List.mem_cons_self).trans hp, ?_⟩
    have htail := ih hrest (fun d hd => hprev d (List.mem_cons_of_mem b hd))
      (fun d hd => hnext d (List.mem_cons_of_mem b hd)) fun d hd => hlast d (List.mem_cons_of_mem b hd)
    rcases hrest.start with ⟨hfin, rfl⟩ | ⟨e, l', hnode, rfl⟩
    · rw [hlast b List.mem_cons_self hfin]
      exact htail
    · rw [hnext b List.mem_cons_self (by simp [hnode])]
      exact htail

end Representation

/-! ### The operations -/

variable {α β : Type*} [DecidableEq α] [DecidableEq β]

/-- `LinkedList::push_back`. -/
def pushBack (m : Nodes α β) (q : β) (a : α) : Nodes α β × ResultGeneric :=
  if m.next a ≠ .null ∨ m.prev a ≠ .null then (m, .failed)
  else
    let last := m.endPrev q
    let next := Function.update m.next a (.fin q)
    ({ m with
        prev := Function.update m.prev a last
        next := match last with
          | .node b => Function.update next b (.node a)
          | _ => next
        endPrev := Function.update m.endPrev q (.node a)
        size := Function.update m.size q (m.size q + 1) }, .successful)

/-- `LinkedList::back`. -/
def back (m : Nodes α β) (q : β) : Link α β := m.endPrev q

/-- `LinkedList::pop_back`; `none` where a null pointer is followed. -/
def popBack (m : Nodes α β) (q : β) : Option (Nodes α β × ResultGeneric) :=
  match m.back q with
  | .node a => m.erase q a
  | _ => none

/-- `Node::is_inserted`. -/
def isInserted (m : Nodes α β) (a : α) : Bool := m.prev a ≠ .null || m.next a ≠ .null

/-- The loop of `LinkedList::for_each` from the pointer `ptr` on, in a state with the nodes in it. It
    gives up after a number of rounds, and where a null pointer is followed. -/
def forEachFrom {σ : Type*} (nodes : σ → Nodes α β) (f : σ → α → Option σ) (q : β) :
    Nat → Link α β → σ → Option σ
  | 0, ptr, s => if ptr = .fin q then some s else none
  | fuel + 1, ptr, s =>
    match ptr with
    | .null => none
    | .fin r => if r = q then some s else none
    | .node a => (f s a).bind (forEachFrom nodes f q fuel ((nodes s).next a))

/-- `LinkedList::for_each`. -/
def forEach {σ : Type*} (nodes : σ → Nodes α β) (f : σ → α → Option σ) (q : β) (s : σ) : Option σ :=
  forEachFrom nodes f q ((nodes s).size q).toNat ((nodes s).head q) s

/-- `LinkedList::clear`. -/
def clear (m : Nodes α β) (q : β) : Option (Nodes α β) :=
  forEach id (fun m a => (m.erase q a).map Prod.fst) q m

/-! ### What they do to the list -/

variable {m m' : Nodes α Unit} {l : List α} {a b : α} {p c : Link α Unit}

theorem Back.isInserted_iff (h : Back m l) : m.isInserted a = true ↔ a ∈ l := by
  constructor
  · intro hin
    by_contra hno
    obtain ⟨hprev, hnext⟩ := h.free a hno
    simp [isInserted, hprev, hnext] at hin
  · intro ha
    have hnext : m.next a ≠ .null := h.rep.next_ne_null (q := ()) ha
    simp [isInserted, hnext]

theorem Back.isInserted_eq_false_iff (h : Back m l) : (∀ a, m.isInserted a = false) ↔ l = [] := by
  simp only [← Bool.not_eq_true, h.isInserted_iff, List.eq_nil_iff_forall_not_mem]

theorem Back.pushBack_failed (h : Back m l) (ha : a ∈ l) : m.pushBack () a = (m, .failed) :=
  if_pos (.inl (h.rep.next_ne_null (q := ()) ha))

/-- The `_next` of a node, after a push. -/
theorem pushBack_next (hfree : ¬ (m.next a ≠ .null ∨ m.prev a ≠ .null)) (b : α) :
    (m.pushBack () a).1.next b =
      if m.endPrev () = .node b then .node a else if b = a then .fin () else m.next b := by
  rw [Nodes.pushBack, if_neg hfree]
  cases m.endPrev () <;> simp [Function.update_apply, eq_comm]

theorem Back.pushBack (h : Back m l) (ha : a ∉ l) :
    (m.pushBack () a).2 = .successful ∧ Back (m.pushBack () a).1 (l ++ [a]) := by
  have hfree : ¬ (m.next a ≠ .null ∨ m.prev a ≠ .null) := by simp [h.free a ha]
  have hnext := pushBack_next hfree
  have hne : ∀ b ∈ l, b ≠ a := fun b hb hba => ha (hba ▸ hb)
  have hprev : ∀ b, b ≠ a → (m.pushBack () a).1.prev b = m.prev b := by
    intro b hb
    rw [Nodes.pushBack, if_neg hfree]
    exact Function.update_of_ne hb _ _
  have hpush : (m.pushBack () a).1.prev a = m.endPrev () ∧ (m.pushBack () a).1.endPrev () = .node a ∧
      (m.pushBack () a).1.head () = m.head () ∧ (m.pushBack () a).1.size () = m.size () + 1 := by
    rw [Nodes.pushBack, if_neg hfree]
    simp
  obtain ⟨hprev_a, hend, hhead, hsize⟩ := hpush
  have hend_a : m.endPrev () ≠ .node a := fun hc => ha (h.mem_of_endPrev hc)
  have hchain := h.chain.snoc (k := (m.pushBack () a).1) (a := a) (fun b hb => hprev b (hne b hb))
    (fun b hb hfin => ?_) (fun b hb hfin => ?_) ⟨rfl, hprev_a, ?_, hend⟩
  · refine ⟨by rw [Nodes.pushBack, if_neg hfree], ⟨?_, ?_, ?_, fun b hb => ?_, ?_⟩⟩
    · cases l <;> exact hchain
    · exact List.nodup_append.mpr ⟨h.nodup, by simp, by simpa using hne⟩
    · simp [hsize, h.size]
    · have hb : b ∉ l ∧ b ≠ a := by simpa using hb
      have hlast : m.endPrev () ≠ .node b := fun hc => hb.1 (h.mem_of_endPrev hc)
      rw [hprev b hb.2, hnext, if_neg hlast, if_neg hb.2]
      exact h.free b hb.1
    · rw [hhead]
      cases l with
      | nil => exact .inl (h.head.elim id id)
      | cons d l => exact h.head
  · rw [hnext, if_neg (fun hc => hfin ((h.chain.next_fin_iff h.nodup hb).mpr hc)), if_neg (hne b hb)]
  · rw [hnext, if_pos ((h.chain.next_fin_iff h.nodup hb).mp hfin)]
  · rw [hnext, if_neg hend_a, if_pos rfl]

theorem setPrev_head (x : Unit → Link α Unit) (c y : Link α Unit) :
    ({ m with head := x } : Nodes α Unit).setPrev c y = (m.setPrev c y).map fun n => { n with head := x } := by
  cases c <;> rfl

theorem setNext_head (x : Unit → Link α Unit) (c y : Link α Unit) :
    ({ m with head := x } : Nodes α Unit).setNext c y = (m.setNext c y).map fun n => { n with head := x } := by
  cases c <;> rfl

/-- `erase` reads no `_head`, and sets it where the first node goes. -/
theorem erase_head (x : Unit → Link α Unit) :
    ({ m with head := x } : Nodes α Unit).erase () a = (m.erase () a).map fun n =>
      ({ n.1 with head := if m.next a ≠ .null ∧ m.prev a = .null then n.1.head else x }, n.2) := by
  unfold Nodes.erase
  by_cases hprev : m.prev a = .null
  · by_cases hnext : m.next a = .null
    · simp [hprev, hnext]
    · simp only [hprev, hnext, setPrev_head, Option.map_map, and_true, if_true, if_false, ne_eq,
        not_false_eq_true]
      refine congrArg (Option.map · _) (funext fun n => ?_)
      have hhead : ∀ y : Unit → Link α Unit, Function.update y () (m.next a) = fun _ => m.next a :=
        fun y => funext fun _ => Function.update_self ..
      simp [hhead]
  · simp only [hprev, and_false, if_false, setNext_head]
    cases hm : m.setNext (m.prev a) (m.next a) with
    | none => rfl
    | some n =>
      simp only [Option.map_some, Option.bind_some, setPrev_head, Option.map_map]
      rfl

/-- An `erase` of one of the nodes; of the first one, it also puts `_head` right. -/
theorem Back.erase (h : Back m l) (ha : a ∈ l) :
    ∃ n, m.erase () a = some (n, .successful) ∧ Back n (l.erase a) := by
  obtain ⟨n, hn, hrep⟩ := h.rep.erase (q := ()) ha
  have hL : Function.update (fun _ : Unit => l) () (l.erase a) = fun _ => l.erase a :=
    funext fun _ => Function.update_self ..
  rw [hL] at hrep
  have hhead : n.head () = first (l.erase a) := (hrep.holds ()).chain.eq_first
  have hnext : m.next a ≠ .null := h.rep.next_ne_null (q := ()) ha
  have hm := erase_head (m := { m with head := fun _ => first l }) (a := a) m.head
  rw [hn] at hm
  have hright : ({ n with head := fun _ => first (l.erase a) } : Nodes α Unit) = n := by
    rw [← hhead]
  refine ⟨_, hm, .of_rep (by rw [← hright] at hrep; exact hrep) ?_⟩
  by_cases hprev : m.prev a = .null
  · right
    simpa [hnext, hprev] using hhead
  · -- `a` is not the first node, so the first one stays
    have hfirst : first (l.erase a) = first l := by
      cases l with
      | nil => simp at ha
      | cons b l =>
        have hba : b ≠ a := by
          rintro rfl
          exact hprev h.chain.2.1
        simp [hba, first]
    simpa [hnext, hprev, hfirst] using h.head

/-- What `back` and `pop_back` do where the list is not empty. -/
theorem Back.popBack (h : Back m l) (hsize : m.size () ≠ 0) :
    ∃ l' a n, l = l' ++ [a] ∧ m.back () = .node a ∧ m.popBack () = some (n, .successful) ∧ Back n l' := by
  rcases List.eq_nil_or_concat l with rfl | ⟨l', a, rfl⟩
  · exact absurd (h.size_eq_zero.mpr rfl) hsize
  · rw [List.concat_eq_append] at h ⊢
    obtain ⟨n, hn, hback⟩ := h.erase (a := a) (by simp)
    have hlast : m.back () = .node a := by
      rw [back, h.chain.endPrev_eq]
      simp
    have ha : a ∉ l' := fun hc => (List.nodup_append.mp h.nodup).2.2 a hc a (by simp) rfl
    rw [List.erase_append_right _ ha, List.erase_cons_head, List.append_nil] at hback
    exact ⟨l', a, n, rfl, hlast, by rw [Nodes.popBack, hlast]; exact hn, hback⟩

theorem Back.erase_failed (h : Back m l) (ha : a ∉ l) : m.erase () a = some (m, .failed) := by
  obtain ⟨hprev, hnext⟩ := h.free a ha
  simp [Nodes.erase, hprev, hnext]

/-! ### The loops -/

/-- The nodes that `for_each` visits: all of them, unless `_head` points to `_end`. -/
def visited (m : Nodes α Unit) (l : List α) : List α := if m.head () = first l then l else []

/-- The nodes that `clear` leaves in the list. -/
def remaining (m : Nodes α Unit) (l : List α) : List α := if m.head () = first l then [] else l

theorem visited_sublist (m : Nodes α Unit) (l : List α) : (m.visited l).Sublist l := by
  unfold visited
  split
  · exact .refl l
  · exact List.nil_sublist l

theorem remaining_sublist (m : Nodes α Unit) (l : List α) : (m.remaining l).Sublist l := by
  unfold remaining
  split
  · exact List.nil_sublist l
  · exact .refl l

theorem visited_eq_iff : m.visited l = l ↔ m.remaining l = [] := by
  unfold visited remaining
  split <;> simp [eq_comm]

/-- All nodes are visited, unless there are some and `_head` points to `_end`. -/
theorem Back.visited_eq_iff_head (h : Back m l) : m.visited l = l ↔ (l ≠ [] → m.head () ≠ .fin ()) := by
  unfold visited
  cases l with
  | nil => simp
  | cons a l =>
    rcases h.head with hhead | hhead <;> simp [hhead, first]

/-- A function that leaves the nodes alone is called for one node after the other. -/
theorem forEachFrom_visit {σ : Type*} {nodes : σ → Nodes α Unit} {f : σ → α → σ}
    (hf : ∀ s a, nodes (f s a) = nodes s) (s : σ) (hchain : (nodes s).Chain () p c l) {fuel : Nat}
    (hfuel : l.length ≤ fuel) :
    forEachFrom nodes (fun s a => some (f s a)) () fuel c s = some (l.foldl f s) := by
  induction l generalizing p c s fuel with
  | nil =>
    obtain rfl := hchain.1
    cases fuel <;> simp [forEachFrom]
  | cons a l ih =>
    obtain ⟨rfl, -, hrest⟩ := hchain
    cases fuel with
    | zero => simp at hfuel
    | succ fuel =>
      rw [← hf s a] at hrest
      simpa [forEachFrom, hf] using ih (f s a) hrest (Nat.le_of_succ_le_succ hfuel)

theorem Back.forEach {σ : Type*} {nodes : σ → Nodes α Unit} {f : σ → α → σ}
    (hf : ∀ s a, nodes (f s a) = nodes s) (s : σ) (h : Back (nodes s) l) :
    Nodes.forEach nodes (fun s a => some (f s a)) () s = some (((nodes s).visited l).foldl f s) := by
  have hfuel : l.length ≤ ((nodes s).size ()).toNat := by simp [h.size]
  unfold Nodes.forEach visited
  split
  · next hhead =>
    rw [hhead]
    exact forEachFrom_visit hf s h.chain hfuel
  · next hhead =>
    rw [h.head.resolve_right hhead]
    cases ((nodes s).size ()).toNat <;> simp [forEachFrom]

/-- From the first node on, `clear` takes out all nodes. -/
theorem Back.clearFrom (h : Back m l) {fuel : Nat} (hfuel : l.length ≤ fuel) :
    ∃ n, forEachFrom id (fun m a => (m.erase () a).map Prod.fst) () fuel (first l) m = some n ∧
      Back n [] := by
  induction l generalizing m fuel with
  | nil => exact ⟨m, by cases fuel <;> simp [forEachFrom, first], h⟩
  | cons a l ih =>
    cases fuel with
    | zero => simp at hfuel
    | succ fuel =>
      obtain ⟨n, hn, hback⟩ := h.erase List.mem_cons_self
      rw [List.erase_cons_head] at hback
      have hnext : m.next a = first l := h.chain.2.2.eq_first
      obtain ⟨n', hn', hback'⟩ := ih hback (Nat.le_of_succ_le_succ hfuel)
      exact ⟨n', by simpa [forEachFrom, first, hn, hnext] using hn', hback'⟩

theorem Back.clear (h : Back m l) :
    ∃ n, m.clear () = some n ∧ Back n (m.remaining l) := by
  have hfuel : l.length ≤ (m.size ()).toNat := by simp [h.size]
  unfold Nodes.clear Nodes.forEach remaining
  split
  · next hhead =>
    obtain ⟨n, hn, hback⟩ := h.clearFrom hfuel
    exact ⟨n, by rw [id, hhead]; exact hn, hback⟩
  · next hhead =>
    refine ⟨m, ?_, h⟩
    rw [id, h.head.resolve_right hhead]
    cases (m.size ()).toNat <;> simp [forEachFrom]

end Jinx.Nodes
