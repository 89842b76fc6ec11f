import Jinx.ControlState
import Mathlib.Data.List.Nodup
import Mathlib.Logic.Function.Basic

/-! `LinkedList` of `linkedlist.hpp`, pointer by pointer.

    The nodes of all lists are in one memory. The first node of a list has a null `_prev`, the last
    one points to the `_end` of its list, and a node that is in no list has two null pointers. Which
    list a node is in is written nowhere: `erase` takes it out of its neighbours, whatever list they
    are in, and changes `_head` and `_size` of the list it is called on. -/

namespace Jinx

/-- A `Node*`: null, a node, or the `_end` of a list. -/
inductive Link (α β : Type*) where
  | null
  | node (a : α)
  | fin (q : β)
  deriving DecidableEq, Repr

/-- The nodes and the lists. -/
structure Nodes (α β : Type*) where
  prev : α → Link α β := fun _ => .null
  next : α → Link α β := fun _ => .null
  head : β → Link α β := fun q => .fin q
  endPrev : β → Link α β := fun _ => .null
  size : β → Int := fun _ => 0

namespace Nodes

variable {α β : Type*}

/-! ### Representation -/

/-- From `c` on, where `p` comes before it, there are the nodes of the list and then `_end`. -/
def Chain (m : Nodes α β) (q : β) : Link α β → Link α β → List α → Prop
  | p, c, [] => c = .fin q ∧ m.endPrev q = p
  | p, c, a :: l => c = .node a ∧ m.prev a = p ∧ Chain m q (.node a) (m.next a) l

/-- The list `q` holds the nodes `l`. -/
structure Holds (m : Nodes α β) (q : β) (l : List α) : Prop where
  chain : m.Chain q .null (m.head q) l
  nodup : l.Nodup
  size : m.size q = l.length

/-- Every list holds its own nodes, and the others are in no list. -/
structure Rep (m : Nodes α β) (L : β → List α) : Prop where
  holds : ∀ q, m.Holds q (L q)
  disjoint : ∀ q r a, a ∈ L q → a ∈ L r → q = r
  free : ∀ a, (∀ q, a ∉ L q) → m.prev a = .null ∧ m.next a = .null

variable {m m' : Nodes α β} {L M : β → List α} {q r : β} {a b : α} {p c x : Link α β} {l X Y : List α}

theorem rep_empty : Rep (α := α) (β := β) {} fun _ => [] where
  holds _ := ⟨⟨rfl, rfl⟩, List.nodup_nil, rfl⟩
  disjoint _ _ _ h := by simp at h
  free _ _ := ⟨rfl, rfl⟩

/-- A chain reads the pointers of its own nodes and of its `_end`. -/
theorem Chain.congr (h : m.Chain q p c l) (hprev : ∀ a ∈ l, m'.prev a = m.prev a)
    (hnext : ∀ a ∈ l, m'.next a = m.next a) (hend : m'.endPrev q = m.endPrev q) :
    m'.Chain q p c l := by
  induction l generalizing p c with
  | nil => exact ⟨h.1, hend.trans h.2⟩
  | cons a l ih =>
    obtain ⟨hc, hp, hrest⟩ := h
    refine ⟨hc, (hprev a List.mem_cons_self).trans hp, ?_⟩
    rw [hnext a List.mem_cons_self]
    exact ih hrest (fun b hb => hprev b (List.mem_cons_of_mem a hb))
      fun b hb => hnext b (List.mem_cons_of_mem a hb)

/-- A list is left alone where its nodes, its `_end`, its `_head` and its size are. -/
theorem Holds.frame (h : m.Holds r l) (hprev : ∀ a ∈ l, m'.prev a = m.prev a)
    (hnext : ∀ a ∈ l, m'.next a = m.next a) (hend : m'.endPrev r = m.endPrev r)
    (hhead : m'.head r = m.head r) (hsize : m'.size r = m.size r) : m'.Holds r l where
  chain := by
    rw [hhead]
    exact h.chain.congr hprev hnext hend
  nodup := h.nodup
  size := hsize.trans h.size

/-- What a pointer into the list leads to. -/
theorem Chain.start (h : m.Chain q p c l) :
    c = .fin q ∧ l = [] ∨ ∃ a l', c = .node a ∧ l = a :: l' := by
  cases l with
  | nil => exact .inl ⟨h.1, rfl⟩
  | cons a l => exact .inr ⟨a, l, h.1, rfl⟩

theorem Chain.start_ne_node (h : m.Chain q p c l) (hb : b ∉ l) : c ≠ .node b := by
  rintro rfl
  rcases h.start with ⟨hc, -⟩ | ⟨a, l', hc, rfl⟩
  · cases hc
  · obtain rfl : b = a := by simpa using hc
    exact hb List.mem_cons_self

theorem Chain.start_ne_fin (h : m.Chain q p c l) (hr : r ≠ q) : c ≠ .fin r := by
  rintro rfl
  rcases h.start with ⟨hc, -⟩ | ⟨a, l', hc, rfl⟩
  · exact hr (by simpa using hc)
  · cases hc

theorem Chain.next (h : m.Chain q p c l) (ha : a ∈ l) :
    m.next a = .fin q ∨ ∃ b ∈ l, m.next a = .node b := by
  induction l generalizing p c with
  | nil => simp at ha
  | cons b l ih =>
    obtain ⟨-, -, hrest⟩ := h
    rcases List.mem_cons.mp ha with rfl | ha
    · rcases hrest.start with ⟨hc, -⟩ | ⟨d, l', hc, rfl⟩
      · exact .inl hc
      · exact .inr ⟨d, by simp, hc⟩
    · exact (ih hrest ha).imp id fun ⟨d, hd, hnext⟩ => ⟨d, List.mem_cons_of_mem b hd, hnext⟩

/-- The node after `b` points back to it. -/
theorem Chain.prev_of_next (h : m.Chain q p c l) (hb : b ∈ l) (hnext : m.next b = .node a) :
    m.prev a = .node b := by
  induction l generalizing p c with
  | nil => simp at hb
  | cons d l ih =>
    obtain ⟨-, -, hrest⟩ := h
    rcases List.mem_cons.mp hb with rfl | hb
    · rcases hrest.start with ⟨hc, -⟩ | ⟨e, l', hc, rfl⟩
      · rw [hnext] at hc
        cases hc
      · obtain rfl : a = e := by simpa [hnext] using hc
        exact hrest.2.1
    · exact ih hrest hb

/-- A node that is not the first one comes after another. -/
theorem Chain.prev (h : m.Chain q p c l) (ha : a ∈ l) :
    m.prev a = p ∧ c = .node a ∨ ∃ b ∈ l, m.prev a = .node b ∧ m.next b = .node a := by
  induction l generalizing p c with
  | nil => simp at ha
  | cons d l ih =>
    obtain ⟨rfl, hp, hrest⟩ := h
    rcases List.mem_cons.mp ha with rfl | ha
    · exact .inl ⟨hp, rfl⟩
    · rcases ih hrest ha with ⟨hpa, hca⟩ | ⟨b, hb, hpa, hnb⟩
      · exact .inr ⟨d, List.mem_cons_self, hpa, hca⟩
      · exact .inr ⟨b, List.mem_cons_of_mem d hb, hpa, hnb⟩

/-- The pointers determine the list. -/
theorem Chain.unique (h : m.Chain q p c X) (h' : m.Chain q x c Y) : X = Y := by
  induction X generalizing p c x Y with
  | nil =>
    rcases h'.start with ⟨-, rfl⟩ | ⟨a, l, hc, -⟩
    · rfl
    · rw [h.1] at hc
      cases hc
  | cons a X ih =>
    obtain ⟨rfl, -, hrest⟩ := h
    rcases h'.start with ⟨hc, -⟩ | ⟨b, l, hc, rfl⟩
    · cases hc
    · obtain rfl : a = b := by simpa using hc
      rw [ih hrest h'.2.2]

theorem Rep.unique (h : m.Rep L) (h' : m.Rep M) : L = M :=
  funext fun q => (h.holds q).chain.unique (h'.holds q).chain

theorem Rep.next_ne_null (h : m.Rep L) (ha : a ∈ L q) : m.next a ≠ .null := by
  rcases (h.holds q).chain.next ha with hn | ⟨b, -, hn⟩ <;> simp [hn]

/-- The chain after `a`. -/
theorem Chain.after (h : m.Chain q p c (X ++ a :: Y)) : m.Chain q (.node a) (m.next a) Y := by
  induction X generalizing p c with
  | nil => exact h.2.2
  | cons b X ih => exact ih h.2.2

/-! ### The operations -/

variable [DecidableEq α] [DecidableEq β]

/-- `p->_prev = x`. -/
def setPrev (m : Nodes α β) (p x : Link α β) : Option (Nodes α β) :=
  match p with
  | .null => none
  | .node a => some { m with prev := Function.update m.prev a x }
  | .fin q => some { m with endPrev := Function.update m.endPrev q x }

/-- `p->_next = x`; nobody reads `_next` of an `_end`. -/
def setNext (m : Nodes α β) (p x : Link α β) : Option (Nodes α β) :=
  match p with
  | .null => none
  | .node a => some { m with next := Function.update m.next a x }
  | .fin _ => some m

/-- `LinkedList::push_front`. -/
def pushFront (m : Nodes α β) (q : β) (a : α) : Option (Nodes α β × ResultGeneric) :=
  if m.next a ≠ .null ∨ m.prev a ≠ .null then some (m, .failed)
  else
    (m.setPrev (m.head q) (.node a)).map fun m =>
      ({ m with
          next := Function.update m.next a (m.head q)
          prev := Function.update m.prev a .null
          head := Function.update m.head q (.node a)
          size := Function.update m.size q (m.size q + 1) }, .successful)

/-- A node that is linked is refused, and no other. -/
theorem pushFront_failed_iff {r : ResultGeneric} (h : m.pushFront q a = some (m', r)) :
    r = .failed ↔ m.next a ≠ .null ∨ m.prev a ≠ .null := by
  unfold pushFront at h
  split at h
  · rename_i hlinked
    obtain ⟨-, rfl⟩ := Prod.mk.inj (Option.some.inj h)
    exact iff_of_true rfl hlinked
  · rename_i hfree
    obtain ⟨_, -, h⟩ := Option.map_eq_some_iff.mp h
    obtain ⟨-, rfl⟩ := Prod.mk.inj h
    exact iff_of_false (by simp) hfree

/-- `LinkedList::erase`. -/
def erase (m : Nodes α β) (q : β) (a : α) : Option (Nodes α β × ResultGeneric) :=
  if m.next a = .null ∧ m.prev a = .null then some (m, .failed)
  else if m.prev a = .null then
    let next := m.next a
    (m.setPrev next .null).map fun m =>
      ({ m with
          head := Function.update m.head q next
          next := Function.update m.next a .null
          size := Function.update m.size q (m.size q - 1) }, .successful)
  else
    (m.setNext (m.prev a) (m.next a)).bind fun m =>
      (m.setPrev (m.next a) (m.prev a)).map fun m =>
        ({ m with
            prev := Function.update m.prev a .null
            next := Function.update m.next a .null
            size := Function.update m.size q (m.size q - 1) }, .successful)

theorem setPrev_frame (h : m.setPrev c x = some m') :
    (∀ b, c ≠ .node b → m'.prev b = m.prev b) ∧ m'.next = m.next ∧ m'.head = m.head ∧
      m'.size = m.size ∧ ∀ r, c ≠ .fin r → m'.endPrev r = m.endPrev r := by
  cases c with
  | null => cases h
  | node a =>
    obtain rfl := Option.some.inj h
    refine ⟨fun b hb => ?_, rfl, rfl, rfl, fun _ _ => rfl⟩
    exact Function.update_of_ne (fun hba => hb (congrArg Link.node hba.symm)) x m.prev
  | fin q =>
    obtain rfl := Option.some.inj h
    refine ⟨fun _ _ => rfl, rfl, rfl, rfl, fun r hr => ?_⟩
    exact Function.update_of_ne (fun hrq => hr (congrArg Link.fin hrq.symm)) x m.endPrev

/-- The pointer to what comes before the first node is changed. -/
theorem Chain.setPrev (h : m.Chain q p c l) (hl : l.Nodup) (x : Link α β) :
    ∃ m', m.setPrev c x = some m' ∧ m'.Chain q x c l := by
  rcases h.start with ⟨rfl, rfl⟩ | ⟨a, l', rfl, rfl⟩
  · exact ⟨_, rfl, rfl, by simp⟩
  · obtain ⟨-, -, hrest⟩ := h
    refine ⟨_, rfl, rfl, by simp, hrest.congr (fun b hb => ?_) (fun _ _ => rfl) rfl⟩
    have hba : b ≠ a := fun hc => (List.nodup_cons.mp hl).1 (hc ▸ hb)
    simp [hba]

/-- `a` is taken out: the pointers to it lead to its successor. -/
theorem Chain.unlink {n : Nodes α β} (h : m.Chain q p c (X ++ a :: Y)) (hX : a ∉ X)
    (hprev : ∀ b ∈ X, n.prev b = m.prev b)
    (hnext : ∀ b ∈ X, n.next b = if m.next b = .node a then m.next a else m.next b)
    (hY : n.Chain q (m.prev a) (m.next a) Y) :
    n.Chain q p (if c = .node a then m.next a else c) (X ++ Y) := by
  induction X generalizing p c with
  | nil =>
    obtain ⟨rfl, hp, -⟩ := h
    simpa [hp] using hY
  | cons b X ih =>
    obtain ⟨rfl, hp, hrest⟩ := h
    have hba : b ≠ a := fun hc => hX (hc ▸ List.mem_cons_self)
    rw [if_neg (by simpa using hba)]
    refine ⟨rfl, (hprev b List.mem_cons_self).trans hp, ?_⟩
    rw [hnext b List.mem_cons_self]
    exact ih hrest (fun hc => hX (List.mem_cons_of_mem b hc))
      (fun d hd => hprev d (List.mem_cons_of_mem b hd))
      fun d hd => hnext d (List.mem_cons_of_mem b hd)

/-! ### What they do to the lists -/

/-- One list changes, and the others are left alone. -/
theorem Rep.update (h : m.Rep L) (hq : m'.Holds q l)
    (hother : ∀ r, r ≠ q → m'.Holds r (L r))
    (hin : ∀ b ∈ l, b ∈ L q ∨ ∀ r, b ∉ L r)
    (hfree : ∀ b, b ∉ l → (b ∈ L q ∨ ∀ r, b ∉ L r) → m'.prev b = .null ∧ m'.next b = .null) :
    m'.Rep (Function.update L q l) := by
  have hcases : ∀ r, r ≠ q → Function.update L q l r = L r := fun r hr => Function.update_of_ne hr l L
  have hsep : ∀ r b, r ≠ q → b ∈ l → b ∉ L r := by
    intro r b hr hb hbr
    rcases hin b hb with hbq | hno
    · exact hr (h.disjoint r q b hbr hbq)
    · exact hno r hbr
  refine ⟨fun r => ?_, fun r r' b hr hr' => ?_, fun b hb => ?_⟩
  · by_cases hrq : r = q
    · subst hrq
      simpa using hq
    · rw [hcases r hrq]
      exact hother r hrq
  · by_cases hrq : r = q <;> by_cases hrq' : r' = q
    · exact hrq.trans hrq'.symm
    · subst hrq
      rw [hcases r' hrq'] at hr'
      exact absurd hr' (hsep r' b hrq' (by simpa using hr))
    · subst hrq'
      rw [hcases r hrq] at hr
      exact absurd hr (hsep r b hrq (by simpa using hr'))
    · rw [hcases r hrq] at hr
      rw [hcases r' hrq'] at hr'
      exact h.disjoint r r' b hr hr'
  · refine hfree b (by simpa using hb q) ?_
    by_cases hbq : b ∈ L q
    · exact .inl hbq
    · refine .inr fun r hbr => ?_
      by_cases hrq : r = q
      · exact hbq (hrq ▸ hbr)
      · exact hb r (by rwa [hcases r hrq])

theorem Rep.pushFront (h : m.Rep L) (ha : ∀ q, a ∉ L q) (q : β) :
    ∃ m', m.pushFront q a = some (m', .successful) ∧ m'.Rep (Function.update L q (a :: L q)) := by
  obtain ⟨hprev, hnext⟩ := h.free a ha
  have hq := h.holds q
  obtain ⟨m₁, hm₁, hchain⟩ := hq.chain.setPrev hq.nodup (.node a)
  obtain ⟨hp, hn, hh, hs, he⟩ := setPrev_frame hm₁
  have hne : ∀ r, ∀ b ∈ L r, b ≠ a := fun r b hb hba => ha r (hba ▸ hb)
  have hpush : m.pushFront q a = some ({ m₁ with
      next := Function.update m₁.next a (m₁.head q)
      prev := Function.update m₁.prev a .null
      head := Function.update m₁.head q (.node a)
      size := Function.update m₁.size q (m₁.size q + 1) }, .successful) := by
    simp [Nodes.pushFront, hprev, hnext, hm₁]
  refine ⟨_, hpush, h.update ?_ (fun r hr => ?_) (fun b hb => ?_) fun b hb hin => ?_⟩
  · refine ⟨⟨by simp, by simp, ?_⟩, List.nodup_cons.mpr ⟨ha q, hq.nodup⟩, ?_⟩
    · rw [hh]
      simp only [Function.update_self]
      refine hchain.congr (fun b hb => ?_) (fun b hb => ?_) rfl
      · simp [hne q b hb]
      · simp [hne q b hb]
    · simp [hs, hq.size]
  · have hfirst : ∀ b ∈ L r, m.head q ≠ .node b := fun b hb =>
      hq.chain.start_ne_node fun hbq => hr (h.disjoint r q b hb hbq)
    refine (h.holds r).frame (fun b hb => ?_) (fun b hb => ?_) (he r (hq.chain.start_ne_fin hr)) ?_ ?_
    · simp [hne r b hb, hp b (hfirst b hb)]
    · simp [hne r b hb, hn]
    · simp [hr, hh]
    · simp [hr, hs]
  · rcases List.mem_cons.mp hb with rfl | hb
    · exact .inr ha
    · exact .inl hb
  · have hba : b ≠ a := fun hc => hb (hc ▸ List.mem_cons_self)
    have hbq : b ∉ L q := fun hc => hb (List.mem_cons_of_mem a hc)
    obtain ⟨hpb, hnb⟩ := h.free b (hin.resolve_left hbq)
    exact ⟨by simp [hba, hp b (hq.chain.start_ne_node hbq), hpb], by simp [hba, hn, hnb]⟩

theorem Rep.pushFront_failed (h : m.Rep L) (ha : a ∈ L r) (q : β) :
    m.pushFront q a = some (m, .failed) := by
  simp [Nodes.pushFront, h.next_ne_null ha]

theorem Rep.erase_failed (h : m.Rep L) (ha : ∀ q, a ∉ L q) (q : β) :
    m.erase q a = some (m, .failed) := by
  obtain ⟨hprev, hnext⟩ := h.free a ha
  simp [Nodes.erase, hprev, hnext]

/-- The pointers of `a` and those to it are changed, and nothing else of the other lists. -/
theorem Rep.removed (h : m.Rep L) (hl : L q = X ++ a :: Y) (hq : m'.Holds q (X ++ Y))
    (ha : m'.prev a = .null ∧ m'.next a = .null)
    (hprev : ∀ b, b ∉ L q → m'.prev b = m.prev b) (hnext : ∀ b, b ∉ L q → m'.next b = m.next b)
    (hother : ∀ r, r ≠ q → m'.endPrev r = m.endPrev r ∧ m'.head r = m.head r ∧ m'.size r = m.size r) :
    m'.Rep (Function.update L q ((L q).erase a)) := by
  have haX : a ∉ X := by
    have hnd := (h.holds q).nodup
    rw [hl] at hnd
    intro hc
    exact (List.nodup_append.mp hnd).2.2 a hc a List.mem_cons_self rfl
  have herase : (L q).erase a = X ++ Y := by
    rw [hl, List.erase_append_right _ haX, List.erase_cons_head]
  rw [herase]
  have hmem : ∀ b, b ∈ L q ↔ b = a ∨ b ∈ X ++ Y := by
    intro b
    rw [hl]
    simp only [List.mem_append, List.mem_cons]
    tauto
  refine h.update hq (fun r hr => ?_) (fun b hb => .inl ((hmem b).mpr (.inr hb))) fun b hb hin => ?_
  · obtain ⟨hend, hhead, hsize⟩ := hother r hr
    have hout : ∀ b ∈ L r, b ∉ L q := fun b hb hbq => hr (h.disjoint r q b hb hbq)
    exact (h.holds r).frame (fun b hb => hprev b (hout b hb)) (fun b hb => hnext b (hout b hb)) hend
      hhead hsize
  · by_cases hba : b = a
    · exact hba ▸ ha
    · have hbq : b ∉ L q := fun hc => ((hmem b).mp hc).elim hba hb
      rw [hprev b hbq, hnext b hbq]
      exact h.free b (hin.resolve_left hbq)

theorem Rep.erase_first (h : m.Rep L) (ha : a ∈ L q) (hprev : m.prev a = .null) :
    ∃ m', m.erase q a = some (m', .successful) ∧ m'.Rep (Function.update L q ((L q).erase a)) := by
  have hq := h.holds q
  have hhead : m.head q = .node a := by
    rcases hq.chain.prev ha with ⟨-, hc⟩ | ⟨b, -, hb, -⟩
    · exact hc
    · simp [hprev] at hb
  obtain ⟨Y, hl⟩ : ∃ Y, L q = [] ++ a :: Y := by
    rcases hq.chain.start with ⟨hc, -⟩ | ⟨d, Y, hd, hl⟩
    · simp [hhead] at hc
    · obtain rfl : a = d := by simpa [hhead] using hd
      exact ⟨Y, hl⟩
  have hchain := hq.chain
  have hnd := hq.nodup
  rw [hl] at hchain hnd
  have haY : a ∉ Y := (List.nodup_cons.mp hnd).1
  obtain ⟨m₁, hm₁, hY⟩ := hchain.after.setPrev (List.nodup_cons.mp hnd).2 .null
  obtain ⟨hp, hn, hh, hs, he⟩ := setPrev_frame hm₁
  have herase : m.erase q a = some ({ m₁ with
      head := Function.update m₁.head q (m.next a)
      next := Function.update m₁.next a .null
      size := Function.update m₁.size q (m₁.size q - 1) }, .successful) := by
    simp [Nodes.erase, hprev, h.next_ne_null ha, hm₁]
  have hfirst : ∀ b, b ∉ Y → m₁.prev b = m.prev b := fun b hb => hp b (hchain.after.start_ne_node hb)
  refine ⟨_, herase, h.removed hl ⟨?_, (List.nodup_cons.mp hnd).2, ?_⟩ ⟨?_, ?_⟩ (fun b hb => ?_)
    (fun b hb => ?_) fun r hr => ⟨?_, ?_, ?_⟩⟩
  · simp only [Function.update_self]
    refine hY.congr (fun _ _ => rfl) (fun b hb => ?_) rfl
    have hba : b ≠ a := fun hc => haY (hc ▸ hb)
    simp [hba]
  · have hsize := hq.size
    rw [hl] at hsize
    simp [hs, hsize]
  · exact (hfirst a haY).trans hprev
  · simp
  · exact hfirst b fun hc => hb (by simp [hl, hc])
  · have hba : b ≠ a := fun hc => hb (hc ▸ ha)
    simp [hba, hn]
  · exact he r (hchain.after.start_ne_fin hr)
  · simp [hr, hh]
  · simp [hr, hs]

theorem Rep.erase_inner (h : m.Rep L) (ha : a ∈ L q) (hprev : m.prev a ≠ .null) :
    ∃ m', m.erase q a = some (m', .successful) ∧ m'.Rep (Function.update L q ((L q).erase a)) := by
  have hq := h.holds q
  obtain ⟨b, hb, hpb, hnb⟩ : ∃ b ∈ L q, m.prev a = .node b ∧ m.next b = .node a := by
    rcases hq.chain.prev ha with ⟨hc, -⟩ | hex
    · exact absurd hc hprev
    · exact hex
  obtain ⟨X, Y, hl⟩ := List.append_of_mem ha
  have hchain := hq.chain
  have hnd := hq.nodup
  rw [hl] at hchain hnd
  have haX : a ∉ X := fun hc => (List.nodup_append.mp hnd).2.2 a hc a List.mem_cons_self rfl
  have hndY := (List.nodup_append.mp hnd).2.1
  have haY : a ∉ Y := (List.nodup_cons.mp hndY).1
  have hXY : ∀ d ∈ X, d ∉ Y := fun d hd hY =>
    (List.nodup_append.mp hnd).2.2 d hd d (List.mem_cons_of_mem a hY) rfl
  have hba : b ≠ a := by
    -- the node after `b` is `a`, and no node comes after itself
    rintro rfl
    have hafter := hchain.after
    rw [hnb] at hafter
    rcases hafter.start with ⟨hc, -⟩ | ⟨d, l', hd, hY⟩
    · cases hc
    · obtain rfl : b = d := by simpa using hd
      exact haY (hY ▸ List.mem_cons_self)
  have hbY : b ∉ Y := by
    -- the nodes before those of `Y` are `a` and the nodes of `Y`
    intro hc
    rcases hchain.after.next hc with hn | ⟨d, hd, hn⟩
    · simp [hnb] at hn
    · obtain rfl : a = d := by simpa [hnb] using hn
      exact haY hd
  let m₁ : Nodes α β := { m with next := Function.update m.next b (m.next a) }
  have hm₁ : m.setNext (m.prev a) (m.next a) = some m₁ := by rw [hpb]; rfl
  have hnext₁ : m₁.next a = m.next a := Function.update_of_ne hba.symm _ _
  have hY₁ : m₁.Chain q (.node a) (m.next a) Y := by
    refine hchain.after.congr (fun _ _ => rfl) (fun d hd => ?_) rfl
    exact Function.update_of_ne (fun hc : d = b => hbY (hc ▸ hd)) _ _
  obtain ⟨m₂, hm₂, hY₂⟩ := hY₁.setPrev (List.nodup_cons.mp hndY).2 (.node b)
  obtain ⟨hp, hn, hh, hs, he⟩ := setPrev_frame hm₂
  have herase : m.erase q a = some ({ m₂ with
      prev := Function.update m₂.prev a .null
      next := Function.update m₂.next a .null
      size := Function.update m₂.size q (m₂.size q - 1) }, .successful) := by
    have hprev₁ : m₁.prev a = .node b := hpb
    rw [Nodes.erase, if_neg (fun hc => hprev hc.2), if_neg hprev, hm₁, Option.bind_some, hnext₁,
      hprev₁, hm₂]
    rfl
  have hfirst : ∀ d, d ∉ Y → m₂.prev d = m.prev d := fun d hd =>
    hp d (hY₁.start_ne_node hd)
  refine ⟨_, herase, h.removed hl ⟨?_, hnd.sublist ?_, ?_⟩ ⟨?_, ?_⟩ (fun d hd => ?_)
    (fun d hd => ?_) fun r hr => ⟨?_, ?_, ?_⟩⟩
  · have hhead : m.head q ≠ .node a := by
      rcases hq.chain.start with ⟨hc, -⟩ | ⟨d, l', hd, hl'⟩
      · simp [hc]
      · rw [hd]
        intro hc
        obtain rfl : d = a := by simpa using hc
        have hq' := hq.chain
        rw [hl'] at hq'
        exact hprev hq'.2.1
    have hunlink := hchain.unlink (n := { m₂ with
      prev := Function.update m₂.prev a .null
      next := Function.update m₂.next a .null
      size := Function.update m₂.size q (m₂.size q - 1) }) haX (fun d hd => ?_) (fun d hd => ?_) ?_
    · rw [if_neg hhead] at hunlink
      have hsame : m₂.head q = m.head q := congrFun hh q
      simp only [hsame]
      exact hunlink
    · have hda : d ≠ a := fun hc => haX (hc ▸ hd)
      simpa [hda] using hfirst d (hXY d hd)
    · have hda : d ≠ a := fun hc => haX (hc ▸ hd)
      by_cases hdb : d = b
      · subst hdb
        simp [hda, hn, m₁, hnb]
      · have hne : m.next d ≠ .node a := by
          intro hc
          have hback := hchain.prev_of_next (List.mem_append_left _ hd) hc
          exact hdb (by simpa [hpb] using hback.symm)
        simp [hda, hn, m₁, hdb, hne]
    · rw [hpb]
      refine hY₂.congr (fun d hd => ?_) (fun d hd => ?_) rfl
      · have hda : d ≠ a := fun hc => haY (hc ▸ hd)
        simp [hda]
      · have hda : d ≠ a := fun hc => haY (hc ▸ hd)
        simp [hda]
  · exact List.Sublist.append_left (List.sublist_cons_self a Y) X
  · have hsize := hq.size
    rw [hl] at hsize
    simp [hs, m₁, hsize]
    omega
  · simp
  · simp
  · have hda : d ≠ a := fun hc => hd (hc ▸ ha)
    simpa [hda] using hfirst d fun hc => hd (by simp [hl, hc])
  · have hda : d ≠ a := fun hc => hd (hc ▸ ha)
    have hdb : d ≠ b := fun hc => hd (hc ▸ hb)
    simp [hda, hn, m₁, hdb]
  · exact he r (hY₁.start_ne_fin hr)
  · simp [hh, m₁]
  · simp [hr, hs, m₁]

/-- `erase` of a node, on the list that it is in. -/
theorem Rep.erase (h : m.Rep L) (ha : a ∈ L q) :
    ∃ m', m.erase q a = some (m', .successful) ∧ m'.Rep (Function.update L q ((L q).erase a)) := by
  by_cases hprev : m.prev a = .null
  · exact h.erase_first ha hprev
  · exact h.erase_inner ha hprev

end Nodes

end Jinx
