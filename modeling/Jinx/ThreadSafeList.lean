import Jinx.Lib.LinkedList
import Jinx.Lib.Runs

/-! `LinkedListThreadSafe` of `linkedlist.hpp`, one memory access at a time.

    Any number of threads are inside `push` and `pop`, and their accesses come in any order. `_head` is
    atomic; `_next` of a node and `_size` are not, so `_size += 1` is a load and a store. The memory is
    sequentially consistent. `compare_exchange_weak` may fail for no reason, and loads `_head` again
    when it fails. The history lists the exchanges that succeeded. -/

namespace Jinx
open LinkedList

/-- A stack as one party alone sees it: what is pushed, and what `pop` answers. -/
inductive StackOp (ν : Type*) where
  | push (value : ν)
  | pop (answer : Option ν)
  deriving DecidableEq, Repr

/-- `pop` takes the top, and answers null when there is none. -/
def StackOp.apply {ν : Type*} [DecidableEq ν] (l : List ν) : StackOp ν → Option (List ν)
  | .push v => some (v :: l)
  | .pop answer => if l.head? = answer then some l.tail else none

/-- The node that is pushed, or null. -/
def StackOp.node {ν : Type*} : StackOp ν → Option ν
  | .push v => some v
  | .pop _ => none

namespace LinkedListThreadSafe

/-- Where a thread is. -/
inductive Place (ν : Type*) where
  | idle
  /-- in `push`, before the load of `_head` -/
  | push (value : ν)
  /-- before `new_node->_next = old_head` -/
  | link (value : ν) (oldHead : Option ν)
  /-- before `compare_exchange_weak` -/
  | pushExchange (value : ν) (oldHead : Option ν)
  /-- before the load of `_size += 1` -/
  | pushed
  /-- before its store -/
  | grow (size : Int)
  /-- in `pop`, before the load of `_head` -/
  | pop
  /-- before the load of `old_head->_next` -/
  | follow (oldHead : Option ν)
  | popExchange (oldHead newHead : Option ν)
  /-- before `if (old_head != nullptr)` -/
  | popped (oldHead : Option ν)
  /-- before the store of `_size -= 1` -/
  | shrink (oldHead : ν) (size : Int)
  deriving DecidableEq, Repr

/-- The node that is not linked in yet. -/
def Place.pushing {ν : Type*} : Place ν → Option ν
  | .push v | .link v _ | .pushExchange v _ => some v
  | _ => none

/-- Between the load of `_head` and the exchange of `pop`. -/
def Place.popping {ν : Type*} : Place ν → Bool
  | .pop | .follow _ | .popExchange .. => true
  | _ => false

/-- The call whose exchange has not succeeded yet: the node of `push`, or null for `pop`. -/
def Place.pending {ν : Type*} : Place ν → List (Option ν)
  | .push v | .link v _ | .pushExchange v _ => [some v]
  | .pop | .follow _ | .popExchange .. => [none]
  | _ => []

/-- After the exchange: what becomes of `_size`, and the next place. -/
def Place.counts {ν : Type*} (size : Int) : Place ν → Option (Int × Place ν)
  | .pushed => some (size, .grow size)
  | .grow n => some (n + 1, .idle)
  | .popped none => some (size, .idle)
  | .popped (some v) => some (size, .shrink v size)
  | .shrink _ n => some (n - 1, .idle)
  | _ => none

theorem Place.counts_pending {ν : Type*} {p q : Place ν} {size n : Int}
    (h : p.counts size = some (n, q)) :
    p.pending = [] ∧ q.pending = [] ∧ q.pushing = none ∧ q.popping = false := by
  unfold Place.counts at h
  split at h <;> cases h <;> exact ⟨rfl, rfl, rfl, rfl⟩

end LinkedListThreadSafe

/-- The list, the nodes of all lists, and the threads that use this one. -/
structure LinkedListThreadSafe (τ ν : Type*) where
  head : Option ν := none
  next : ν → Option ν := fun _ => none
  size : Int := 0
  place : τ → LinkedListThreadSafe.Place ν := fun _ => .idle
  history : List (τ × StackOp ν) := []

namespace LinkedListThreadSafe

variable {τ ν : Type*} [DecidableEq τ] [DecidableEq ν]

def goTo (s : LinkedListThreadSafe τ ν) (t : τ) (p : Place ν) : LinkedListThreadSafe τ ν :=
  { s with place := Function.update s.place t p }

/-- The next access of a thread. -/
def access (s : LinkedListThreadSafe τ ν) (t : τ) (spurious : Bool) :
    Place ν → Option (LinkedListThreadSafe τ ν)
  | .idle => none
  | .push v => some (s.goTo t (.link v s.head))
  | .link v oldHead =>
    some ({ s with next := Function.update s.next v oldHead }.goTo t (.pushExchange v oldHead))
  | .pushExchange v oldHead =>
    if s.head = oldHead ∧ spurious = false then
      some ({ s with head := some v, history := s.history ++ [(t, StackOp.push v)] }.goTo t .pushed)
    else some (s.goTo t (.link v s.head))
  | .pushed => some (s.goTo t (.grow s.size))
  | .grow size => some ({ s with size := size + 1 }.goTo t .idle)
  | .pop => some (s.goTo t (.follow s.head))
  | .follow oldHead => some (s.goTo t (.popExchange oldHead (oldHead.bind s.next)))
  | .popExchange oldHead newHead =>
    if s.head = oldHead ∧ spurious = false then
      some ({ s with head := newHead, history := s.history ++ [(t, StackOp.pop oldHead)] }.goTo t
        (.popped oldHead))
    else some (s.goTo t (.follow s.head))
  | .popped none => some (s.goTo t .idle)
  | .popped (some v) => some (s.goTo t (.shrink v s.size))
  | .shrink _ size => some ({ s with size := size - 1 }.goTo t .idle)

inductive Label (τ ν : Type*) where
  | push (t : τ) (value : ν)
  | pop (t : τ)
  | access (t : τ) (spurious : Bool)
  deriving DecidableEq, Repr

def step (s : LinkedListThreadSafe τ ν) : Label τ ν → Option (LinkedListThreadSafe τ ν)
  | .push t v => if s.place t = .idle then some (s.goTo t (.push v)) else none
  | .pop t => if s.place t = .idle then some (s.goTo t .pop) else none
  | .access t spurious => s.access t spurious (s.place t)

abbrev exec : LinkedListThreadSafe τ ν → List (Label τ ν) → Option (LinkedListThreadSafe τ ν) :=
  Runs.exec step

/-- What an access of a thread does. -/
inductive Outcome (s : LinkedListThreadSafe τ ν) (t : τ) (spurious : Bool) : LinkedListThreadSafe τ ν →
    Prop
  | relink (v : ν) (hpushing : (s.place t).pushing = some v) (hpending : (s.place t).pending = [some v]) :
    Outcome s t spurious (s.goTo t (.link v s.head))
  | link (v : ν) (oldHead : Option ν) (ht : s.place t = .link v oldHead) :
    Outcome s t spurious
      ({ s with next := Function.update s.next v oldHead }.goTo t (.pushExchange v oldHead))
  | pushed (v : ν) (ht : s.place t = .pushExchange v s.head) :
    Outcome s t spurious
      ({ s with head := some v, history := s.history ++ [(t, StackOp.push v)] }.goTo t .pushed)
  | refollow (hpopping : (s.place t).popping = true) (hpending : (s.place t).pending = [none]) :
    Outcome s t spurious (s.goTo t (.follow s.head))
  | follow (oldHead : Option ν) (ht : s.place t = .follow oldHead) :
    Outcome s t spurious (s.goTo t (.popExchange oldHead (oldHead.bind s.next)))
  | popped (newHead : Option ν) (ht : s.place t = .popExchange s.head newHead) (hb : spurious = false) :
    Outcome s t spurious
      ({ s with head := newHead, history := s.history ++ [(t, StackOp.pop s.head)] }.goTo t
        (.popped s.head))
  | count (n : Int) (p : Place ν) (hcounts : (s.place t).counts s.size = some (n, p)) :
    Outcome s t spurious ({ s with size := n }.goTo t p)

theorem access_outcome {s s' : LinkedListThreadSafe τ ν} {t : τ} {spurious : Bool}
    (hstep : s.step (.access t spurious) = some s') : s.Outcome t spurious s' := by
  simp only [step] at hstep
  cases ht : s.place t with
  | idle => simp [access, ht] at hstep
  | push v =>
    obtain rfl : _ = s' := by simpa [access, ht] using hstep
    exact .relink v (by rw [ht]; rfl) (by rw [ht]; rfl)
  | link v oldHead =>
    obtain rfl : _ = s' := by simpa [access, ht] using hstep
    exact .link v oldHead ht
  | pushExchange v oldHead =>
    simp only [access, ht] at hstep
    split at hstep
    case isTrue hnow =>
      obtain rfl := Option.some.inj hstep
      exact .pushed v (by rw [ht, hnow.1])
    case isFalse =>
      obtain rfl := Option.some.inj hstep
      exact .relink v (by rw [ht]; rfl) (by rw [ht]; rfl)
  | pop =>
    obtain rfl : _ = s' := by simpa [access, ht] using hstep
    exact .refollow (by rw [ht]; rfl) (by rw [ht]; rfl)
  | follow oldHead =>
    obtain rfl : _ = s' := by simpa [access, ht] using hstep
    exact .follow oldHead ht
  | popExchange oldHead newHead =>
    simp only [access, ht] at hstep
    split at hstep
    case isTrue hnow =>
      obtain ⟨rfl, rfl⟩ := hnow
      obtain rfl := Option.some.inj hstep
      exact .popped newHead ht rfl
    case isFalse =>
      obtain rfl := Option.some.inj hstep
      exact .refollow (by rw [ht]; rfl) (by rw [ht]; rfl)
  | pushed | grow n | shrink v n =>
    obtain rfl : _ = s' := by simpa [access, ht] using hstep
    exact .count _ _ (by rw [ht]; rfl)
  | popped oldHead =>
    cases oldHead with
    | none | some v =>
      obtain rfl : _ = s' := by simpa [access, ht] using hstep
      exact .count _ _ (by rw [ht]; rfl)

/-! ### The list as a stack -/

/-- What a stack holds after the exchanges, if it would have answered the same. -/
def contents (s : LinkedListThreadSafe τ ν) : Option (List ν) :=
  Runs.exec StackOp.apply [] (s.history.map Prod.snd)

/-- The exchanges are those of a stack, and its nodes are linked from `_head` on. -/
def Sound (s : LinkedListThreadSafe τ ν) : Prop :=
  ∃ l, s.contents = some l ∧ Links s.next some none s.head l

/-- A node is pushed by one thread at a time, and not while it is in the list. -/
def Owned (s : LinkedListThreadSafe τ ν) : Label τ ν → Prop
  | .push _ v => (∀ l ∈ s.contents, v ∉ l) ∧ ∀ u, (s.place u).pushing ≠ some v
  | _ => True

/-- An exchange of `pop` that succeeds puts in the node that follows now. -/
def Fresh (s : LinkedListThreadSafe τ ν) : Label τ ν → Prop
  | .access t false => ∀ oldHead newHead, s.place t = .popExchange oldHead newHead →
      s.head = oldHead → newHead = oldHead.bind s.next
  | _ => True

/-- `pop` begins where no thread is before its exchange. -/
def OnePopper (s : LinkedListThreadSafe τ ν) : Label τ ν → Prop
  | .pop _ => ∀ u, (s.place u).popping = false
  | _ => True

variable {s s' : LinkedListThreadSafe τ ν} {l : List ν} {t u : τ} {v w : ν} {p : Place ν} {b : Bool}

structure Inv (s : LinkedListThreadSafe τ ν) (l : List ν) : Prop where
  contents : s.contents = some l
  links : Links s.next some none s.head l
  nodup : l.Nodup
  linked : ∀ t v oldHead, s.place t = .pushExchange v oldHead → s.next v = oldHead
  apart : ∀ t v, (s.place t).pushing = some v → v ∉ l
  distinct : ∀ t u v, (s.place t).pushing = some v → (s.place u).pushing = some v → t = u

omit [DecidableEq ν] in
@[simp] theorem goTo_place_self : (s.goTo t p).place t = p := Function.update_self ..

omit [DecidableEq ν] in
theorem goTo_place_ne (h : u ≠ t) : (s.goTo t p).place u = s.place u := Function.update_of_ne h ..

/-- The other threads stay where they are. -/
theorem outcome_place (hs : s.Outcome t b s') (hne : u ≠ t) : s'.place u = s.place u := by
  cases hs <;> exact goTo_place_ne hne

/-- A thread goes on with the node it had, or without one. -/
theorem Inv.goTo (h : Inv s l) (hpushing : ∀ v, p.pushing = some v → (s.place t).pushing = some v)
    (hlinked : ∀ v oldHead, p = .pushExchange v oldHead → s.next v = oldHead) :
    Inv (s.goTo t p) l := by
  have hbefore : ∀ u v, ((s.goTo t p).place u).pushing = some v → (s.place u).pushing = some v := by
    intro u v hu
    rcases eq_or_ne u t with rfl | hne
    · exact hpushing v (by simpa using hu)
    · rwa [goTo_place_ne hne] at hu
  refine ⟨h.contents, h.links, h.nodup, fun u v oldHead hu => ?_, fun u v hu => ?_,
    fun u u' v hu hu' => ?_⟩
  · rcases eq_or_ne u t with rfl | hne
    · exact hlinked v oldHead (by simpa using hu)
    · exact h.linked u v oldHead (by rwa [goTo_place_ne hne] at hu)
  · exact h.apart u v (hbefore u v hu)
  · exact h.distinct u u' v (hbefore u v hu) (hbefore u' v hu')

/-- A free node is taken to be pushed. -/
theorem Inv.push (h : Inv s l) (hfree : v ∉ l) (howned : ∀ u, (s.place u).pushing ≠ some v) :
    Inv (s.goTo t (.push v)) l := by
  have hcases : ∀ u w, ((s.goTo t (.push v)).place u).pushing = some w →
      u = t ∧ w = v ∨ u ≠ t ∧ (s.place u).pushing = some w := by
    intro u w hu
    rcases eq_or_ne u t with rfl | hne
    · rw [goTo_place_self] at hu
      exact .inl ⟨rfl, (Option.some.inj hu).symm⟩
    · exact .inr ⟨hne, by rwa [goTo_place_ne hne] at hu⟩
  refine ⟨h.contents, h.links, h.nodup, fun u w oldHead hu => ?_, fun u w hu => ?_,
    fun u u' w hu hu' => ?_⟩
  · rcases eq_or_ne u t with rfl | hne
    · simp at hu
    · exact h.linked u w oldHead (by rwa [goTo_place_ne hne] at hu)
  · obtain ⟨-, rfl⟩ | ⟨-, hu⟩ := hcases u w hu
    · exact hfree
    · exact h.apart u w hu
  · obtain ⟨rfl, rfl⟩ | ⟨-, hw⟩ := hcases u w hu <;> obtain ⟨rfl, hsame⟩ | ⟨-, hw'⟩ := hcases u' w hu'
    · rfl
    · exact absurd hw' (howned u')
    · exact absurd (hsame ▸ hw) (howned u)
    · exact h.distinct u u' w hw hw'

/-- The link of the node is set. -/
theorem Inv.link {q : Option ν} (h : Inv s l) (ht : s.place t = .link v q) :
    Inv ({ s with next := Function.update s.next v q }.goTo t (.pushExchange v q)) l := by
  have hpushing : (s.place t).pushing = some v := by rw [ht]; rfl
  have hset : Inv { s with next := Function.update s.next v q } l := by
    refine ⟨h.contents, h.links.congr fun a ha => ?_, h.nodup, fun u w oldHead hu => ?_, h.apart,
      h.distinct⟩
    · have hne : a ≠ v := fun hav => h.apart t v hpushing (hav ▸ ha)
      exact Function.update_of_ne hne ..
    · have hne : w ≠ v := by
        rintro rfl
        obtain rfl := h.distinct t u w hpushing (by rw [hu]; rfl)
        simp [ht] at hu
      exact (Function.update_of_ne hne ..).trans (h.linked u w oldHead hu)
  refine hset.goTo (fun w hw => ?_) fun w oldHead hw => ?_
  · rw [← hw]
    exact hpushing
  · obtain ⟨rfl, rfl⟩ := Place.pushExchange.inj hw
    exact Function.update_self ..

omit [DecidableEq τ] in
theorem contents_append (hs : s.contents = some l) (x : τ × StackOp ν) (q : Option ν)
    (place : τ → Place ν) :
    contents { s with head := q, history := s.history ++ [x], place := place } = x.2.apply l := by
  have hrun : contents { s with head := q, history := s.history ++ [x], place := place } =
      s.contents.bind fun m => Runs.exec StackOp.apply m [x.2] := by
    rw [contents, List.map_append, Runs.exec_append]
    rfl
  rw [hrun, hs, Option.bind_some, Runs.exec]
  cases x.2.apply l <;> rfl

/-- The node is the new first one. -/
theorem Inv.pushed (h : Inv s l) (ht : s.place t = .pushExchange v s.head) :
    Inv ({ s with head := some v, history := s.history ++ [(t, StackOp.push v)] }.goTo t .pushed)
      (v :: l) := by
  have hpushing : (s.place t).pushing = some v := by rw [ht]; rfl
  have hv := h.apart t v hpushing
  have hother : ∀ u, u ≠ t → (s.place u).pushing ≠ some v := fun u hne hu =>
    hne (h.distinct u t v hu hpushing)
  have hbefore : ∀ u w, (Function.update s.place t .pushed u).pushing = some w →
      u ≠ t ∧ (s.place u).pushing = some w := by
    intro u w hu
    rcases eq_or_ne u t with rfl | hne
    · rw [Function.update_self] at hu
      cases hu
    · exact ⟨hne, by rwa [Function.update_of_ne hne] at hu⟩
  refine ⟨contents_append h.contents .., ⟨rfl, ?_⟩, List.nodup_cons.mpr ⟨hv, h.nodup⟩,
    fun u w oldHead hu => ?_, fun u w hu => ?_, fun u u' w hu hu' => ?_⟩
  · exact (h.linked t v s.head ht).symm ▸ h.links
  · obtain ⟨hne, -⟩ := hbefore u w (congrArg Place.pushing hu)
    exact h.linked u w oldHead ((Function.update_of_ne hne ..).symm.trans hu)
  · obtain ⟨hne, hw⟩ := hbefore u w hu
    intro hmem
    rcases List.mem_cons.mp hmem with rfl | hmem
    · exact hother u hne hw
    · exact h.apart u w hw hmem
  · exact h.distinct u u' w (hbefore u w hu).2 (hbefore u' w hu').2

/-- The first node is out, and the one after it is the first. -/
theorem Inv.popped (h : Inv s l) :
    Inv ({ s with head := s.head.bind s.next, history := s.history ++ [(t, StackOp.pop s.head)] }.goTo t
      (.popped s.head)) l.tail := by
  have hset : Inv { s with head := s.head.bind s.next, history := s.history ++ [(t, StackOp.pop s.head)] }
      l.tail := by
    refine ⟨?_, h.links.tail, h.nodup.sublist (List.tail_sublist l), h.linked, fun u v hu hv => ?_,
      h.distinct⟩
    · rw [contents_append h.contents]
      show (if l.head? = s.head then some l.tail else none) = some l.tail
      rw [if_pos h.links.head?_eq]
    · exact h.apart u v hu (List.mem_of_mem_tail hv)
  exact hset.goTo (fun v hv => by cases hv) fun v oldHead hv => by cases hv

theorem Inv.relink (h : Inv s l) (ht : (s.place t).pushing = some v) : Inv
    (s.goTo t (.link v s.head)) l :=
  h.goTo (fun w hw => ht.trans hw) fun w oldHead hw => by cases hw

omit [DecidableEq τ] in
theorem Inv.setSize (h : Inv s l) (n : Int) : Inv { s with size := n } l := { h with }

theorem Inv.leave (h : Inv s l) (hp : p.pushing = none) : Inv (s.goTo t p) l := by
  refine h.goTo (fun v hv => ?_) fun v oldHead hv => ?_
  · rw [hp] at hv
    cases hv
  · rw [hv] at hp
    cases hp

/-- Every access keeps the list, but an exchange of `pop` that puts in a stale pointer. -/
theorem Inv.step {a : Label τ ν} (h : Inv s l) (howned : Owned s a) (hfresh : Fresh s a)
    (hstep : step s a = some s') : ∃ l', Inv s' l' := by
  cases a with
  | push t v =>
    obtain ⟨-, hs⟩ := Option.ite_none_right_eq_some.mp hstep
    obtain rfl := Option.some.inj hs
    exact ⟨l, h.push (howned.1 l h.contents) howned.2⟩
  | pop t =>
    obtain ⟨-, hs⟩ := Option.ite_none_right_eq_some.mp hstep
    obtain rfl := Option.some.inj hs
    exact ⟨l, h.leave rfl⟩
  | access t b =>
    cases access_outcome hstep with
    | relink v hpushing _ => exact ⟨l, h.relink hpushing⟩
    | link v oldHead ht => exact ⟨l, h.link ht⟩
    | pushed v ht => exact ⟨v :: l, h.pushed ht⟩
    | refollow _ _ => exact ⟨l, h.leave rfl⟩
    | follow oldHead ht => exact ⟨l, h.leave rfl⟩
    | popped newHead ht hb =>
      subst hb
      rw [hfresh s.head newHead ht rfl]
      exact ⟨l.tail, h.popped⟩
    | count n p hcounts => exact ⟨l, (h.setSize n).leave (Place.counts_pending hcounts).2.2.1⟩

omit [DecidableEq τ] in
theorem Inv.sound (h : Inv s l) : Sound s := ⟨l, h.contents, h.links⟩

/-- A stale pointer that is put in is not the one to the next node. -/
theorem Inv.not_sound {a : Label τ ν} (h : Inv s l) (hstale : ¬ Fresh s a)
    (hstep : LinkedListThreadSafe.step s a = some s') : ¬ Sound s' := by
  rintro ⟨m, hcontents, hlinks⟩
  cases a with
  | push t v => exact hstale trivial
  | pop t => exact hstale trivial
  | access t b =>
    cases b with
    | true => exact hstale trivial
    | false =>
      refine hstale fun oldHead newHead ht hhead => ?_
      subst hhead
      obtain rfl : _ = s' := by
        simpa [LinkedListThreadSafe.step, access, ht] using hstep
      have hpop : (StackOp.pop s.head).apply l = some l.tail := by
        rw [StackOp.apply, if_pos h.links.head?_eq]
      have htail : some l.tail = some m := hpop.symm.trans
        ((contents_append h.contents ..).symm.trans hcontents)
      obtain rfl := Option.some.inj htail
      exact hlinks.head?_eq.symm.trans h.links.tail.head?_eq

/-! ### One thread pops -/

/-- What the thread in `pop` has seen is still there: nobody else takes nodes out. -/
structure Popping (s : LinkedListThreadSafe τ ν) (l : List ν) : Prop extends Inv s l where
  one : ∀ t u, (s.place t).popping = true → (s.place u).popping = true → t = u
  seen : ∀ t v, s.place t = .follow (some v) → v ∈ l
  read : ∀ t oldHead newHead, s.place t = .popExchange oldHead newHead →
    newHead = oldHead.bind s.next ∧ ∀ v, oldHead = some v → v ∈ l

omit [DecidableEq τ] in
/-- Where the contents stay, the list does. -/
theorem Popping.same {l' : List ν} (h : Popping s l) (hnext : Popping s' l')
    (hc : s'.contents = s.contents) : Popping s' l := by
  obtain rfl : l = l' := Option.some.inj (h.contents.symm.trans (hc.symm.trans hnext.contents))
  exact hnext

omit [DecidableEq τ] in
theorem Popping.fresh (h : Popping s l) (a : Label τ ν) : Fresh s a := by
  cases a with
  | push t v => trivial
  | pop t => trivial
  | access t b =>
    cases b with
    | true => trivial
    | false => exact fun oldHead newHead ht _ => (h.read t oldHead newHead ht).1

theorem Popping.goTo (h : Popping s l) (hinv : Inv (s.goTo t p) l)
    (hone : p.popping = true → (s.place t).popping = true ∨ ∀ u, (s.place u).popping = false)
    (hseen : ∀ v, p = .follow (some v) → v ∈ l)
    (hread : ∀ oldHead newHead, p = .popExchange oldHead newHead →
      newHead = oldHead.bind s.next ∧ ∀ v, oldHead = some v → v ∈ l) :
    Popping (s.goTo t p) l := by
  have hcases : ∀ u, u = t ∨ (s.goTo t p).place u = s.place u := by
    intro u
    rcases eq_or_ne u t with rfl | hne
    · exact .inl rfl
    · exact .inr (goTo_place_ne hne)
  have hother : ∀ u, p.popping = true → (s.place u).popping = true → u = t := by
    intro u hp hu
    rcases hone hp with ht | hnone
    · exact h.one u t hu ht
    · rw [hnone u] at hu
      cases hu
  refine ⟨hinv, fun u u' hu hu' => ?_, fun u v hu => ?_, fun u oldHead newHead hu => ?_⟩
  · rcases hcases u with rfl | heq <;> rcases hcases u' with rfl | heq'
    · rfl
    · rw [goTo_place_self] at hu
      rw [heq'] at hu'
      exact (hother u' hu hu').symm
    · rw [goTo_place_self] at hu'
      rw [heq] at hu
      exact hother u hu' hu
    · rw [heq] at hu
      rw [heq'] at hu'
      exact h.one u u' hu hu'
  · rcases hcases u with rfl | heq
    · exact hseen v (goTo_place_self.symm.trans hu)
    · exact h.seen u v (heq.symm.trans hu)
  · rcases hcases u with rfl | heq
    · exact hread oldHead newHead (goTo_place_self.symm.trans hu)
    · exact h.read u oldHead newHead (heq.symm.trans hu)

/-- A thread goes to a place outside `pop`, or past its exchange. -/
theorem Popping.leave (h : Popping s l) (hinv : Inv (s.goTo t p) l) (hp : p.popping = false) :
    Popping (s.goTo t p) l := by
  refine h.goTo hinv (fun hpop => ?_) (fun v hv => ?_) fun oldHead newHead hv => ?_
  · rw [hp] at hpop
    cases hpop
  · rw [hv] at hp
    cases hp
  · rw [hv] at hp
    cases hp

omit [DecidableEq ν] in
/-- Who is in `pop` after a thread has gone elsewhere was there before. -/
theorem goTo_popping (hp : p.popping = false) (hu : ((s.goTo t p).place u).popping = true) :
    u ≠ t ∧ (s.goTo t p).place u = s.place u := by
  rcases eq_or_ne u t with rfl | hne
  · rw [goTo_place_self, hp] at hu
    cases hu
  · exact ⟨hne, goTo_place_ne hne⟩

/-- The thread goes elsewhere, and nothing is taken out. -/
theorem Popping.mono {l' : List ν} (h : Popping s l) (hinv : Inv (s'.goTo t p) l')
    (hp : p.popping = false)
    (hplace : s'.place = s.place) (hsub : ∀ v ∈ l, v ∈ l' ∧ s'.next v = s.next v) :
    Popping (s'.goTo t p) l' := by
  have hbefore : ∀ u, ((s'.goTo t p).place u).popping = true → (s'.goTo t p).place u = s.place u := by
    intro u hu
    rw [(goTo_popping hp hu).2, hplace]
  refine ⟨hinv, fun u u' hu hu' => ?_, fun u w hu => ?_, fun u oldHead newHead hu => ?_⟩
  · refine h.one u u' ?_ ?_
    · rwa [hbefore u hu] at hu
    · rwa [hbefore u' hu'] at hu'
  · exact (hsub w (h.seen u w ((hbefore u (congrArg Place.popping hu)).symm.trans hu))).1
  · obtain ⟨hnew, hmem⟩ := h.read u oldHead newHead
      ((hbefore u (congrArg Place.popping hu)).symm.trans hu)
    refine ⟨hnew.trans ?_, fun w hw => (hsub w (hmem w hw)).1⟩
    cases oldHead with
    | none => rfl
    | some w => exact (hsub w (hmem w rfl)).2.symm

/-- After the exchange nobody is in `pop`. -/
theorem Popping.popped (h : Popping s l) (ht : (s.place t).popping = true) :
    Popping ({ s with head := s.head.bind s.next, history :=
      s.history ++ [(t, StackOp.pop s.head)] }.goTo t
      (.popped s.head)) l.tail := by
  have hnone : ∀ u, ((s.goTo t (.popped s.head)).place u).popping ≠ true := by
    intro u hu
    obtain ⟨hne, hsame⟩ := goTo_popping rfl hu
    rw [hsame] at hu
    exact hne (h.one u t hu ht)
  refine ⟨h.toInv.popped, fun u u' hu hu' => ?_, fun u w hu => ?_, fun u oldHead newHead hu => ?_⟩
  · exact absurd hu (hnone u)
  · exact absurd (congrArg Place.popping hu) (hnone u)
  · exact absurd (congrArg Place.popping hu) (hnone u)

omit [DecidableEq τ] in
theorem Popping.setSize (h : Popping s l) (n : Int) : Popping { s with size := n } l where
  toInv := h.toInv.setSize n
  one := h.one
  seen := h.seen
  read := h.read

/-- Every access keeps what the one thread in `pop` has seen. -/
theorem Popping.step {a : Label τ ν} (h : Popping s l) (howned : Owned s a) (hone : OnePopper s a)
    (hstep : step s a = some s') : ∃ l', Popping s' l' := by
  cases a with
  | push t v =>
    obtain ⟨-, hs⟩ := Option.ite_none_right_eq_some.mp hstep
    obtain rfl := Option.some.inj hs
    exact ⟨l, h.leave (h.toInv.push (howned.1 l h.contents) howned.2) rfl⟩
  | pop t =>
    obtain ⟨-, hs⟩ := Option.ite_none_right_eq_some.mp hstep
    obtain rfl := Option.some.inj hs
    refine ⟨l, h.goTo (h.toInv.leave rfl) (fun _ => .inr hone) (fun v hv => ?_) fun _ _ hv => ?_⟩
    · cases hv
    · cases hv
  | access t b =>
    cases access_outcome hstep with
    | relink v hpushing _ => exact ⟨l, h.leave (h.toInv.relink hpushing) rfl⟩
    | link v oldHead ht =>
      have hv : v ∉ l := h.apart t v (by rw [ht]; rfl)
      refine ⟨l, h.mono (h.toInv.link ht) rfl rfl fun w hw => ⟨hw, ?_⟩⟩
      have hne : w ≠ v := fun hwv => hv (hwv ▸ hw)
      exact Function.update_of_ne hne ..
    | pushed v ht =>
      exact ⟨v :: l, h.mono (h.toInv.pushed ht) rfl rfl fun w hw => ⟨List.mem_cons_of_mem v hw, rfl⟩⟩
    | refollow hpopping _ =>
      refine ⟨l, h.goTo (h.toInv.leave rfl) (fun _ => .inl hpopping) (fun v hv => ?_) fun _ _ hv => ?_⟩
      · have hhead : s.head = some v := by simpa using hv
        exact List.mem_of_mem_head? (h.links.head?_eq.trans hhead)
      · cases hv
    | follow oldHead ht =>
      have hpopping : (s.place t).popping = true := by rw [ht]; rfl
      refine ⟨l, h.goTo (h.toInv.leave rfl) (fun _ => .inl hpopping)
        (fun v hv => ?_) fun old new hv => ?_⟩
      · cases hv
      · obtain ⟨rfl, rfl⟩ := Place.popExchange.inj hv
        refine ⟨rfl, fun v hv => h.seen t v ?_⟩
        rw [ht, hv]
    | popped newHead ht hb =>
      rw [(h.read t s.head newHead ht).1]
      exact ⟨l.tail, h.popped (by rw [ht]; rfl)⟩
    | count n p hcounts =>
      obtain ⟨-, -, hpushing, hpopping⟩ := Place.counts_pending hcounts
      exact ⟨l, (h.setSize n).leave ((h.toInv.setSize n).leave hpushing) hpopping⟩

omit [DecidableEq τ] in
theorem Popping.init : Popping (τ := τ) (ν := ν) {} [] where
  contents := rfl
  links := rfl
  nodup := List.nodup_nil
  linked _ _ _ h := by cases h
  apart _ _ h := by cases h
  distinct _ _ _ h := by cases h
  one _ _ h := by cases h
  seen _ _ h := by cases h
  read _ _ _ h := by cases h

end LinkedListThreadSafe
end Jinx
